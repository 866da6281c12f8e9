import SeriesStore.Proofs.Series.Changes
import SeriesStore.Proofs.Series.Invariant

/-!
# Retention loses no live sample

A series with a retention and its twin without one, which are otherwise made alike,
agree on the retention window whatever calls are made on both. What is dropped lies
before the window, the window never moves back, and a write before the window does
not reach into it, whether it answers the same on both sides or not.

Results:
1. `Twins.changed`, `Twins.put_left`, `Twins.put_right`: writes into the window and
   before it.
2. `Twins.perform`: one call on both series.
3. `live_run`: every run of calls.
-/

namespace SeriesStore.Series

variable {retention : UInt64} {s s' t t' base base' : Series} {x y : Sample}
  {writes writes' : List BucketWrite}

/-! ## The window -/

theorem oldest_mono (hretention : s'.retention = s.retention)
    (hle : s.lastTimestamp ≤ s'.lastTimestamp) : s.oldest ≤ s'.oldest := by
  rw [UInt64.le_iff_toNat_le] at hle ⊢
  by_cases hforever : s.retention = 0
  · rw [oldest_of_forever hforever]
    exact Nat.zero_le _
  · rw [toNat_oldest hforever, toNat_oldest (hretention ▸ hforever), hretention]
    omega

theorem oldest_le_of_forever (h : s.retention = 0) (t : Timestamp) : s.oldest ≤ t := by
  rw [oldest_of_forever h]
  exact UInt64.zero_le

/-- The window moves on where a sample is placed. -/
theorem Placed.oldest_le (h : Placed s x base) (hvalid : s.Valid) : s.oldest ≤ base.oldest := by
  apply oldest_mono h.alike.retention
  rw [h.last]
  by_cases hnil : s.toList = []
  · rw [hvalid.lastTimestamp_eq, hnil]
    exact UInt64.zero_le
  · exact UInt64.le_of_lt (h.behind hvalid hnil)

/-- The window stays where a sample is put. -/
theorem Put.oldest_eq (h : Put s x base) : base.oldest = s.oldest := by
  unfold oldest
  rw [h.alike.retention, h.last]

/-- What is trimmed lies before the window. -/
theorem mem_trim_iff (h : s.Valid) (hy : s.oldest ≤ y.timestamp) :
    y ∈ s.trim.1.toList ↔ y ∈ s.toList := by
  obtain ⟨d, gone, htrim, -, happend, -, hgone⟩ := trim_ok h.laid h.lastTimestamp_eq
  have hkept : y ∉ gone := fun hmem => absurd (hgone y hmem) (UInt64.not_lt.mpr hy)
  rw [htrim, happend]
  simp [toList, hkept]

/-! ## Twins -/

/-- Two series of which the second one keeps for ever what the first one may drop. They
agree on the retention window of the first one. -/
structure Twins (retention : UInt64) (s s' : Series) : Prop where
  valid : s.Valid
  twin : s'.Valid
  windowed : s.retention = retention
  forever : s'.retention = 0
  policy : s'.policy = s.policy
  last : s'.lastTimestamp = s.lastTimestamp
  live : ∀ x : Sample, s.oldest ≤ x.timestamp → (x ∈ s'.toList ↔ x ∈ s.toList)

theorem Twins.new (key : String) (options : SeriesOptions) :
    Twins options.retention (new key options) (new key { options with retention := 0 }) := by
  have hnil : ∀ options, (Series.new key options).toList = [] := fun options =>
    List.eq_nil_of_length_eq_zero (new_valid key options).total.symm
  refine ⟨new_valid _ _, new_valid _ _, rfl, rfl, rfl, rfl, fun x _ => ?_⟩
  rw [hnil, hnil]

theorem Twins.nil_iff (h : Twins retention s s') : s'.toList = [] ↔ s.toList = [] := by
  constructor
  · intro hnil
    apply Classical.byContradiction
    intro hne
    have hmem := (h.live _ s.oldest_le).mpr (h.valid.last_mem hne)
    rw [hnil] at hmem
    cases hmem
  · intro hnil
    apply Classical.byContradiction
    intro hne
    have hmem := (h.live _ (h.last ▸ s.oldest_le)).mp (h.twin.last_mem hne)
    rw [hnil] at hmem
    cases hmem

theorem Twins.isEmpty_iff (h : Twins retention s s') : s'.isEmpty = true ↔ s.isEmpty = true := by
  rw [h.twin.isEmpty_iff, h.valid.isEmpty_iff, h.nil_iff]

/-- The last sample lies in the window. -/
theorem Twins.lastValue_eq (h : Twins retention s s') : s'.lastValue = s.lastValue := by
  have hlast := h.valid.last
  have hlast' := h.twin.last
  by_cases hnil : s.toList = []
  · rw [hnil] at hlast
    rw [h.nil_iff.mpr hnil] at hlast'
    exact congrArg Sample.value (hlast'.trans hlast.symm)
  · have hmem := (h.live _ s.oldest_le).mpr (h.valid.last_mem hnil)
    have hmem' := h.twin.last_mem (mt h.nil_iff.mp hnil)
    exact congrArg Sample.value (h.twin.ascending.eq_of_timestamp hmem' hmem h.last)

theorem Twins.admitted_iff (h : Twins retention s s') (call : Call) :
    call.Admitted s' ↔ call.Admitted s := by
  cases call with
  | add sample =>
    unfold Call.Admitted
    rw [h.isEmpty_iff, h.last]
  | upsert | trim => exact .rfl

/-! ## Writes into the window -/

theorem Twins.placed (h : Twins retention s s') (hp : Placed s x base) (hp' : Placed s' x base') :
    Twins retention base base' where
  valid := hp.valid
  twin := hp'.valid
  windowed := hp.alike.retention.trans h.windowed
  forever := hp'.alike.retention.trans h.forever
  policy := by rw [hp'.alike.policy, hp.alike.policy, h.policy]
  last := by rw [hp'.last, hp.last]
  live y hy := by
    have hy := UInt64.le_trans (hp.oldest_le h.valid) hy
    rw [hp.mem_iff hy, hp'.mem_iff (oldest_le_of_forever h.forever _), h.live y hy]

theorem Twins.put (h : Twins retention s s') (hp : Put s x base) (hp' : Put s' x base') :
    Twins retention base base' where
  valid := hp.valid
  twin := hp'.valid
  windowed := hp.alike.retention.trans h.windowed
  forever := hp'.alike.retention.trans h.forever
  policy := by rw [hp'.alike.policy, hp.alike.policy, h.policy]
  last := by rw [hp'.last, hp.last, h.last]
  live y hy := by rw [hp.mem_iff, hp'.mem_iff, h.live y (hp.oldest_eq ▸ hy)]

/-- Rules take no part. -/
theorem Twins.step_left (h : Twins retention s s') (step : Rule → Rule × Option BucketWrite) :
    Twins retention (s.stepRules step).1 s' :=
  ⟨h.valid.stepRules step, h.twin, h.windowed, h.forever, h.policy, h.last, h.live⟩

theorem Twins.step_right (h : Twins retention s s') (step : Rule → Rule × Option BucketWrite) :
    Twins retention s (s'.stepRules step).1 :=
  ⟨h.valid, h.twin.stepRules step, h.windowed, h.forever, h.policy, h.last, h.live⟩

/-- The same change of both series. -/
theorem Twins.changed (h : Twins retention s s') (hc : Change s x t writes)
    (hc' : Change s' x t' writes') : Twins retention t t' := by
  cases hc with
  | placed hp =>
    cases hc' with
    | placed hp' => exact ((h.placed hp hp').step_left _).step_right _
    | put hp' =>
      have hlt := hp.behind h.valid (mt h.nil_iff.mpr hp'.nonempty)
      exact absurd hp'.inside (UInt64.not_le.mpr (h.last ▸ hlt))
  | put hp =>
    cases hc' with
    | placed hp' =>
      have hlt := hp'.behind h.twin (mt h.nil_iff.mp hp.nonempty)
      exact absurd hp.inside (UInt64.not_le.mpr (h.last ▸ hlt))
    | put hp' => exact ((h.put hp hp').step_left _).step_right _

/-! ## Writes before the window -/

/-- A change at a time before the last sample puts a sample. -/
theorem Change.put_of_lt (h : Change s x t writes) (hvalid : s.Valid)
    (hlt : x.timestamp < s.lastTimestamp) :
    ∃ base, Put s x base ∧ t = (base.revised x.timestamp).1 := by
  cases h with
  | put hp => exact ⟨_, hp, rfl⟩
  | placed hp =>
    by_cases hnil : s.toList = []
    · rw [hvalid.lastTimestamp_eq, hnil] at hlt
      exact absurd hlt UInt64.not_lt_zero
    · exact absurd (hp.behind hvalid hnil) (UInt64.lt_asymm hlt)

/-- A sample that is put before the window of the first series is not seen by its twin. -/
theorem Twins.put_left (h : Twins retention s s') (hp : Put s x base)
    (hold : x.timestamp < s.oldest) : Twins retention base s' where
  valid := hp.valid
  twin := h.twin
  windowed := hp.alike.retention.trans h.windowed
  forever := h.forever
  policy := by rw [hp.alike.policy, h.policy]
  last := by rw [hp.last, h.last]
  live y hy := by
    rw [hp.oldest_eq] at hy
    have hne : y.timestamp ≠ x.timestamp := (UInt64.ne_of_lt (UInt64.lt_of_lt_of_le hold hy)).symm
    rw [h.live y hy, hp.others y hne]

theorem Twins.put_right (h : Twins retention s s') (hp : Put s' x base)
    (hold : x.timestamp < s.oldest) : Twins retention s base where
  valid := h.valid
  twin := hp.valid
  windowed := h.windowed
  forever := hp.alike.retention.trans h.forever
  policy := by rw [hp.alike.policy, h.policy]
  last := by rw [hp.last, h.last]
  live y hy := by
    have hne : y.timestamp ≠ x.timestamp := (UInt64.ne_of_lt (UInt64.lt_of_lt_of_le hold hy)).symm
    rw [hp.others y hne, h.live y hy]

/-- Changes before the window need not be made on both sides. -/
theorem Twins.changed_left (h : Twins retention s s') (hc : Change s x t writes)
    (hold : x.timestamp < s.oldest) : Twins retention t s' := by
  obtain ⟨base, hp, rfl⟩ := hc.put_of_lt h.valid (UInt64.lt_of_lt_of_le hold s.oldest_le)
  exact (h.put_left hp hold).step_left _

theorem Twins.changed_right (h : Twins retention s s') (hc : Change s' x t writes)
    (hold : x.timestamp < s.oldest) : Twins retention s t := by
  have hlt := UInt64.lt_of_lt_of_le hold s.oldest_le
  obtain ⟨base, hp, rfl⟩ := hc.put_of_lt h.twin (h.last ▸ hlt)
  exact (h.put_right hp hold).step_right _

/-! ## Calls -/

theorem Twins.add (h : Twins retention s s') {sample : Sample}
    (hcall : (Call.add sample).Admitted s) :
    Twins retention (stateAfter (Call.perform (.add sample)) s)
      (stateAfter (Call.perform (.add sample)) s') := by
  obtain ⟨base, hadd, hp⟩ := add_placed h.valid hcall
  obtain ⟨base', hadd', hp'⟩ := add_placed h.twin ((h.admitted_iff _).mpr hcall)
  unfold Call.perform
  rw [stateAfter_of_ok hadd, stateAfter_of_ok hadd']
  exact h.placed hp hp'

theorem Twins.trim (h : Twins retention s s') : Twins retention s.trim.1 s'.trim.1 where
  valid := trim_valid h.valid
  twin := trim_valid h.twin
  windowed := h.windowed
  forever := h.forever
  policy := h.policy
  last := h.last
  live y hy := by
    have hy : s.oldest ≤ y.timestamp := hy
    rw [mem_trim_iff h.valid hy, mem_trim_iff h.twin (oldest_le_of_forever h.forever _),
      h.live y hy]

/-- A call that writes at any time is a change, or its run rejects it and nothing
changes. -/
theorem perform_upsert_cases (h : s.Valid) (sample : Sample) (override fallback : DuplicatePolicy) :
    (∃ e, Run.upsert (.resolve override s.policy fallback) sample s.toList = .error e ∧
        stateAfter (Call.perform (.upsert sample override fallback)) s = s) ∨
      ∃ run done t writes,
        Run.upsert (.resolve override s.policy fallback) sample s.toList = .ok (run, done) ∧
        stateAfter (Call.perform (.upsert sample override fallback)) s = t ∧
        Change s ⟨sample.timestamp, done.value⟩ t writes := by
  unfold Call.perform
  rcases upsert_cases h sample override fallback with
    ⟨e, hu, hfail⟩ | ⟨run, done, t, writes, hu, hok, hchange⟩
  · exact .inl ⟨e, hu, stateAfter_of_error (map_of_error (fun _ => ()) hfail)⟩
  · exact .inr ⟨run, done, t, writes, hu, stateAfter_of_ok (map_of_ok (fun _ => ()) hok), hchange⟩

theorem Twins.upsert (h : Twins retention s s') (sample : Sample)
    (override fallback : DuplicatePolicy) :
    Twins retention (stateAfter (Call.perform (.upsert sample override fallback)) s)
      (stateAfter (Call.perform (.upsert sample override fallback)) s') := by
  have hleft := perform_upsert_cases h.valid sample override fallback
  have hright := perform_upsert_cases h.twin sample override fallback
  rw [h.policy] at hright
  by_cases hold : sample.timestamp < s.oldest
  · -- Each side may reject the write or not.
    have hright' : Twins retention s
        (stateAfter (Call.perform (.upsert sample override fallback)) s') := by
      rcases hright with ⟨e, -, hsame⟩ | ⟨run, done, t, writes, -, rfl, hchange⟩
      · exact hsame.symm ▸ h
      · exact h.changed_right hchange hold
    rcases hleft with ⟨e, -, hsame⟩ | ⟨run, done, t, writes, -, rfl, hchange⟩
    · exact hsame.symm ▸ hright'
    · exact hright'.changed_left hchange hold
  · have hagree := Run.upsert_agree h.valid.ascending h.twin.ascending
      (fun x hx => h.live x (hx ▸ UInt64.not_lt.mp hold)) (.resolve override s.policy fallback)
    rcases hleft with ⟨e, hu, hsame⟩ | ⟨run, done, t, writes, hu, rfl, hchange⟩ <;>
      rcases hright with ⟨e', hu', hsame'⟩ | ⟨run', done', t', writes', hu', rfl, hchange'⟩ <;>
      rw [hu, hu'] at hagree
    · exact hsame.symm ▸ hsame'.symm ▸ h
    · cases hagree
    · cases hagree
    · obtain rfl : done' = done := Except.ok.inj hagree
      exact h.changed hchange hchange'

theorem Twins.perform (h : Twins retention s s') {call : Call} (hcall : call.Admitted s) :
    Twins retention (stateAfter call.perform s) (stateAfter call.perform s') := by
  cases call with
  | add sample => exact h.add hcall
  | upsert sample override fallback => exact h.upsert sample override fallback
  | trim => exact h.trim

theorem Twins.run (h : Twins retention s s') {calls : List Call} (hcalls : Call.Admits calls s) :
    Twins retention (runAll Call.perform calls s) (runAll Call.perform calls s') ∧
      Call.Admits calls s' := by
  induction calls generalizing s s' with
  | nil => exact ⟨h, trivial⟩
  | cons call calls ih =>
    obtain ⟨hnext, hadmits⟩ := ih (h.perform hcalls.1) hcalls.2
    exact ⟨hnext, (h.admitted_iff call).mpr hcalls.1, hadmits⟩

/-- Whatever calls are made on a series with a retention and on its twin without one,
both know the same last sample and store the same samples of the retention window. -/
theorem live_run (key : String) (options : SeriesOptions) (calls : List Call)
    (h : Call.Admits calls (new key options)) :
    let twin := new key { options with retention := 0 }
    Call.Admits calls twin ∧ ∀ n,
      let s := runAll Call.perform (calls.take n) (new key options)
      let s' := runAll Call.perform (calls.take n) twin
      s.lastTimestamp = s'.lastTimestamp ∧ s.lastValue = s'.lastValue ∧
        ∀ x : Sample, s.lastTimestamp.toNat - options.retention.toNat ≤ x.timestamp.toNat →
          (x ∈ s.toList ↔ x ∈ s'.toList) := by
  intro twin
  have hnew := Twins.new key options
  refine ⟨(hnew.run h).2, fun n => ?_⟩
  have htwins := (hnew.run (h.take n)).1
  refine ⟨htwins.last.symm, htwins.lastValue_eq.symm, fun x hx => (htwins.live x ?_).symm⟩
  have hwindow := toNat_oldest_le (runAll Call.perform (calls.take n) (new key options))
  rw [htwins.windowed] at hwindow
  exact UInt64.le_iff_toNat_le.mpr (Nat.le_trans hwindow hx)

/-- A run that drops samples by a full chunk and by a trim, and writes before the window
at a time that only the twin still holds. -/
theorem live_run_backfill :
    let calls : List Call := [.add ⟨5, ⟨1⟩⟩, .add ⟨30, ⟨2⟩⟩, .upsert ⟨5, ⟨3⟩⟩ .unset .block,
      .add ⟨50, ⟨4⟩⟩, .upsert ⟨5, ⟨5⟩⟩ .unset .block, .upsert ⟨45, ⟨6⟩⟩ .unset .block, .trim]
    let options : SeriesOptions := { chunkSize := 16, encoding := .plain, retention := 10 }
    let twin := new "s" { options with retention := 0 }
    Call.Admits calls (new "s" options) ∧ Call.Admits calls twin ∧ ∀ n,
      let s := runAll Call.perform (calls.take n) (new "s" options)
      let s' := runAll Call.perform (calls.take n) twin
      s.lastTimestamp = s'.lastTimestamp ∧ s.lastValue = s'.lastValue ∧
        ∀ x : Sample, s.lastTimestamp.toNat - options.retention.toNat ≤ x.timestamp.toNat →
          (x ∈ s.toList ↔ x ∈ s'.toList) :=
  have h := by decide +kernel
  ⟨h, live_run _ _ _ h⟩

end SeriesStore.Series
