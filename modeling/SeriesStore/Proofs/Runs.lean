import SeriesStore.Run

/-!
# Ascending runs

A timestamp has one place in an ascending run: some samples come before it, the
others behind it, and at most one sample is at it. A write at that timestamp
changes the run there and nowhere else.

Results:
1. `Ascending.located`: the place of a timestamp.
2. `upsert_absent`, `upsert_present`: what a write does at either kind of place.
3. `upsert_append_left`, `upsert_append_right`: a write into a part of a run is a
   write into the run.
4. `upsert_error`, `upsert_rejected`: a write fails exactly where a sample is stored
   at its timestamp and the policy rejects duplicates.
-/

namespace SeriesStore.Run

theorem ascending_append {a b : List Sample} :
    Ascending (a ++ b) ↔ Ascending a ∧ Ascending b ∧
      ∀ x ∈ a, ∀ y ∈ b, x.timestamp < y.timestamp :=
  List.pairwise_append

theorem ascending_cons {x : Sample} {run : List Sample} :
    Ascending (x :: run) ↔ (∀ y ∈ run, x.timestamp < y.timestamp) ∧ Ascending run :=
  List.pairwise_cons

/-! ## The place of a timestamp -/

/-- Where a timestamp belongs in a run: between two parts of it, or at a sample. -/
inductive Located (t : Timestamp) : List Sample → Prop
  | absent (lo hi : List Sample) :
      (∀ x ∈ lo, x.timestamp < t) → (∀ x ∈ hi, t < x.timestamp) → Located t (lo ++ hi)
  | present (lo : List Sample) (x : Sample) (hi : List Sample) :
      (∀ y ∈ lo, y.timestamp < t) → x.timestamp = t → (∀ y ∈ hi, t < y.timestamp) →
      Located t (lo ++ x :: hi)

theorem Ascending.located {run : List Sample} (h : Ascending run) (t : Timestamp) :
    Located t run := by
  induction run with
  | nil => exact .absent [] [] (by simp) (by simp)
  | cons x run ih =>
    obtain ⟨hx, hrun⟩ := ascending_cons.mp h
    by_cases hlt : x.timestamp < t
    · cases ih hrun with
      | absent lo hi hlo hhi =>
        refine .absent (x :: lo) hi (fun y hy => ?_) hhi
        rcases List.mem_cons.mp hy with rfl | hy
        · exact hlt
        · exact hlo y hy
      | present lo y hi hlo hy hhi =>
        refine .present (x :: lo) y hi (fun z hz => ?_) hy hhi
        rcases List.mem_cons.mp hz with rfl | hz
        · exact hlt
        · exact hlo z hz
    · by_cases heq : x.timestamp = t
      · exact .present [] x run (by simp) heq (heq ▸ hx)
      · have hgt : t < x.timestamp := by
          rw [UInt64.lt_iff_toNat_lt] at hlt ⊢
          have := mt UInt64.toNat_inj.mp heq
          omega
        refine .absent [] (x :: run) (by simp) (fun y hy => ?_)
        rcases List.mem_cons.mp hy with rfl | hy
        · exact hgt
        · exact UInt64.lt_trans hgt (hx y hy)

/-- The one sample at a timestamp in an ascending run. -/
theorem Ascending.eq_of_timestamp {run : List Sample} (h : Ascending run) {x y : Sample}
    (hx : x ∈ run) (hy : y ∈ run) (heq : x.timestamp = y.timestamp) : x = y := by
  induction run with
  | nil => cases hx
  | cons z run ih =>
    obtain ⟨hz, hrun⟩ := ascending_cons.mp h
    rcases List.mem_cons.mp hx with hxz | hxrun <;> rcases List.mem_cons.mp hy with hyz | hyrun
    · rw [hxz, hyz]
    · exact absurd (hz y hyrun) (by rw [← hxz, heq]; exact UInt64.lt_irrefl _)
    · exact absurd (hz x hxrun) (by rw [← hyz, heq]; exact UInt64.lt_irrefl _)
    · exact ih hrun hxrun hyrun

/-! ## Writing -/

theorem upsert_append_left {lo : List Sample} (policy : DuplicatePolicy) {s : Sample}
    (h : ∀ x ∈ lo, x.timestamp < s.timestamp) (run : List Sample) :
    upsert policy s (lo ++ run) =
      (upsert policy s run).map fun (run, done) => (lo ++ run, done) := by
  induction lo with
  | nil => cases hu : upsert policy s run <;> simp [hu, Except.map]
  | cons x lo ih =>
    have hrest := ih fun y hy => h y (List.mem_cons_of_mem _ hy)
    rw [List.cons_append, upsert, if_pos (h x List.mem_cons_self), hrest]
    cases upsert policy s run <;> rfl

theorem upsert_append_right {hi : List Sample} (policy : DuplicatePolicy) {s : Sample}
    (h : ∀ x ∈ hi, s.timestamp < x.timestamp) (run : List Sample) :
    upsert policy s (run ++ hi) =
      (upsert policy s run).map fun (run, done) => (run ++ hi, done) := by
  induction run with
  | nil =>
    cases hi with
    | nil => rfl
    | cons x hi =>
      have hx := h x List.mem_cons_self
      have hput : upsert policy s (x :: hi) = .ok (s :: x :: hi, ⟨1, s.value⟩) := by
        unfold upsert
        rw [if_neg (UInt64.lt_asymm hx), if_neg (Ne.symm (UInt64.ne_of_lt hx))]
      rw [List.nil_append, hput]
      rfl
  | cons x run ih =>
    rw [List.cons_append, upsert, upsert]
    split
    · rw [ih]
      cases upsert policy s run <;> rfl
    · split
      · cases policy.merge x s <;> rfl
      · rfl

/-- A sample at a new timestamp is put in its place. -/
theorem upsert_absent {lo hi : List Sample} (policy : DuplicatePolicy) {s : Sample}
    (hlo : ∀ x ∈ lo, x.timestamp < s.timestamp) (hhi : ∀ x ∈ hi, s.timestamp < x.timestamp) :
    upsert policy s (lo ++ hi) = .ok (lo ++ s :: hi, ⟨1, s.value⟩) := by
  rw [upsert_append_left policy hlo, ← List.nil_append hi, upsert_append_right policy hhi]
  rfl

/-- A sample past all others ends the run. -/
theorem upsert_past {run : List Sample} (policy : DuplicatePolicy) {s : Sample}
    (h : ∀ x ∈ run, x.timestamp < s.timestamp) :
    upsert policy s run = .ok (run ++ [s], ⟨1, s.value⟩) := by
  have hnone : ∀ x ∈ ([] : List Sample), s.timestamp < x.timestamp := by simp
  have hput := upsert_absent policy h hnone
  rwa [List.append_nil] at hput

/-- A sample at a stored timestamp is merged with the one that is there. -/
theorem upsert_present {lo hi : List Sample} {x : Sample} (policy : DuplicatePolicy) {s : Sample}
    (hlo : ∀ y ∈ lo, y.timestamp < s.timestamp) (hx : x.timestamp = s.timestamp) :
    upsert policy s (lo ++ x :: hi) =
      (policy.merge x s).map fun value => (lo ++ { x with value } :: hi, ⟨0, value⟩) := by
  rw [upsert_append_left policy hlo, upsert, if_neg (by rw [hx]; exact UInt64.lt_irrefl _),
    if_pos hx]
  cases policy.merge x s <;> rfl

/-- A merge fails only by a policy that rejects duplicates. -/
theorem merge_error {policy : DuplicatePolicy} {x s : Sample} {e : StoreError}
    (h : policy.merge x s = .error e) : policy.blocks = true ∧ e = .blocked s.timestamp := by
  cases policy <;> simp_all [DuplicatePolicy.merge, DuplicatePolicy.blocks]

theorem merge_of_blocks {policy : DuplicatePolicy} (h : policy.blocks = true) (x s : Sample) :
    policy.merge x s = .error (.blocked s.timestamp) := by
  cases policy <;> simp_all [DuplicatePolicy.merge, DuplicatePolicy.blocks]

/-- A write fails only where a sample is stored and the policy rejects
duplicates. -/
theorem upsert_error {run : List Sample} (hrun : Ascending run) {policy : DuplicatePolicy}
    {s : Sample} {e : StoreError} (h : upsert policy s run = .error e) :
    policy.blocks = true ∧ e = .blocked s.timestamp ∧ ∃ x ∈ run, x.timestamp = s.timestamp := by
  cases hrun.located s.timestamp with
  | absent lo hi hlo hhi =>
    rw [upsert_absent policy hlo hhi] at h
    cases h
  | present lo x hi hlo hx hhi =>
    rw [upsert_present policy hlo hx] at h
    cases hm : policy.merge x s with
    | ok value => rw [hm] at h; cases h
    | error e' =>
      rw [hm] at h
      cases h
      obtain ⟨hblocks, he⟩ := merge_error hm
      exact ⟨hblocks, he, x, by simp, hx⟩

/-- A write is rejected where a sample is stored and the policy rejects
duplicates. -/
theorem upsert_rejected {run : List Sample} (hrun : Ascending run) {policy : DuplicatePolicy}
    {s : Sample} (hblocks : policy.blocks = true) (hheld : ∃ x ∈ run, x.timestamp = s.timestamp) :
    upsert policy s run = .error (.blocked s.timestamp) := by
  cases hu : upsert policy s run with
  | error e => rw [(upsert_error hrun hu).2.1]
  | ok r =>
    obtain ⟨x, hx, hxs⟩ := hheld
    cases hrun.located s.timestamp with
    | absent lo hi hlo hhi =>
      rcases List.mem_append.mp hx with hx | hx
      · exact absurd (hlo x hx) (hxs ▸ UInt64.lt_irrefl _)
      · exact absurd (hhi x hx) (hxs ▸ UInt64.lt_irrefl _)
    | present lo y hi hlo hy hhi =>
      rw [upsert_present policy hlo hy, merge_of_blocks hblocks] at hu
      cases hu

/-- A sample at a new timestamp is stored as it is. -/
theorem upsert_fresh {run run' : List Sample} (hrun : Ascending run) {policy : DuplicatePolicy}
    {s : Sample} {done : Upserted} (hfresh : ∀ x ∈ run, x.timestamp ≠ s.timestamp)
    (h : upsert policy s run = .ok (run', done)) : done.value = s.value := by
  cases hrun.located s.timestamp with
  | absent lo hi hlo hhi =>
    rw [upsert_absent policy hlo hhi] at h
    cases h
    rfl
  | present lo x hi hlo hx hhi => exact absurd hx (hfresh x (by simp))

/-- What a write answers depends on the sample at its timestamp alone. -/
theorem upsert_agree {run run' : List Sample} (hrun : Ascending run) (hrun' : Ascending run')
    {s : Sample} (hsame : ∀ x : Sample, x.timestamp = s.timestamp → (x ∈ run' ↔ x ∈ run))
    (policy : DuplicatePolicy) :
    (upsert policy s run').map (·.2) = (upsert policy s run).map (·.2) := by
  cases hrun.located s.timestamp with
  | absent lo hi hlo hhi =>
    have habsent : ∀ x ∈ run', x.timestamp ≠ s.timestamp := by
      intro x hx heq
      rcases List.mem_append.mp ((hsame x heq).mp hx) with hx | hx
      · exact absurd (hlo x hx) (heq ▸ UInt64.lt_irrefl _)
      · exact absurd (hhi x hx) (heq ▸ UInt64.lt_irrefl _)
    cases hrun'.located s.timestamp with
    | absent lo' hi' hlo' hhi' =>
      rw [upsert_absent policy hlo' hhi', upsert_absent policy hlo hhi]
      rfl
    | present lo' y hi' hlo' hy hhi' => exact absurd hy (habsent y (by simp))
  | present lo x hi hlo hx hhi =>
    have hmem : x ∈ run' := (hsame x hx).mpr (by simp)
    cases hrun'.located s.timestamp with
    | absent lo' hi' hlo' hhi' =>
      rcases List.mem_append.mp hmem with hmem | hmem
      · exact absurd (hlo' x hmem) (hx ▸ UInt64.lt_irrefl _)
      · exact absurd (hhi' x hmem) (hx ▸ UInt64.lt_irrefl _)
    | present lo' y hi' hlo' hy hhi' =>
      obtain rfl : x = y := hrun'.eq_of_timestamp hmem (by simp) (hx.trans hy.symm)
      rw [upsert_present policy hlo' hx, upsert_present policy hlo hx]
      cases policy.merge x s <;> rfl

/-- What a write has done to a run, seen from its result. -/
structure Written (s : Sample) (run run' : List Sample) (done : Upserted) : Prop where
  ascending : Ascending run'
  length : run'.length = run.length + done.gained
  stored : ⟨s.timestamp, done.value⟩ ∈ run'
  others : ∀ x : Sample, x.timestamp ≠ s.timestamp → (x ∈ run' ↔ x ∈ run)
  fresh : done.gained = 1 → done.value = s.value

theorem upsert_written {run : List Sample} (hrun : Ascending run) {policy : DuplicatePolicy}
    {s : Sample} {run' : List Sample} {done : Upserted}
    (h : upsert policy s run = .ok (run', done)) : Written s run run' done := by
  cases hrun.located s.timestamp with
  | absent lo hi hlo hhi =>
    rw [upsert_absent policy hlo hhi] at h
    cases h
    obtain ⟨halo, hahi, hcross⟩ := ascending_append.mp hrun
    refine ⟨ascending_append.mpr ⟨halo, ascending_cons.mpr ⟨hhi, hahi⟩, ?_⟩, by simp; omega,
      by simp, fun x hx => ?_, fun _ => rfl⟩
    · intro x hx y hy
      rcases List.mem_cons.mp hy with rfl | hy
      · exact hlo x hx
      · exact hcross x hx y hy
    · have hne : x ≠ s := fun h => hx (h ▸ rfl)
      simp [hne]
  | present lo x hi hlo hx hhi =>
    rw [upsert_present policy hlo hx] at h
    cases hm : policy.merge x s with
    | error e => rw [hm] at h; cases h
    | ok value =>
      rw [hm] at h
      cases h
      obtain ⟨halo, hax, hcross⟩ := ascending_append.mp hrun
      obtain ⟨hxhi, hahi⟩ := ascending_cons.mp hax
      refine ⟨ascending_append.mpr ⟨halo, ascending_cons.mpr ⟨hxhi, hahi⟩, ?_⟩, by simp,
        by simp [hx], fun y hy => ?_, fun h => by simp at h⟩
      · intro y hy z hz
        rcases List.mem_cons.mp hz with rfl | hz
        · exact hcross y hy x List.mem_cons_self
        · exact hcross y hy z (List.mem_cons_of_mem _ hz)
      · have hne : y ≠ x := fun h => hy (h ▸ hx)
        have hne' : y ≠ { x with value } := fun h => hy (by rw [h]; exact hx)
        simp [hne, hne']

/-- A write adds one sample at most, wherever it goes. -/
theorem length_upsert_le {policy : DuplicatePolicy} {s : Sample} {run run' : List Sample}
    {done : Upserted} (h : upsert policy s run = .ok (run', done)) :
    run'.length ≤ run.length + 1 := by
  induction run generalizing run' with
  | nil =>
    cases h
    exact Nat.le_refl _
  | cons x run ih =>
    unfold upsert at h
    split at h
    · cases hrest : upsert policy s run with
      | error e => rw [hrest] at h; cases h
      | ok r =>
        rw [hrest] at h
        cases h
        exact Nat.succ_le_succ (ih hrest)
    · split at h
      · cases hm : policy.merge x s with
        | error e => rw [hm] at h; cases h
        | ok value =>
          rw [hm] at h
          cases h
          exact Nat.le_succ _
      · cases h
        exact Nat.le_refl _

/-- A run that has been written into is not empty. -/
theorem Written.ne_nil {s : Sample} {run run' : List Sample} {done : Upserted}
    (h : Written s run run' done) : run' ≠ [] :=
  List.ne_nil_of_mem h.stored

/-! ## Looking up -/

/-- A sample is found at a timestamp exactly where one is stored. -/
theorem holds_iff {run : List Sample} (hrun : Ascending run) (t : Timestamp) :
    holds t run = true ↔ ∃ x ∈ run, x.timestamp = t := by
  induction run with
  | nil => simp [holds]
  | cons x run ih =>
    obtain ⟨hx, hrest⟩ := ascending_cons.mp hrun
    by_cases hle : t ≤ x.timestamp
    · have hfound : holds t (x :: run) = (x.timestamp == t) := by simp [holds, hle]
      rw [hfound, beq_iff_eq]
      constructor
      · exact fun h => ⟨x, List.mem_cons_self, h⟩
      · rintro ⟨y, hy, heq⟩
        rcases List.mem_cons.mp hy with rfl | hy
        · exact heq
        · have hlt := hx y hy
          rw [heq] at hlt
          exact absurd hlt (UInt64.not_lt.mpr hle)
    · have hskip : holds t (x :: run) = holds t run := by simp [holds, hle]
      have hne : x.timestamp ≠ t := fun h => hle (by rw [h]; exact UInt64.le_refl _)
      rw [hskip, ih hrest]
      simp [hne]

/-! ## Ends and halves -/

theorem lastTimestamp_concat (run : List Sample) (x : Sample) :
    lastTimestamp (run ++ [x]) = x.timestamp := by
  simp [lastTimestamp]

theorem lastTimestamp_of_getLast? {run : List Sample} {x : Sample} (h : x ∈ run.getLast?) :
    lastTimestamp run = x.timestamp := by
  unfold lastTimestamp
  rw [Option.mem_def.mp h]
  rfl

theorem Ascending.le_lastTimestamp {run : List Sample} (h : Ascending run) {x : Sample}
    (hx : x ∈ run) : x.timestamp ≤ lastTimestamp run := by
  rcases List.eq_nil_or_concat run with rfl | ⟨front, last, hrun⟩
  · cases hx
  · rw [List.concat_eq_append] at hrun
    subst hrun
    rw [lastTimestamp_concat]
    rcases List.mem_append.mp hx with hx | hx
    · exact UInt64.le_of_lt ((ascending_append.mp h).2.2 x hx last (by simp))
    · rw [List.mem_singleton.mp hx]
      exact UInt64.le_refl _

theorem Ascending.firstTimestamp_le {run : List Sample} (h : Ascending run) {x : Sample}
    (hx : x ∈ run) : firstTimestamp run ≤ x.timestamp := by
  cases run with
  | nil => cases hx
  | cons y run =>
    rcases List.mem_cons.mp hx with rfl | hx
    · exact UInt64.le_refl _
    · exact UInt64.le_of_lt ((ascending_cons.mp h).1 x hx)

theorem lastTimestamp_mem {run : List Sample} (h : run ≠ []) :
    ∃ x ∈ run, x.timestamp = lastTimestamp run := by
  rcases List.eq_nil_or_concat run with rfl | ⟨front, last, hrun⟩
  · exact absurd rfl h
  · rw [List.concat_eq_append] at hrun
    subst hrun
    exact ⟨last, by simp, (lastTimestamp_concat front last).symm⟩

theorem firstTimestamp_mem {run : List Sample} (h : run ≠ []) :
    ∃ x ∈ run, x.timestamp = firstTimestamp run := by
  cases run with
  | nil => exact absurd rfl h
  | cons x run => exact ⟨x, List.mem_cons_self, rfl⟩

theorem Ascending.firstTimestamp_eq {run : List Sample} (h : Ascending run) {t : Timestamp}
    (hmem : ∃ x ∈ run, x.timestamp = t) (hle : ∀ x ∈ run, t ≤ x.timestamp) :
    firstTimestamp run = t := by
  obtain ⟨x, hx, rfl⟩ := hmem
  obtain ⟨y, hy, hyfirst⟩ := firstTimestamp_mem (List.ne_nil_of_mem hx)
  exact UInt64.le_antisymm (h.firstTimestamp_le hx) (hyfirst ▸ hle y hy)

/-- The last sample of an ascending run is the one that no other lies behind. -/
theorem Ascending.getLast?_eq {run : List Sample} (h : Ascending run) {x : Sample} (hx : x ∈ run)
    (hle : ∀ y ∈ run, y.timestamp ≤ x.timestamp) : run.getLast? = some x := by
  rcases List.eq_nil_or_concat run with rfl | ⟨front, last, hrun⟩
  · cases hx
  · rw [List.concat_eq_append] at hrun
    have hlast : last ∈ run := by simp [hrun]
    have hge : x.timestamp ≤ last.timestamp := by
      rw [← lastTimestamp_concat front last, ← hrun]
      exact h.le_lastTimestamp hx
    rw [h.eq_of_timestamp hx hlast (UInt64.le_antisymm hge (hle last hlast)), hrun]
    simp

theorem lastTimestamp_eq_getLastD (run : List Sample) (v : Value) :
    lastTimestamp run = (run.getLastD ⟨0, v⟩).timestamp := by
  rcases List.eq_nil_or_concat run with rfl | ⟨front, last, hrun⟩
  · rfl
  · rw [hrun, List.concat_eq_append, lastTimestamp_concat, List.getLastD_concat]

/-- A run of two samples or more is cut before its later half. -/
theorem halves?_eq {run : List Sample} (h : 2 ≤ run.length) :
    halves? run = some (run.take (run.length - run.length / 2),
      run.drop (run.length - run.length / 2)) := by
  rw [halves?, if_neg (Nat.not_lt.mpr h), List.splitAt_eq]

/-- Neither half of such a run is empty. -/
theorem halves_ne_nil {run : List Sample} (h : 2 ≤ run.length) :
    run.take (run.length - run.length / 2) ≠ [] ∧
      run.drop (run.length - run.length / 2) ≠ [] := by
  constructor
  · refine List.ne_nil_of_length_pos ?_
    rw [List.length_take]
    omega
  · refine List.ne_nil_of_length_pos ?_
    rw [List.length_drop]
    omega

/-! ## The ends of a run that has been written into -/

section Ends

variable {s : Sample} {run run' : List Sample} {done : Upserted}

theorem Written.mem (h : Written s run run' done) {x : Sample} (hx : x ∈ run') :
    x.timestamp = s.timestamp ∨ x ∈ run := by
  by_cases heq : x.timestamp = s.timestamp
  · exact .inl heq
  · exact .inr ((h.others x heq).mp hx)

theorem Written.kept (h : Written s run run' done) {x : Sample} (hx : x ∈ run) :
    ∃ y ∈ run', y.timestamp = x.timestamp := by
  by_cases heq : x.timestamp = s.timestamp
  · exact ⟨_, h.stored, heq.symm⟩
  · exact ⟨x, (h.others x heq).mpr hx, rfl⟩

/-- A write that is not before the first sample leaves the start of a run where it
is. -/
theorem Written.firstTimestamp_late (h : Written s run run' done) (hrun : Ascending run)
    (hne : run ≠ []) (hle : firstTimestamp run ≤ s.timestamp) :
    firstTimestamp run' = firstTimestamp run := by
  obtain ⟨x, hx, hxfirst⟩ := firstTimestamp_mem hne
  refine h.ascending.firstTimestamp_eq (hxfirst ▸ h.kept hx) fun y hy => ?_
  rcases h.mem hy with heq | hy
  · exact heq ▸ hle
  · exact hrun.firstTimestamp_le hy

/-- A write before all samples is the new start of a run. -/
theorem Written.firstTimestamp_early (h : Written s run run' done)
    (hlt : ∀ x ∈ run, s.timestamp < x.timestamp) : firstTimestamp run' = s.timestamp := by
  refine h.ascending.firstTimestamp_eq ⟨_, h.stored, rfl⟩ fun y hy => ?_
  rcases h.mem hy with heq | hy
  · exact heq ▸ UInt64.le_refl _
  · exact UInt64.le_of_lt (hlt y hy)

end Ends

end SeriesStore.Run
