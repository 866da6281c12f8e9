import SeriesStore.Proofs.Store.Following

/-!
# Retried writes

A sample that is added a second time, under the policy by which the last write counts, is
written where it is stored already. The store keeps what it holds, and so do the rules that
follow their source. A rule that was made in the middle of a bucket is behind its source for
as long as samples are appended to that bucket, and catches up when the last of them is added
again.

Results:
1. `add_last`, `add_again`: the two calls.
2. `add_last_again`: what the second call leaves unchanged, after any calls before.
3. `add_last_not_idempotent`: a rule that catches up.
-/

namespace SeriesStore.Store

variable {st st' : Store} {memory : Memory} {key k : String} {s s' d : Series} {x : Sample}
  {sample : Sample} {writes : List BucketWrite}

/-- What is read of two series is the same, and their rules are in the same state up to
exceptions. -/
structure Unchanged (exception : Series → Rule → Rule → Prop) (s s' : Series) : Prop where
  samples : s'.range 0 .latest = s.range 0 .latest
  lastTimestamp : s'.lastTimestamp = s.lastTimestamp
  lastValue : s'.lastValue = s.lastValue
  totalSamples : s'.totalSamples = s.totalSamples
  rules : List.Forall₂ (fun r r' => r'.dest = r.dest ∧ r'.bucketStart = r.bucketStart ∧
    (r'.current? = r.current? ∨ exception s r r')) s.rules s'.rules

theorem Unchanged.refl (exception : Series → Rule → Rule → Prop) (s : Series) :
    Unchanged exception s s :=
  ⟨rfl, rfl, rfl, rfl, List.forall₂_same.mpr fun _ _ => ⟨rfl, rfl, .inl rfl⟩⟩

/-- Where the same is stored, only the rules are left to look at. -/
theorem unchanged_of_toList {exception : Series → Rule → Rule → Prop} (h : s.Valid)
    (h' : s'.Valid) (heq : s'.toList = s.toList)
    (hrules : List.Forall₂ (fun r r' => r'.dest = r.dest ∧ r'.bucketStart = r.bucketStart ∧
      (r'.current? = r.current? ∨ exception s r r')) s.rules s'.rules) :
    Unchanged exception s s' := by
  obtain ⟨htimestamp, hvalue, htotal⟩ := h.same_last h' heq
  exact ⟨by rw [h.range_all, h'.range_all, heq], htimestamp, hvalue, htotal, hrules⟩

/-! ## The two calls -/

/-- Nothing is too old for a series that keeps its samples for ever. -/
theorem not_tooOld (hforever : s.retention = 0) (t : Timestamp) : ¬ t < s.oldest := by
  rw [Series.oldest_of_forever hforever]
  exact UInt64.not_lt.mpr UInt64.zero_le

/-- A sample is always taken where the last write counts. -/
theorem add_last (h : st.Sound) (hs : st.get? key = some s) (hforever : s.retention = 0)
    (sample : Sample) : ∃ s' writes, Series.Change s sample s' writes ∧
      add key sample .last st = .ok sample.timestamp ((st.put key s').deliver writes) := by
  obtain ⟨run, gained, hu⟩ := Run.upsert_last (h.valid hs).ascending sample
  have hresolved : Run.upsert (.resolve .last s.policy st.config.policy) sample s.toList =
      .ok (run, ⟨gained, sample.value⟩) := hu
  rcases add_cases h hs .last (not_tooOld hforever sample.timestamp) with
    ⟨e, hfail, -⟩ | ⟨run', done, s', writes, hrun, -, hchange, hok⟩
  · rw [hresolved] at hfail
    cases hfail
  rw [hresolved] at hrun
  cases hrun
  exact ⟨s', writes, hchange, hok⟩

/-- A sample that is stored is put where it is. -/
theorem add_again (h : st.Sound) (hs : st.get? key = some s) (hforever : s.retention = 0)
    (hx : x ∈ s.toList) : ∃ base, Series.Put s x base ∧
      add key x .last st = .ok x.timestamp
        ((st.put key (base.revised x.timestamp).1).deliver (base.revised x.timestamp).2) := by
  have hvalid := h.valid hs
  obtain ⟨base, hupsert, hput⟩ := Series.upsert_stored hvalid hx st.config.policy
  refine ⟨base, hput, ?_⟩
  have hfull : s.isEmpty = false := hvalid.isEmpty_eq_false.mpr (List.ne_nil_of_mem hx)
  have hplacing : placing st s x .last s = .ok (base.revised x.timestamp).2
      (base.revised x.timestamp).1 := by
    unfold placing
    rw [if_pos (by simp [hfull, hvalid.le_last hx])]
    exact hupsert
  rw [add_placing hs .last (not_tooOld hforever x.timestamp), bind_of_ok (within_ok hs hplacing)]
  rfl

/-! ## Destinations -/

/-- A series that keeps its samples for ever stays as it is when it receives a sample that it
stores. -/
theorem toList_received_again (h : d.Valid) (hforever : d.retention = 0) (hx : x ∈ d.toList) :
    (Series.received x d).toList = d.toList := by
  obtain ⟨writes, hchange⟩ := Series.received_change h x
  refine hchange.valid.ascending.ext h.ascending fun y => ?_
  by_cases heq : y.timestamp = x.timestamp
  · have hfirst : ∀ {run : List Sample}, Run.Ascending run → x ∈ run → (y ∈ run ↔ y = x) :=
      fun hasc hx => ⟨fun hy => hasc.eq_of_timestamp hy hx heq, fun heq => heq ▸ hx⟩
    rw [hfirst hchange.valid.ascending hchange.stored, hfirst h.ascending hx]
  · exact hchange.others hforever heq

/-- A destination that is owed what it was owed before stays as it is. -/
theorem unchanged_owed {exception : Series → Rule → Rule → Prop} (h : d.StoredAs key)
    (hforever : d.retention = 0) (hleaf : d.rules = []) {owed next : Option BucketWrite}
    (hnext : next = none ∨ next = owed) :
    Unchanged exception (receivedAll owed.toList d)
      (receivedAll next.toList (receivedAll owed.toList d)) := by
  rcases hnext with rfl | rfl
  · exact .refl exception _
  cases next with
  | none => exact .refl exception _
  | some w =>
    obtain ⟨writes, hchange⟩ := Series.received_change h.valid w.sample
    obtain ⟨hstored, -⟩ := h.changed hchange
    obtain ⟨writes', hchange'⟩ := Series.received_change hstored.valid w.sample
    have hforever' : (Series.received w.sample d).retention = 0 :=
      hchange.alike.retention.trans hforever
    have hrules : (Series.received w.sample d).rules = [] := rules_receivedAll h hleaf [w]
    have hrules' : (Series.received w.sample (Series.received w.sample d)).rules = [] :=
      rules_receivedAll hstored hrules [w]
    refine unchanged_of_toList hstored.valid hchange'.valid
      (toList_received_again hstored.valid hforever' hchange.stored) ?_
    change List.Forall₂ _ (Series.received w.sample d).rules
      (Series.received w.sample (Series.received w.sample d)).rules
    rw [hrules, hrules']
    exact .nil

/-! ## The whole store -/

/-- After a change of one series, the same sample can be added again. Only rules of that series
that were behind are in another state then. -/
theorem Sound.again (h : st.Sound) (hnoted : st.Noted memory)
    (hforever : ∀ k s, st.get? k = some s → s.retention = 0) (hs : st.get? key = some s)
    (hchange : Series.Change s x s' writes) : ∃ st₂,
      add key x .last ((st.put key s').deliver writes) = .ok x.timestamp st₂ ∧ ∀ k, Option.Rel
        (Unchanged fun q r r' => k = key ∧ Series.CaughtUp (memory r.dest) s q x.timestamp r r')
        (((st.put key s').deliver writes).get? k) (st₂.get? k) := by
  have hself := h.links.not_mem_own hs
  have hkept : s'.destinations = s.destinations :=
    congrArg Prod.snd ((h.stored key s hs).changed hchange).2
  have hsound₁ : ((st.put key s').deliver writes).Sound := (Written.changed hs hchange).sound h
  have hs₁ : ((st.put key s').deliver writes).get? key = some s' := by
    rw [get?_changed_of_not_mem hchange hself, if_pos rfl]
  have hforever₁ : s'.retention = 0 := hchange.alike.retention.trans (hforever key s hs)
  obtain ⟨base, hput, hok⟩ := add_again hsound₁ hs₁ hforever₁ hchange.stored
  obtain ⟨step, hstepped, hagain⟩ := hchange.again (h.valid hs) (hforever key s hs)
    (hnoted key s hs (hforever key s hs)) hput
  have hnext := hput.stepped
  refine ⟨_, hok, fun k => ?_⟩
  by_cases hmem : k ∈ s.destinations
  · -- A destination takes what it has taken, if anything.
    obtain ⟨r, hr, rfl⟩ := List.mem_map.mp hmem
    obtain ⟨d, hd, -, hleaf⟩ := h.links.exists_dest hs hmem
    have hne : r.dest ≠ key := fun heq => hself (heq ▸ hmem)
    have hsingle := h.links.nodup_destinations hs
    have hr₁ : (step r).1 ∈ s'.rules := by
      rw [hstepped.rules]
      exact List.mem_map.mpr ⟨r, hr, rfl⟩
    have hsingle₁ : s'.destinations.Nodup := hkept.symm ▸ hsingle
    have hfirst := Series.filter_writes hstepped.keeps hsingle hr
    have hsecond := Series.filter_writes hnext.keeps hsingle₁ hr₁
    rw [← hstepped.writes] at hfirst
    rw [← hnext.writes, hstepped.keeps.dest] at hsecond
    rw [get?_changed _ key (base.revised x.timestamp).1, if_neg hne, get?_changed, if_neg hne, hd,
      hfirst, hsecond]
    exact .some (unchanged_owed (h.stored r.dest d hd) (hforever r.dest d hd) hleaf
      (hagain r hr).owed)
  have hmem' : k ∉ s'.destinations := hkept ▸ hmem
  rw [get?_changed_of_not_mem (.put hput) hmem']
  split
  · -- The series stores what it stored, and each of its rules has looked again.
    subst k
    rw [hs₁]
    refine .some (unchanged_of_toList hchange.valid (Series.Change.put hput).valid
      (hput.toList_eq hchange.valid hchange.stored) ?_)
    rw [hnext.rules, hstepped.rules, List.forall₂_map_right_iff, List.forall₂_map_left_iff,
      List.forall₂_map_right_iff, List.forall₂_same]
    intro r hr
    obtain ⟨hstart, hcurrent, -⟩ := hagain r hr
    rw [hstepped.keeps.dest]
    exact ⟨(hnext.keeps.dest _).trans (hstepped.keeps.dest r), hstart,
      hcurrent.imp_right fun hcaught => ⟨rfl, hcaught⟩⟩
  · cases ((st.put key s').deliver writes).get? k with
    | none => exact .none
    | some q => exact .some (.refl _ q)

/-- In a store that calls reach, and whose series keep their samples for ever, a sample that
was added under the last policy can be added again. That leaves unchanged what is stored in
every series, and the state of every rule but of those that were made when the bucket of the
sample had begun: where the sample was appended, such a rule comes to hold all that is stored
of the bucket. -/
theorem add_last_again {config : StoreConfig} {calls : List Call} {st₁ : Store} {t : Timestamp}
    (hst : st = runAll Call.perform calls { config })
    (hforever : ∀ k s, st.get? k = some s → s.retention = 0)
    (hadd : add key sample .last st = .ok t st₁) :
    ∃ s st₂, st.get? key = some s ∧ add key sample .last st₁ = .ok t st₂ ∧ ∀ k, Option.Rel
      (Unchanged fun q r r' => k = key ∧ Series.CaughtUp
        (remembered calls { config } (fun _ => none) r.dest) s q sample.timestamp r r')
      (st₁.get? k) (st₂.get? k) := by
  have h : st.Sound := Reachable.sound ⟨config, calls, hst⟩
  have hnoted : st.Noted (remembered calls { config } fun _ => none) := by
    rw [hst]
    exact runAll_noted (.empty config) (.empty config _) calls
  cases hs : st.get? key with
  | none =>
    rw [add_missing hs] at hadd
    cases hadd
  | some s =>
    obtain ⟨s', writes, hchange, hok⟩ := add_last h hs (hforever key s hs) sample
    rw [hadd] at hok
    cases hok
    obtain ⟨st₂, hagain, hunchanged⟩ := h.again hnoted hforever hs hchange
    exact ⟨s, st₂, rfl, hagain, hunchanged⟩

/-- A rule that was made when its bucket had begun, and a sample that is appended twice. -/
theorem add_last_again_behind :
    let options : SeriesOptions := { encoding := .plain }
    let calls : List Call := [.create "s" options, .create "d" options, .add "s" ⟨5, ⟨1⟩⟩ .unset,
      .createRule "s" "d" .first 10]
    let st : Store := runAll Call.perform calls { config := {} }
    let st₁ : Store := stateAfter (add "s" ⟨6, ⟨2⟩⟩ .last) st
    add "s" ⟨6, ⟨2⟩⟩ .last st = .ok 6 st₁ ∧
      ∃ s st₂, st.get? "s" = some s ∧ add "s" ⟨6, ⟨2⟩⟩ .last st₁ = .ok 6 st₂ ∧ ∀ k, Option.Rel
        (Unchanged fun q r r' => k = "s" ∧ Series.CaughtUp
          (remembered calls { config := {} } (fun _ => none) r.dest) s q 6 r r')
        (st₁.get? k) (st₂.get? k) := by
  intro options calls st st₁
  have hentries : ∀ e ∈ st.series.entries, e.2.retention = 0 := by decide +kernel
  have hforever : ∀ k s, st.get? k = some s → s.retention = 0 := fun k s hs =>
    hentries (k, s) (SortedMap.mem_entries_iff.mpr hs)
  have hadd : add "s" ⟨6, ⟨2⟩⟩ .last st = .ok 6 st₁ := of_outcome_ok (by decide +kernel)
  exact ⟨hadd, add_last_again rfl hforever hadd⟩

/-- There the rule holds another value after the second call. -/
theorem add_last_not_idempotent :
    let options : SeriesOptions := { encoding := .plain }
    let st : Store := runAll Call.perform [.create "s" options, .create "d" options,
      .add "s" ⟨5, ⟨1⟩⟩ .unset, .createRule "s" "d" .first 10] { config := {} }
    let st₁ : Store := stateAfter (add "s" ⟨6, ⟨2⟩⟩ .last) st
    let st₂ : Store := stateAfter (add "s" ⟨6, ⟨2⟩⟩ .last) st₁
    (∀ e ∈ st.series.entries, e.2.retention = 0) ∧
      outcome (add "s" ⟨6, ⟨2⟩⟩ .last) st = .ok 6 ∧
      outcome (add "s" ⟨6, ⟨2⟩⟩ .last) st₁ = .ok 6 ∧
      (st₁.get? "s").map (·.rules.map (·.current?)) = some [some ⟨2⟩] ∧
      (st₂.get? "s").map (·.rules.map (·.current?)) = some [some ⟨1⟩] := by
  decide +kernel

end SeriesStore.Store
