import SeriesStore.Proofs.Store.Sound

/-!
# Writes into a sound store

A write changes one series and delivers what the rules of that series owe, or it
fails and nothing changes. Neither links nor the validity of series are lost.

Results:
1. `add_cases`, `upsert_cases`: a write is delivered exactly where the run of its
   series takes it.
2. `add_step`, `upsert_step`: a write fails and changes nothing, or it goes through.
3. `Written.sound`: a store stays sound.
-/

namespace SeriesStore.Store

variable {st st' : Store} {key k : String} {s s' d : Series} {x : Sample}
  {writes : List BucketWrite}

/-- What a write to the series under a key does to a store. -/
inductive Written (st : Store) (key : String) : Store → Prop
  | refused {st' : Store} : (∀ k, st'.get? k = st.get? k) → Written st key st'
  | changed {s s' : Series} {x : Sample} {writes : List BucketWrite} :
      st.get? key = some s → Series.Change s x s' writes →
      Written st key ((st.put key s').deliver writes)

/-! ## The two kinds of writes -/

/-- A series that is put where it was found changes nothing. -/
theorem put_self (h : st.get? key = some s) : st.put key s = st := by
  unfold put
  rw [SortedMap.insert_self h]

theorem upsert_missing (hs : st.get? key = none) (sample : Sample) (override : DuplicatePolicy) :
    upsert key sample override st = .error (.seriesNotFound key) st := by
  unfold upsert
  rw [bind_of_ok (get_apply st), bind_of_error (within_missing hs)]

/-- A write at any time is delivered, or the run of the series rejects it and the store
stays as it is. -/
theorem upsert_cases (h : st.Sound) (hs : st.get? key = some s) (sample : Sample)
    (override : DuplicatePolicy) :
    (∃ e, Run.upsert (.resolve override s.policy st.config.policy) sample s.toList = .error e ∧
        upsert key sample override st = .error e st) ∨
      ∃ run done s' writes,
        Run.upsert (.resolve override s.policy st.config.policy) sample s.toList =
          .ok (run, done) ∧
        Series.upsert sample override st.config.policy s = .ok writes s' ∧
        Series.Change s ⟨sample.timestamp, done.value⟩ s' writes ∧
        upsert key sample override st = .ok () ((st.put key s').deliver writes) := by
  rcases Series.upsert_cases (h.valid hs) sample override st.config.policy with
    ⟨e, hu, hfail⟩ | ⟨run, done, s', writes, hu, hok, hchange⟩
  · refine .inl ⟨e, hu, ?_⟩
    unfold upsert
    rw [bind_of_ok (get_apply st), bind_of_error (within_error hs hfail), put_self hs]
  · refine .inr ⟨run, done, s', writes, hu, hok, hchange, ?_⟩
    unfold upsert
    rw [bind_of_ok (get_apply st), bind_of_ok (within_ok hs hok)]
    rfl

/-- A write fails and changes nothing, or its series takes it and what the rules of that
series owe is delivered. -/
theorem upsert_step (h : st.Sound) (key : String) (sample : Sample) (override : DuplicatePolicy) :
    (∃ e, upsert key sample override st = .error e st) ∨
      ∃ s x s' writes, st.get? key = some s ∧
        Series.upsert sample override st.config.policy s = .ok writes s' ∧
        Series.Change s x s' writes ∧
        upsert key sample override st = .ok () ((st.put key s').deliver writes) := by
  cases hs : st.get? key with
  | none => exact .inl ⟨_, upsert_missing hs sample override⟩
  | some s =>
    rcases upsert_cases h hs sample override with
      ⟨e, -, hfail⟩ | ⟨run, done, s', writes, -, hplaced, hchange, hok⟩
    · exact .inl ⟨e, hfail⟩
    · exact .inr ⟨s, _, s', writes, rfl, hplaced, hchange, hok⟩

theorem upsert_written (h : st.Sound) (key : String) (sample : Sample)
    (override : DuplicatePolicy) : Written st key (stateAfter (upsert key sample override) st) := by
  rcases upsert_step h key sample override with ⟨e, hfail⟩ | ⟨s, x, s', writes, hs, -, hchange, hok⟩
  · rw [stateAfter_of_error hfail]
    exact .refused fun k => rfl
  · rw [stateAfter_of_ok hok]
    exact .changed hs hchange

/-- Where no destination is missing, no rule is dropped. -/
theorem appendPruned_nil (sample : Sample) : appendPruned sample [] = Series.append sample := rfl

/-- What an add does to its series. -/
def placing (st : Store) (s : Series) (sample : Sample) (override : DuplicatePolicy) :
    Series.Update (List BucketWrite) :=
  if !s.isEmpty && sample.timestamp ≤ s.lastTimestamp then
    Series.upsert sample override st.config.policy
  else appendPruned sample (st.missing s)

theorem placing_cases (h : st.Sound) (hs : st.get? key = some s) (sample : Sample)
    (override : DuplicatePolicy) :
    (∃ e, Run.upsert (.resolve override s.policy st.config.policy) sample s.toList = .error e ∧
        placing st s sample override s = .error e s) ∨
      ∃ run done s' writes,
        Run.upsert (.resolve override s.policy st.config.policy) sample s.toList =
          .ok (run, done) ∧
        placing st s sample override s = .ok writes s' ∧
        Series.Change s ⟨sample.timestamp, done.value⟩ s' writes := by
  have hvalid := h.valid hs
  by_cases hpast : s.isEmpty = true ∨ s.lastTimestamp < sample.timestamp
  · obtain ⟨s', writes, hok, hchange⟩ := Series.append_cases hvalid hpast
    rw [placing, if_neg (by simpa [or_iff_not_imp_left] using hpast), h.links.missing_eq hs,
      appendPruned_nil]
    exact .inr ⟨_, _, s', writes, Run.upsert_past _ (hvalid.past hpast), hok, hchange⟩
  · unfold placing
    rw [if_pos (by simpa using hpast)]
    exact Series.upsert_cases hvalid sample override st.config.policy

theorem add_missing (hs : st.get? key = none) (sample : Sample) (override : DuplicatePolicy) :
    add key sample override st = .error (.seriesNotFound key) st := by
  unfold add
  rw [bind_of_ok (get_apply st), bind_of_error (lookUp_error hs)]

theorem add_tooOld (hs : st.get? key = some s) {sample : Sample} (override : DuplicatePolicy)
    (hold : sample.timestamp < s.oldest) :
    add key sample override st = .error (.tooOld sample.timestamp s.oldest) st := by
  unfold add
  rw [bind_of_ok (get_apply st), bind_of_ok (lookUp_ok hs), if_pos (Series.tooOld_iff.mpr hold),
    Series.sub_retention_eq hold]
  rfl

theorem add_placing (hs : st.get? key = some s) {sample : Sample} (override : DuplicatePolicy)
    (hold : ¬ sample.timestamp < s.oldest) :
    add key sample override st = (do
      let writes ← within key (placing st s sample override)
      modify (·.deliver writes)
      return sample.timestamp : Update Timestamp) st := by
  unfold add
  rw [bind_of_ok (get_apply st), bind_of_ok (lookUp_ok hs), if_neg (mt Series.tooOld_iff.mp hold),
    placing]
  split <;> rfl

/-- A sample in the retention window is delivered, or the run of the series rejects it
and the store stays as it is. -/
theorem add_cases (h : st.Sound) (hs : st.get? key = some s) {sample : Sample}
    (override : DuplicatePolicy) (hold : ¬ sample.timestamp < s.oldest) :
    (∃ e, Run.upsert (.resolve override s.policy st.config.policy) sample s.toList = .error e ∧
        add key sample override st = .error e st) ∨
      ∃ run done s' writes,
        Run.upsert (.resolve override s.policy st.config.policy) sample s.toList =
          .ok (run, done) ∧
        placing st s sample override s = .ok writes s' ∧
        Series.Change s ⟨sample.timestamp, done.value⟩ s' writes ∧
        add key sample override st = .ok sample.timestamp ((st.put key s').deliver writes) := by
  rw [add_placing hs override hold]
  rcases placing_cases h hs sample override with
    ⟨e, hu, hfail⟩ | ⟨run, done, s', writes, hu, hok, hchange⟩
  · exact .inl ⟨e, hu, by rw [bind_of_error (within_error hs hfail), put_self hs]⟩
  · refine .inr ⟨run, done, s', writes, hu, hok, hchange, ?_⟩
    rw [bind_of_ok (within_ok hs hok)]
    rfl

/-- The same of an add. -/
theorem add_step (h : st.Sound) (key : String) (sample : Sample) (override : DuplicatePolicy) :
    (∃ e, add key sample override st = .error e st) ∨
      ∃ s x s' writes, st.get? key = some s ∧ placing st s sample override s = .ok writes s' ∧
        Series.Change s x s' writes ∧
        add key sample override st = .ok sample.timestamp ((st.put key s').deliver writes) := by
  cases hs : st.get? key with
  | none => exact .inl ⟨_, add_missing hs sample override⟩
  | some s =>
    by_cases hold : sample.timestamp < s.oldest
    · exact .inl ⟨_, add_tooOld hs override hold⟩
    rcases add_cases h hs override hold with
      ⟨e, -, hfail⟩ | ⟨run, done, s', writes, -, hplaced, hchange, hok⟩
    · exact .inl ⟨e, hfail⟩
    · exact .inr ⟨s, _, s', writes, rfl, hplaced, hchange, hok⟩

theorem add_written (h : st.Sound) (key : String) (sample : Sample)
    (override : DuplicatePolicy) : Written st key (stateAfter (add key sample override) st) := by
  rcases add_step h key sample override with ⟨e, hfail⟩ | ⟨s, x, s', writes, hs, -, hchange, hok⟩
  · rw [stateAfter_of_error hfail]
    exact .refused fun k => rfl
  · rw [stateAfter_of_ok hok]
    exact .changed hs hchange

/-! ## What is kept -/

/-- Whatever is delivered to a series, it may be stored as before and keeps its
links. -/
theorem receivedAll_kept (h : d.StoredAs key) (writes : List BucketWrite) :
    (receivedAll writes d).StoredAs key ∧ linksOf (receivedAll writes d) = linksOf d := by
  induction writes generalizing d with
  | nil => exact ⟨h, rfl⟩
  | cons w writes ih =>
    obtain ⟨owed, hchange⟩ := Series.received_change h.valid w.sample
    obtain ⟨hnext, hlinks⟩ := h.changed hchange
    obtain ⟨hrest, hall⟩ := ih hnext
    exact ⟨hrest, hall.trans hlinks⟩

/-- Whatever is delivered to a series, its settings stay as they are. -/
theorem receivedAll_alike (h : d.Valid) (writes : List BucketWrite) :
    d.Alike (receivedAll writes d) := by
  induction writes generalizing d with
  | nil => exact .refl d
  | cons w writes ih =>
    obtain ⟨owed, hchange⟩ := Series.received_change h w.sample
    exact hchange.alike.trans (ih hchange.valid)

/-- What is written to one series and owed by it is all that a write changes. -/
theorem get?_changed (st : Store) (key : String) (s' : Series) (writes : List BucketWrite)
    (k : String) : ((st.put key s').deliver writes).get? k =
      (if k = key then some s' else st.get? k).map
        (receivedAll (writes.filter (·.dest == k))) := by
  rw [get?_deliver, get?_put]

/-- A series that no rule of the written one writes into takes no delivery. -/
theorem get?_changed_of_not_mem (h : Series.Change s x s' writes) (hk : k ∉ s.destinations) :
    ((st.put key s').deliver writes).get? k =
      if k = key then some s' else st.get? k := by
  obtain ⟨step, hstepped⟩ := h.stepped
  have hnone : writes.filter (·.dest == k) = [] := by
    rw [hstepped.writes]
    exact Series.filter_writes_of_ne hstepped.keeps fun r hr heq =>
      hk (List.mem_map.mpr ⟨r, hr, heq⟩)
  rw [get?_changed, hnone]
  exact Option.map_id'

theorem Sound.put (h : st.Sound) (hs : st.get? key = some s) (hstored : s'.StoredAs key)
    (hlinks : linksOf s' = linksOf s) : (st.put key s').Sound := by
  refine ⟨h.links.congr fun k => ?_, fun k q hq => ?_⟩
  · rw [get?_put]
    split
    · rw [‹k = key›, hs, Option.map_some, Option.map_some, hlinks]
    · rfl
  · rw [get?_put] at hq
    split at hq
    · cases hq
      exact ‹k = key› ▸ hstored
    · exact h.stored k q hq

theorem Sound.deliver (h : st.Sound) (writes : List BucketWrite) : (st.deliver writes).Sound := by
  refine ⟨h.links.congr fun k => ?_, fun k q hq => ?_⟩
  · rw [get?_deliver]
    cases hq : st.get? k with
    | none => rfl
    | some q =>
      rw [Option.map_some, Option.map_some, Option.map_some,
        (receivedAll_kept (h.stored k q hq) _).2]
  · rw [get?_deliver] at hq
    obtain ⟨p, hp, rfl⟩ := Option.map_eq_some_iff.mp hq
    exact (receivedAll_kept (h.stored k p hp) _).1

theorem Written.sound (h : st.Sound) (hw : Written st key st') : st'.Sound := by
  cases hw with
  | refused hsame =>
    refine ⟨h.links.congr fun k => by rw [hsame], fun k s hs => ?_⟩
    rw [hsame] at hs
    exact h.stored k s hs
  | @changed s s' x writes hs hchange =>
    obtain ⟨hstored, hlinks⟩ := (h.stored key s hs).changed hchange
    exact (h.put hs hstored hlinks).deliver writes

end SeriesStore.Store
