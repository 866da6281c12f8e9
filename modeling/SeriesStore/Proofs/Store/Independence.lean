import SeriesStore.Proofs.Store.Reachable

/-!
# Writes to unrelated series

A write reads the configuration and the series that it is made to. It changes that series and
the destinations of its rules, and it changes each of them by itself. Two writes can only
meet in a series that both of them change or that one changes and the other reads. Links being
two-sided, two sources have no destination in common, so writes to different series meet only
where one of the two owns a rule into the other.

Results:
1. `Write.exists_acts`: a write acts on each key apart, and in the same way in all stores
   that look alike to it.
2. `Sound.footprints_apart`: unrelated writes have no key in common.
3. `writes_commute_run`: after any calls, unrelated writes may be made in either order.
-/

namespace SeriesStore.Store

/-! ## Writes -/

/-- A write to the series under a key. -/
inductive Write
  | add (key : String) (sample : Sample) (override : DuplicatePolicy)
  | upsert (key : String) (sample : Sample) (override : DuplicatePolicy)

namespace Write

/-- The key of the series that is written to. -/
def key : Write → String
  | add key _ _ | upsert key _ _ => key

/-- What a write that succeeds answers: an add tells the timestamp. -/
def answer : Write → Option Timestamp
  | add _ sample _ => some sample.timestamp
  | upsert .. => none

/-- Makes a write. -/
def perform : Write → Update (Option Timestamp)
  | add key sample override => some <$> Store.add key sample override
  | upsert key sample override => (fun _ => none) <$> Store.upsert key sample override

/-- What an add does to its series, where no destination is missing. -/
def adding (sample : Sample) (override fallback : DuplicatePolicy) :
    Series.Update (List BucketWrite) := do
  let s ← get
  if sample.timestamp < s.oldest then throw (.tooOld sample.timestamp s.oldest)
  if !s.isEmpty && sample.timestamp ≤ s.lastTimestamp then
    Series.upsert sample override fallback
  else Series.append sample

/-- What a write does to its series, where no destination is missing. -/
def change (fallback : DuplicatePolicy) : Write → Series.Update (List BucketWrite)
  | add _ sample override => adding sample override fallback
  | upsert _ sample override => Series.upsert sample override fallback

end Write

variable {st st' : Store} {key k : String} {s s' : Series} {writes : List BucketWrite}
  {w w₁ w₂ : Write}

/-! ## One write, seen from its series -/

theorem Write.adding_tooOld {sample : Sample} (override fallback : DuplicatePolicy)
    (hold : sample.timestamp < s.oldest) :
    adding sample override fallback s = .error (.tooOld sample.timestamp s.oldest) s := by
  unfold adding
  rw [bind_of_ok (get_apply s), if_pos hold]
  rfl

theorem Write.adding_placing (h : st.Sound) (hs : st.get? key = some s) {sample : Sample}
    (override : DuplicatePolicy) (hold : ¬ sample.timestamp < s.oldest) :
    adding sample override st.config.policy s = placing st s sample override s := by
  unfold adding placing
  rw [bind_of_ok (get_apply s), if_neg hold, h.links.missing_eq hs, appendPruned_nil]

/-- A write fails where its series does not take it, and then changes nothing. -/
theorem Write.perform_cases (h : st.Sound) (hs : st.get? w.key = some s) :
    (∃ e, w.change st.config.policy s = .error e s ∧ w.perform st = .error e st) ∨
      ∃ s' x writes, w.change st.config.policy s = .ok writes s' ∧ Series.Change s x s' writes ∧
        w.perform st = .ok w.answer ((st.put w.key s').deliver writes) := by
  cases w with
  | add key sample override =>
    have hs : st.get? key = some s := hs
    show (∃ e, adding sample override st.config.policy s = .error e s ∧ _) ∨ ∃ s' x writes,
      adding sample override st.config.policy s = .ok writes s' ∧ _
    by_cases hold : sample.timestamp < s.oldest
    · exact .inl ⟨_, adding_tooOld override _ hold,
        map_of_error some (add_tooOld hs override hold)⟩
    rw [adding_placing h hs override hold]
    have hadd := add_placing hs override hold
    rcases placing_cases h hs sample override with
      ⟨e, -, hrefused⟩ | ⟨run, done, s', writes, -, hplaced, hchange⟩
    · rw [bind_of_error (within_error hs hrefused), put_self hs] at hadd
      exact .inl ⟨e, hrefused, map_of_error some hadd⟩
    · rw [bind_of_ok (within_ok hs hplaced)] at hadd
      exact .inr ⟨s', _, writes, hplaced, hchange, map_of_ok some hadd⟩
  | upsert key sample override =>
    rcases upsert_cases h hs sample override with
      ⟨e, hu, hfail⟩ | ⟨run, done, s', writes, -, hplaced, hchange, hok⟩
    · exact .inl ⟨e, Series.upsert_error (h.valid hs).laid hu, map_of_error _ hfail⟩
    · exact .inr ⟨s', _, writes, hplaced, hchange, map_of_ok _ hok⟩

theorem Write.perform_missing (hs : st.get? w.key = none) :
    w.perform st = .error (.seriesNotFound w.key) st := by
  cases w with
  | add key sample override => exact map_of_error some (add_missing hs sample override)
  | upsert key sample override => exact map_of_error _ (upsert_missing hs sample override)

/-! ## One write, key by key -/

/-- To a write under a key the second store looks like the first. -/
structure LooksAlike (key : String) (st st' : Store) : Prop where
  sound : st'.Sound
  config : st'.config = st.config
  found : st'.get? key = st.get? key

/-- In every store that looks like this one, a write gives the same answer and acts in the
same way on what is found under each key. It acts on its series and on the destinations only. -/
structure Write.Acts (w : Write) (st : Store) (answer : Except StoreError (Option Timestamp))
    (act : String → Option Series → Option Series) : Prop where
  outcome_eq : ∀ st', LooksAlike w.key st st' → outcome w.perform st' = answer
  found : ∀ st', LooksAlike w.key st st' → ∀ k,
    (stateAfter w.perform st').get? k = act k (st'.get? k)
  rest : ∀ st', LooksAlike w.key st st' →
    (stateAfter w.perform st').config = st'.config ∧ (stateAfter w.perform st').index = st'.index
  elsewhere : ∀ k, k ≠ w.key → k ∉ st.dests w.key → act k = id

/-- A write that fails acts on nothing. -/
theorem Write.acts_of_error {e : StoreError}
    (hfail : ∀ st', LooksAlike w.key st st' → w.perform st' = .error e st') :
    w.Acts st (.error e) fun _ => id where
  outcome_eq st' halike := outcome_of_error (hfail st' halike)
  found st' halike k := by rw [stateAfter_of_error (hfail st' halike), id]
  rest st' halike := by
    rw [stateAfter_of_error (hfail st' halike)]
    exact ⟨rfl, rfl⟩
  elsewhere _ _ _ := rfl

/-- A write that succeeds puts its series and delivers to the destinations. -/
theorem Write.acts_of_ok {x : Sample} (hs : st.get? w.key = some s)
    (hchange : Series.Change s x s' writes)
    (hok : ∀ st', LooksAlike w.key st st' →
      w.perform st' = .ok w.answer ((st'.put w.key s').deliver writes)) :
    w.Acts st (.ok w.answer) fun k found =>
      (if k = w.key then some s' else found).map (receivedAll (writes.filter (·.dest == k))) where
  outcome_eq st' halike := outcome_of_ok (hok st' halike)
  found st' halike k := by rw [stateAfter_of_ok (hok st' halike), get?_changed]
  rest st' halike := by
    rw [stateAfter_of_ok (hok st' halike)]
    exact rest_deliver (st'.put w.key s') writes
  elsewhere k hkey hdest := by
    obtain ⟨step, hstepped⟩ := hchange.stepped
    have hnone : writes.filter (·.dest == k) = [] := by
      rw [hstepped.writes]
      refine Series.filter_writes_of_ne hstepped.keeps fun r hr heq => hdest ?_
      rw [dests_of_get? hs]
      exact List.mem_map.mpr ⟨r, hr, heq⟩
    funext found
    rw [if_neg hkey, hnone]
    exact Option.map_id'

/-- A write acts on each key apart. -/
theorem Write.exists_acts (h : st.Sound) (w : Write) : ∃ answer act, w.Acts st answer act := by
  cases hs : st.get? w.key with
  | none =>
    exact ⟨_, _, acts_of_error fun st' halike => perform_missing (halike.found.trans hs)⟩
  | some s =>
    rcases perform_cases h hs with ⟨e, hrefused, -⟩ | ⟨s', x, writes, hplaced, hchange, -⟩
    · refine ⟨_, _, acts_of_error (e := e) fun st' halike => ?_⟩
      rcases perform_cases halike.sound (halike.found.trans hs) with
        ⟨e', hrefused', hfail⟩ | ⟨s', x, writes, hplaced', -⟩
      · rw [halike.config, hrefused] at hrefused'
        cases hrefused'
        exact hfail
      · rw [halike.config, hrefused] at hplaced'
        cases hplaced'
    · refine ⟨_, _, acts_of_ok hs hchange fun st' halike => ?_⟩
      rcases perform_cases halike.sound (halike.found.trans hs) with
        ⟨e', hrefused', -⟩ | ⟨s'', x', writes', hplaced', -, hok⟩
      · rw [halike.config, hplaced] at hrefused'
        cases hrefused'
      · rw [halike.config, hplaced] at hplaced'
        cases hplaced'
        exact hok

theorem Write.perform_sound (h : st.Sound) (w : Write) : (stateAfter w.perform st).Sound := by
  cases hs : st.get? w.key with
  | none =>
    rw [stateAfter_of_error (perform_missing hs)]
    exact h
  | some s =>
    rcases perform_cases h hs with ⟨e, -, hfail⟩ | ⟨s', x, writes, -, hchange, hok⟩
    · rw [stateAfter_of_error hfail]
      exact h
    · rw [stateAfter_of_ok hok]
      exact (Written.changed hs hchange).sound h

/-! ## Two writes -/

/-- The writes go to different series, and neither series owns a rule into the other. -/
structure Unrelated (st : Store) (w₁ w₂ : Write) : Prop where
  ne : w₁.key ≠ w₂.key
  left : w₂.key ∉ st.dests w₁.key
  right : w₁.key ∉ st.dests w₂.key

theorem Unrelated.symm (h : st.Unrelated w₁ w₂) : st.Unrelated w₂ w₁ := ⟨h.ne.symm, h.right, h.left⟩

/-- No key is changed by both of two unrelated writes. -/
theorem Sound.footprints_apart (h : st.Sound) (hun : st.Unrelated w₁ w₂) (k : String) :
    (k ≠ w₁.key ∧ k ∉ st.dests w₁.key) ∨ (k ≠ w₂.key ∧ k ∉ st.dests w₂.key) := by
  by_cases hmem : k = w₁.key ∨ k ∈ st.dests w₁.key
  · right
    rcases hmem with rfl | hmem
    · exact ⟨hun.ne, hun.right⟩
    · refine ⟨fun heq => hun.left (heq ▸ hmem), fun hmem' => hun.ne ?_⟩
      -- Both series would be the source of the one under `k`.
      rw [h.links.linked] at hmem hmem'
      exact Option.some.inj (hmem.symm.trans hmem')
  · exact .inl (not_or.mp hmem)

/-- An unrelated write does not show to the other one. -/
theorem Unrelated.looksAlike (h : st.Sound) (hun : st.Unrelated w₁ w₂)
    {answer : Except StoreError (Option Timestamp)} {act : String → Option Series → Option Series}
    (hacts : w₁.Acts st answer act) : LooksAlike w₂.key st (stateAfter w₁.perform st) where
  sound := w₁.perform_sound h
  config := (hacts.rest st ⟨h, rfl, rfl⟩).1
  found := by rw [hacts.found st ⟨h, rfl, rfl⟩, hacts.elsewhere _ hun.ne.symm hun.left, id]

/-- After any calls, two unrelated writes may be made in either order: they give the same
answers and lead to the same store, and both leave alone every series that is not written
to and no destination. -/
theorem writes_commute_run (config : StoreConfig) (calls : List Call) (w₁ w₂ : Write) :
    let st := runAll Call.perform calls { config }
    st.Unrelated w₁ w₂ →
      (∃ a₁ a₂, outcomes Write.perform [w₁, w₂] st = [a₁, a₂] ∧
        outcomes Write.perform [w₂, w₁] st = [a₂, a₁]) ∧
      runAll Write.perform [w₁, w₂] st = runAll Write.perform [w₂, w₁] st ∧
      ∀ k, k ≠ w₁.key → k ≠ w₂.key → k ∉ st.dests w₁.key → k ∉ st.dests w₂.key →
        (runAll Write.perform [w₁, w₂] st).get? k = st.get? k := by
  intro st hun
  have h : st.Sound := Reachable.sound ⟨config, calls, rfl⟩
  have hself : ∀ key, LooksAlike key st st := fun key => ⟨h, rfl, rfl⟩
  obtain ⟨a₁, act₁, h₁⟩ := w₁.exists_acts h
  obtain ⟨a₂, act₂, h₂⟩ := w₂.exists_acts h
  have halike₂ := hun.looksAlike h h₁
  have halike₁ := hun.symm.looksAlike h h₂
  have hget₁₂ : ∀ k, (runAll Write.perform [w₁, w₂] st).get? k = act₂ k (act₁ k (st.get? k)) :=
    fun k => by rw [← h₁.found st (hself _)]; exact h₂.found _ halike₂ k
  have hget₂₁ : ∀ k, (runAll Write.perform [w₂, w₁] st).get? k = act₁ k (act₂ k (st.get? k)) :=
    fun k => by rw [← h₂.found st (hself _)]; exact h₁.found _ halike₁ k
  refine ⟨⟨a₁, a₂, ?_, ?_⟩, ?_, fun k hk₁ hk₂ hd₁ hd₂ => ?_⟩
  · simp only [outcomes, h₁.outcome_eq st (hself _), h₂.outcome_eq _ halike₂]
  · simp only [outcomes, h₂.outcome_eq st (hself _), h₁.outcome_eq _ halike₁]
  · have hrest₁ := h₁.rest st (hself _)
    have hrest₂ := h₂.rest st (hself _)
    have hrest₁₂ := h₂.rest _ halike₂
    have hrest₂₁ := h₁.rest _ halike₁
    refine ext_get? ?_ ?_ fun k => ?_
    · exact (hrest₁₂.1.trans hrest₁.1).trans (hrest₂₁.1.trans hrest₂.1).symm
    · exact (hrest₁₂.2.trans hrest₁.2).trans (hrest₂₁.2.trans hrest₂.2).symm
    · rw [hget₁₂, hget₂₁]
      rcases h.footprints_apart hun k with ⟨hkey, hdest⟩ | ⟨hkey, hdest⟩
      · rw [h₁.elsewhere k hkey hdest, id, id]
      · rw [h₂.elsewhere k hkey hdest, id, id]
  · rw [hget₁₂, h₁.elsewhere k hk₁ hd₁, h₂.elsewhere k hk₂ hd₂, id, id]

/-- Two sources whose writes both close a bucket. -/
theorem writes_commute_closing :
    let options : SeriesOptions := { encoding := .plain }
    let st : Store := runAll Call.perform [.create "s" options, .create "d" options,
      .create "q" options, .create "e" options, .createRule "s" "d" .sum 10,
      .createRule "q" "e" .max 5, .add "s" ⟨5, ⟨1⟩⟩ .unset, .add "q" ⟨7, ⟨2⟩⟩ .unset]
      { config := {} }
    let w₁ : Write := .add "s" ⟨25, ⟨3⟩⟩ .unset
    let w₂ : Write := .upsert "q" ⟨11, ⟨4⟩⟩ .last
    st.Unrelated w₁ w₂ ∧
      runAll Write.perform [w₁, w₂] st = runAll Write.perform [w₂, w₁] st := by
  intro options st w₁ w₂
  have hun : st.Unrelated w₁ w₂ := ⟨by decide, by decide +kernel, by decide +kernel⟩
  exact ⟨hun, (writes_commute_run _ _ w₁ w₂ hun).2.1⟩

end SeriesStore.Store
