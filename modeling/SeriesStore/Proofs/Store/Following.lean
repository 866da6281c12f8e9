import SeriesStore.Proofs.Series.Rereading
import SeriesStore.Proofs.Store.Renaming

/-!
# What rules have seen

A rule that is made between series without samples follows its source. A rule that is made
later is behind the samples of the bucket that is open then. Whether it is can be told from
what is remembered of the calls: where the last sample of the source was when the rule was
made. No call but a write changes what a rule has seen, and what is remembered goes with the
destination of the rule when series are renamed.

Results:
1. `perform_noted`: every rule follows its source or is behind it as remembered.
2. `runAll_noted`: so it is after any calls.
-/

namespace SeriesStore.Store

/-- For destinations, where the last sample of the source was when the rule was made, if the
source held a sample. -/
abbrev Memory := String → Option Timestamp

/-- Where the last sample of a series is. -/
def lastAt? (st : Store) (key : String) : Option Timestamp :=
  ((st.get? key).bind Series.lastSample?).map (·.timestamp)

/-- What is remembered after a call. The destinations that come with a new series have nothing
to remember. -/
def Call.remember (call : Call) (st : Store) (memory : Memory) : Memory :=
  match call with
  | .create _ _ => fun dest => if st.contains dest then memory dest else none
  | .rename old new => if st.contains old then fun dest => memory (renamed new old dest) else memory
  | .createRule source dest aggregation bucket =>
    match Store.createRule source dest aggregation bucket st with
    | .ok _ _ => fun k => if k = dest then st.lastAt? source else memory k
    | .error _ _ => memory
  | .delete _ | .deleteRule _ _ | .add _ _ _ | .upsert _ _ _ => memory

/-- What is remembered after some calls. -/
def remembered : List Call → Store → Memory → Memory
  | [], _, memory => memory
  | call :: calls, st, memory =>
    remembered calls (stateAfter call.perform st) (call.remember st memory)

/-- The rules of all series that keep their samples for ever follow what is stored, or are
behind it as remembered. -/
def Noted (st : Store) (memory : Memory) : Prop :=
  ∀ key s, st.get? key = some s → s.retention = 0 →
    ∀ r ∈ s.rules, r.Known (memory r.dest) s.toList

variable {st st' : Store} {memory : Memory} {key old new source dest : String} {s d : Series}
  {r : Rule}

theorem Noted.empty (config : StoreConfig) (memory : Memory) : Noted { config } memory := by
  intro key s hs
  cases hs

/-! ## Series that come -/

/-- What is remembered of destinations that do not exist can be forgotten. -/
theorem Noted.forget (hnoted : st.Noted memory) (h : st.Sound) :
    st.Noted fun dest => if st.contains dest then memory dest else none := by
  intro key s hs hforever r hr
  obtain ⟨d, hd, -⟩ := h.links.exists_dest hs (List.mem_map_of_mem hr)
  have hcontains : st.contains r.dest = true := by
    rw [contains_eq, hd]
    rfl
  simp only [hcontains, if_true]
  exact hnoted key s hs hforever r hr

theorem create_noted (h : st.Sound) (hnoted : st.Noted memory) (key : String)
    (options : SeriesOptions) : (stateAfter (create key options) st).Noted
      fun dest => if st.contains dest then memory dest else none := by
  have hforget := hnoted.forget h
  generalize (fun dest => if st.contains dest then memory dest else none) = memory' at hforget ⊢
  by_cases hused : st.contains key = true
  · rw [stateAfter_of_error (create_used hused options)]
    exact hforget
  -- The new series goes on holding no samples, so that its rules have none to be behind.
  refine (create_keeps (p := fun st => st.Noted memory' ∧ ∀ s, st.get? key = some s → s.toList = [])
    h key options (fun hcontains => absurd hcontains hused) (fun st₁ hfree hinserted => ?_)
    fun st₁ st₂ s template options hroot hp hs hfree hbucket hatt => ?_).1
  · refine ⟨fun k q hq hforever r hr => ?_, fun q hq => ?_⟩
    · rw [hinserted.found] at hq
      split at hq
      · cases hq
        cases hr
      · exact hforget k q hq hforever r hr
    · rw [hinserted.found, if_pos rfl] at hq
      cases hq
      exact (Series.new_valid key options).isEmpty_iff.mp rfl
  · obtain ⟨hnoted, hempty⟩ := hp
    have hwaiting : (templateRule key template).Follows [] := newRule_waiting _ _ _
    rw [← dest_templateRule] at hfree
    generalize templateRule key template = rule at hfree hwaiting hatt
    refine ⟨fun k q hq hforever r hr => ?_, fun q hq => ?_⟩
    · rw [hatt.found] at hq
      split at hq
      · cases hq
        cases hr
      split at hq
      · cases hq
        rcases List.mem_append.mp hr with hr | hr
        · exact hnoted key s hs hforever r hr
        · obtain rfl := List.mem_singleton.mp hr
          left
          change r.Follows s.toList
          rw [hempty s hs]
          exact hwaiting
      · exact hnoted k q hq hforever r hr
    · have hne : key ≠ rule.dest := by
        intro heq
        rw [← heq, hs] at hfree
        cases hfree
      rw [hatt.found, if_neg hne, if_pos rfl] at hq
      cases hq
      exact hempty s hs

/-! ## Series and rules that go -/

theorem Noted.dropRule (hnoted : st.Noted memory) (hs : st.get? key = some s) (dest : String)
    (hforever : s.retention = 0) :
    ∀ r ∈ (s.dropRule dest).rules, r.Known (memory r.dest) (s.dropRule dest).toList := fun r hr =>
  hnoted key s hs hforever r (List.mem_of_mem_eraseP hr)

theorem Noted.unlinkSource (hnoted : st.Noted memory) (hs : st.get? key = some s)
    (source : String) (hforever : (s.unlinkSource source).retention = 0) :
    ∀ r ∈ (s.unlinkSource source).rules,
      r.Known (memory r.dest) (s.unlinkSource source).toList := by
  unfold Series.unlinkSource at hforever ⊢
  split at hforever <;> split <;> exact hnoted key s hs hforever

theorem delete_noted (h : st.Sound) (hnoted : st.Noted memory) (key : String) :
    (stateAfter (delete key) st).Noted memory := by
  cases hs : st.get? key with
  | none =>
    rw [stateAfter_of_error (delete_missing hs)]
    exact hnoted
  | some s =>
    obtain ⟨st', hok, -, -, hget⟩ := delete_ok h hs
    rw [stateAfter_of_ok hok]
    intro k q hq hforever
    rw [hget] at hq
    split at hq
    · cases hq
    split at hq
    · obtain ⟨p, hp, rfl⟩ := Option.map_eq_some_iff.mp hq
      exact hnoted.dropRule hp key hforever
    split at hq
    · obtain ⟨p, hp, rfl⟩ := Option.map_eq_some_iff.mp hq
      exact hnoted.unlinkSource hp key hforever
    · exact hnoted k q hq hforever

theorem deleteRule_noted (h : st.Sound) (hnoted : st.Noted memory) (source dest : String) :
    (stateAfter (deleteRule source dest) st).Noted memory := by
  rcases deleteRule_cases h source dest with ⟨e, hfail⟩ | ⟨s, st', hs, -, hok, -, hget⟩
  · rw [stateAfter_of_error hfail]
    exact hnoted
  rw [stateAfter_of_ok hok]
  intro k q hq hforever
  rw [hget] at hq
  split at hq
  · obtain ⟨p, hp, rfl⟩ := Option.map_eq_some_iff.mp hq
    exact hnoted.unlinkSource hp source hforever
  split at hq
  · cases hq
    exact hnoted.dropRule hs dest hforever
  · exact hnoted k q hq hforever

/-! ## Series that are renamed -/

/-- What is remembered goes with the destination. -/
theorem moved_noted (h : st.Sound) (hnoted : st.Noted memory) (hs : st.get? old = some s)
    (hnew : st.get? new = none) :
    (st.moved s old new).Noted fun dest => memory (renamed new old dest) := by
  intro k q hq hforever r hr
  obtain ⟨k₀, p, hp, rfl⟩ := exists_of_get?_moved h hs hnew hq
  rw [get?_moved_renamed h hs hnew hp] at hq
  cases hq
  obtain ⟨r₀, hr₀, rfl⟩ := List.mem_map.mp hr
  have hne : r₀.dest ≠ new := fun heq =>
    h.links.not_mem_destinations hnew hp (List.mem_map.mpr ⟨r₀, hr₀, heq⟩)
  change Rule.Known _ (memory (renamed new old (renamed old new r₀.dest))) p.toList
  rw [renamed_back old hne]
  exact (hnoted k₀ p hp hforever r₀ hr₀).into (renamed old new r₀.dest)

theorem rename_noted (h : st.Sound) (hnoted : st.Noted memory) (old new : String) :
    (stateAfter (rename old new) st).Noted (Call.remember (.rename old new) st memory) := by
  unfold Call.remember
  cases hs : st.get? old with
  | none =>
    rw [stateAfter_of_error (rename_missing hs new)]
    simp only [contains_eq, hs, Option.isSome_none, Bool.false_eq_true, if_false]
    exact hnoted
  | some s =>
    simp only [contains_eq, hs, Option.isSome_some, if_true]
    by_cases heq : old = new
    · subst heq
      rw [stateAfter_of_ok (rename_self hs)]
      have hself : (fun dest => memory (renamed old old dest)) = memory := by
        funext dest
        unfold renamed
        split
        · rw [‹dest = old›]
        · rfl
      rw [hself]
      exact hnoted
    obtain ⟨st₁, s₁, hfree, hsound, hold, hnew, hok⟩ := rename_ok h hs heq
    have hnoted₁ : st₁.Noted memory := by
      cases hused : st.get? new with
      | none =>
        rw [makeFree_free hused] at hfree
        cases hfree
        exact hnoted
      | some d =>
        rw [makeFree_used hused] at hfree
        rw [← stateAfter_of_ok hfree]
        exact delete_noted h hnoted new
    rw [stateAfter_of_ok hok]
    exact moved_noted hsound hnoted₁ hold hnew

/-! ## Rules that come -/

/-- A new rule follows a series without samples, and is behind any other. -/
theorem newRule_known (h : st.Sound) (hs : st.get? source = some s) (dest : String)
    (aggregation : Aggregation) (bucket : UInt64) :
    (newRule dest aggregation bucket).Known (st.lastAt? source) s.toList := by
  have hvalid := h.valid hs
  by_cases hnil : s.toList = []
  · rw [hnil]
    exact .inl (newRule_waiting dest aggregation bucket)
  · refine .inr ⟨hnil, ⟨s.lastTimestamp, ?_, ?_⟩, [], rfl, .inl ⟨rfl, rfl⟩⟩
    · unfold lastAt?
      rw [hs, Option.bind_some, Series.lastSample?, if_neg (mt hvalid.isEmpty_iff.mp hnil)]
      rfl
    · rw [hvalid.lastTimestamp_eq]

theorem createRule_noted (h : st.Sound) (hnoted : st.Noted memory) (source dest : String)
    (aggregation : Aggregation) (bucket : UInt64) :
    (stateAfter (createRule source dest aggregation bucket) st).Noted
      (Call.remember (.createRule source dest aggregation bucket) st memory) := by
  unfold Call.remember
  rcases createRule_cases st source dest aggregation bucket with ⟨e, hfail⟩ | ⟨s, d, hlinkable⟩
  · rw [stateAfter_of_error hfail]
    simp only [hfail]
    exact hnoted
  obtain ⟨st', hok, -, hget⟩ := hlinkable.createRule_ok aggregation
  rw [stateAfter_of_ok hok]
  simp only [hok]
  -- The destination was not linked, so that no other rule leads into it.
  have hother : ∀ {k q r}, st.get? k = some q → r ∈ q.rules → r.dest ≠ dest := by
    intro k q r hq hr heq
    obtain ⟨d', hd', hsource, -⟩ := h.links.exists_dest hq (List.mem_map_of_mem hr)
    rw [heq, hlinkable.to_dest] at hd'
    cases hd'
    rw [hlinkable.free] at hsource
    cases hsource
  have hkept : ∀ {k q r}, st.get? k = some q → q.retention = 0 → r ∈ q.rules →
      r.Known (if r.dest = dest then st.lastAt? source else memory r.dest) q.toList := by
    intro k q r hq hforever hr
    rw [if_neg (hother hq hr)]
    exact hnoted k q hq hforever r hr
  intro k q hq hforever r hr
  rw [hget] at hq
  split at hq
  · cases hq
    change r ∈ d.rules at hr
    rw [hlinkable.leaf] at hr
    cases hr
  split at hq
  · cases hq
    change s.retention = 0 at hforever
    change r.Known _ s.toList
    rcases List.mem_append.mp hr with hr | hr
    · exact hkept hlinkable.from_source hforever hr
    obtain rfl := List.mem_singleton.mp hr
    have hinto : (newRule dest aggregation bucket).dest = dest := rfl
    simp only [hinto, if_true]
    exact newRule_known h hlinkable.from_source dest aggregation bucket
  · exact hkept hq hforever hr

/-! ## Writes -/

/-- Whatever is delivered to a series without rules, it owns none. -/
theorem rules_receivedAll (h : d.StoredAs key) (hleaf : d.rules = []) (writes : List BucketWrite) :
    (receivedAll writes d).rules = [] := by
  have hlinks := (receivedAll_kept h writes).2
  have hdests : (receivedAll writes d).destinations = d.destinations :=
    congrArg Prod.snd hlinks
  unfold Series.destinations at hdests
  rw [hleaf] at hdests
  exact List.map_eq_nil_iff.mp hdests

theorem changed_noted (h : st.Sound) (hnoted : st.Noted memory) {s' : Series} {x : Sample}
    {writes : List BucketWrite} (hs : st.get? key = some s)
    (hchange : Series.Change s x s' writes) :
    ((st.put key s').deliver writes).Noted memory := by
  intro k q hq hforever
  by_cases hmem : k ∈ s.destinations
  · have hne : k ≠ key := by
      rintro rfl
      exact h.links.not_mem_own hs hmem
    obtain ⟨p, hp, -, hleaf⟩ := h.links.exists_dest hs hmem
    rw [get?_changed, if_neg hne, hp] at hq
    cases hq
    rw [rules_receivedAll (h.stored k p hp) hleaf]
    exact fun r hr => absurd hr List.not_mem_nil
  rw [get?_changed_of_not_mem hchange hmem] at hq
  split at hq
  · cases hq
    have hforever' : s.retention = 0 := hchange.alike.retention ▸ hforever
    exact hchange.known (h.valid hs) hforever' (h.stored key s hs).positive
      (hnoted key s hs hforever')
  · exact hnoted k q hq hforever

/-! ## Calls -/

theorem perform_noted (h : st.Sound) (hnoted : st.Noted memory) (call : Call) :
    (stateAfter call.perform st).Noted (call.remember st memory) := by
  cases call with
  | create key options => exact create_noted h hnoted key options
  | delete key => exact delete_noted h hnoted key
  | rename old new => exact rename_noted h hnoted old new
  | createRule source dest aggregation bucket =>
    exact createRule_noted h hnoted source dest aggregation bucket
  | deleteRule source dest => exact deleteRule_noted h hnoted source dest
  | add key sample override =>
    unfold Call.perform Call.remember
    rw [stateAfter_discard]
    rcases add_step h key sample override with
      ⟨e, hfail⟩ | ⟨s, x, s', writes, hs, -, hchange, hok⟩
    · rwa [stateAfter_of_error hfail]
    · rw [stateAfter_of_ok hok]
      exact changed_noted h hnoted hs hchange
  | upsert key sample override =>
    unfold Call.perform Call.remember
    rcases upsert_step h key sample override with
      ⟨e, hfail⟩ | ⟨s, x, s', writes, hs, -, hchange, hok⟩
    · rwa [stateAfter_of_error hfail]
    · rw [stateAfter_of_ok hok]
      exact changed_noted h hnoted hs hchange

theorem runAll_noted (h : st.Sound) (hnoted : st.Noted memory) (calls : List Call) :
    (runAll Call.perform calls st).Noted (remembered calls st memory) := by
  induction calls generalizing st memory with
  | nil => exact hnoted
  | cons call calls ih => exact ih (perform_sound h call) (perform_noted h hnoted call)

end SeriesStore.Store
