import SeriesStore.Proofs.Store.Lifecycle
import SeriesStore.Proofs.Store.Writes

/-!
# Stores that calls reach

Results:
1. `perform_sound`: one call keeps a store sound, whether it succeeds or fails.
2. `Reachable.sound`: every store that is reached from one without series is sound.
3. `consistent_run`: names and links agree after any calls.
-/

namespace SeriesStore.Store

variable {st : Store}

/-- A call on a store. -/
inductive Call
  | create (key : String) (options : SeriesOptions)
  | delete (key : String)
  | rename (old new : String)
  | createRule (source dest : String) (aggregation : Aggregation) (bucket : UInt64)
  | deleteRule (source dest : String)
  | add (key : String) (sample : Sample) (override : DuplicatePolicy)
  | upsert (key : String) (sample : Sample) (override : DuplicatePolicy)

/-- What a call does. -/
def Call.perform : Call → Update Unit
  | create key options => Store.create key options
  | delete key => Store.delete key
  | rename old new => Store.rename old new
  | createRule source dest aggregation bucket => Store.createRule source dest aggregation bucket
  | deleteRule source dest => Store.deleteRule source dest
  | add key sample override => discard (Store.add key sample override)
  | upsert key sample override => Store.upsert key sample override

/-- Some calls, of which each may fail, lead from a store without series to this
one. -/
def Reachable (st : Store) : Prop :=
  ∃ config calls, st = runAll Call.perform calls { config }

theorem stateAfter_discard {α : Type} (change : Update α) (st : Store) :
    stateAfter (discard change) st = stateAfter change st := by
  cases h : change st with
  | ok a st' =>
    rw [stateAfter_of_ok h]
    exact stateAfter_of_ok (map_of_ok (fun _ => ()) h)
  | error e st' =>
    rw [stateAfter_of_error h]
    exact stateAfter_of_error (map_of_error (fun _ => ()) h)

/-- A call keeps a store sound, whether it succeeds or fails. -/
theorem perform_sound (h : st.Sound) (call : Call) : (stateAfter call.perform st).Sound := by
  cases call with
  | create key options => exact create_sound h key options
  | delete key => exact delete_sound h key
  | rename old new => exact rename_sound h old new
  | createRule source dest aggregation bucket =>
    exact createRule_sound h source dest aggregation bucket
  | deleteRule source dest => exact deleteRule_sound h source dest
  | add key sample override =>
    unfold Call.perform
    rw [stateAfter_discard]
    exact (add_written h key sample override).sound h
  | upsert key sample override => exact (upsert_written h key sample override).sound h

theorem runAll_sound (h : st.Sound) (calls : List Call) : (runAll Call.perform calls st).Sound := by
  induction calls generalizing st with
  | nil => exact h
  | cons call calls ih => exact ih (perform_sound h call)

theorem Reachable.sound (h : st.Reachable) : st.Sound := by
  obtain ⟨config, calls, rfl⟩ := h
  exact runAll_sound (.empty config) calls

/-! ## Names and links -/

/-- What the names, sources and rules of all series say of each other. -/
structure Consistent (st : Store) : Prop where
  -- Each series is stored under its own name.
  named : ∀ key s, st.get? key = some s → s.key = key
  -- A series has a rule into another exactly where that one names it as its source.
  linked : ∀ source dest, (∃ s, st.get? source = some s ∧ ∃ r ∈ s.rules, r.dest = dest) ↔
    ∃ d, st.get? dest = some d ∧ d.source = some source
  -- No two rules of a series have the same destination.
  single : ∀ key s, st.get? key = some s → s.rules.Pairwise fun r q => r.dest ≠ q.dest
  -- A source exists, and is not the series itself.
  rooted : ∀ key s source, st.get? key = some s → s.source = some source →
    source ≠ key ∧ ∃ q, st.get? source = some q
  -- Links are one level deep.
  level : ∀ key s, st.get? key = some s → s.source = none ∨ s.rules = []
  positive : ∀ key s, st.get? key = some s → ∀ r ∈ s.rules, 0 < r.bucket

theorem mem_dests_iff {key dest : String} :
    dest ∈ st.dests key ↔ ∃ s, st.get? key = some s ∧ ∃ r ∈ s.rules, r.dest = dest := by
  cases hs : st.get? key with
  | none => simp [dests_of_missing hs]
  | some s => simp [dests_of_get? hs, Series.destinations]

theorem sourceOf?_eq_some_iff {key source : String} :
    st.sourceOf? key = some source ↔ ∃ s, st.get? key = some s ∧ s.source = some source :=
  Option.bind_eq_some_iff

theorem Sound.consistent (h : st.Sound) : st.Consistent where
  named key s hs := (h.stored key s hs).named
  linked source dest := by
    rw [← mem_dests_iff, ← sourceOf?_eq_some_iff]
    exact h.links.linked source dest
  single key s hs := List.pairwise_map.mp (h.links.nodup_destinations hs)
  rooted key s source hs hsource := by
    have hmem := (h.links.linked source key).mpr (sourceOf?_eq_some_iff.mpr ⟨s, hs, hsource⟩)
    refine ⟨fun heq => h.links.not_mem_self key (heq ▸ hmem), ?_⟩
    obtain ⟨q, hq, -⟩ := mem_dests_iff.mp hmem
    exact ⟨q, hq⟩
  level key s hs := by
    by_cases hsource : s.source = none
    · exact .inl hsource
    · exact .inr (h.links.leaf hs hsource)
  positive key s hs r hr := by
    have hne := (h.stored key s hs).positive r hr
    exact UInt64.lt_of_le_of_ne UInt64.zero_le (Ne.symm hne)

/-- Whatever calls are made on a store without series, be they refused or not, names
and links agree afterwards. -/
theorem consistent_run (config : StoreConfig) (calls : List Call) :
    (runAll Call.perform calls { config }).Consistent :=
  (Reachable.sound ⟨config, calls, rfl⟩).consistent

end SeriesStore.Store
