import SeriesStore.Proofs.LabelIndexes
import SeriesStore.Proofs.Store.Reachable

/-!
# The label index is exact

In an indexed store the index lists a key under a label exactly where the series under that
key carries the label. All this is read off one view of the store, `labelsOf?`: a series that
comes is added under its labels, one that goes is removed under them, and nothing else that
is done to a store touches labels.

Results:
1. `Indexed.insert`, `Indexed.erase`, `Indexed.move`: the index when series come, go and are
   renamed.
2. `Reachable.indexed`: the index is exact after any calls.
3. `index_exact_run`: so is all that is read off it.
-/

namespace SeriesStore.Store

/-- The labels of the series under a key. -/
def labelsOf? (st : Store) (key : String) : Option (List Label) := (st.get? key).map (·.labels)

/-- The labels of all series, each as often as series carry it. -/
def labels (st : Store) : List Label := st.series.values.flatMap (·.labels)

/-- The index lists the series that carry a label, and no label that no series carries. -/
structure Indexed (st : Store) : Prop where
  listed : ∀ label key, st.index.Lists label key ↔
    ∃ labels, st.labelsOf? key = some labels ∧ label ∈ labels
  tight : st.index.Tight

variable {st st' : Store} {key old new : String} {labels : List Label} {s d : Series}

theorem labelsOf?_of_get? (h : st.get? key = some s) : st.labelsOf? key = some s.labels := by
  unfold labelsOf?
  rw [h]
  rfl

theorem labelsOf?_of_missing (h : st.get? key = none) : st.labelsOf? key = none := by
  unfold labelsOf?
  rw [h]
  rfl

/-- A change that keeps the labels of a series does not show. -/
theorem labels_map {f : Series → Series} (hf : ∀ s, (f s).labels = s.labels)
    (found : Option Series) :
    (found.map f).map (·.labels) = found.map (·.labels) := by
  rw [Option.map_map]
  exact congrArg (Option.map · found) (funext hf)

theorem labels_unlinkSource (s : Series) (source : String) :
    (s.unlinkSource source).labels = s.labels := by
  unfold Series.unlinkSource
  split <;> rfl

theorem Indexed.empty (config : StoreConfig) : Indexed { config } := by
  refine ⟨fun label key => ?_, fun label keys hkeys => by cases hkeys⟩
  rw [LabelIndex.lists_iff]
  constructor
  · rintro ⟨keys, hkeys, -⟩
    cases hkeys
  · rintro ⟨labels, hlabels, -⟩
    cases hlabels

theorem Indexed.congr (h : st.Indexed) (hindex : st'.index = st.index)
    (hlabels : ∀ k, st'.labelsOf? k = st.labelsOf? k) : st'.Indexed := by
  refine ⟨fun label k => ?_, hindex ▸ h.tight⟩
  rw [hindex, hlabels, h.listed]

/-! ## Series that come, go and are renamed -/

theorem Indexed.insert (h : st.Indexed) (hnew : st.labelsOf? key = none)
    (hindex : st'.index = st.index.add key labels)
    (hlabels : ∀ k, st'.labelsOf? k = if k = key then some labels else st.labelsOf? k) :
    st'.Indexed := by
  refine ⟨fun label k => ?_, hindex ▸ h.tight.add key labels⟩
  rw [hindex, hlabels, LabelIndex.lists_add, h.listed]
  by_cases hk : k = key
  · simp [hk, hnew]
  · simp [hk]

theorem Indexed.erase (h : st.Indexed) (hkey : st.labelsOf? key = some labels)
    (hindex : st'.index = st.index.remove key labels)
    (hlabels : ∀ k, st'.labelsOf? k = if k = key then none else st.labelsOf? k) :
    st'.Indexed := by
  refine ⟨fun label k => ?_, hindex ▸ h.tight.remove key labels⟩
  rw [hindex, hlabels, LabelIndex.lists_remove, h.listed]
  by_cases hk : k = key
  · simp [hk, hkey]
  · simp [hk]

theorem Indexed.move (h : st.Indexed) (hold : st.labelsOf? old = some labels)
    (hnew : st.labelsOf? new = none)
    (hindex : st'.index = (st.index.remove old labels).add new labels)
    (hlabels : ∀ k, st'.labelsOf? k =
      if k = old then none else if k = new then some labels else st.labelsOf? k) :
    st'.Indexed := by
  refine ⟨fun label k => ?_, hindex ▸ (h.tight.remove old labels).add new labels⟩
  rw [hindex, hlabels, LabelIndex.lists_add, LabelIndex.lists_remove, h.listed]
  have hne : new ≠ old := by
    rintro rfl
    rw [hold] at hnew
    cases hnew
  by_cases hkold : k = old
  · simp [hkold, hold, hne.symm]
  by_cases hknew : k = new
  · simp [hknew, hne, hnew]
  · simp [hkold, hknew]

/-! ## Calls -/

theorem create_indexed (h : st.Sound) (hindexed : st.Indexed) (key : String)
    (options : SeriesOptions) : (stateAfter (create key options) st).Indexed := by
  refine create_keeps h key options (fun _ => hindexed) (fun st' hfree hinserted => ?_)
    fun st st' s template options hroot hindexed hs hfree hbucket hatt => ?_
  · refine hindexed.insert (labelsOf?_of_missing hfree) hinserted.index fun k => ?_
    unfold labelsOf?
    rw [hinserted.found]
    split <;> rfl
  · rw [← dest_templateRule] at hfree
    generalize templateRule key template = rule at hfree hatt
    refine hindexed.insert (labelsOf?_of_missing hfree) hatt.index fun k => ?_
    unfold labelsOf?
    rw [hatt.found]
    split
    · rfl
    split
    · rw [‹k = key›, hs]
      rfl
    · rfl

theorem delete_indexed (h : st.Sound) (hindexed : st.Indexed) (key : String) :
    (stateAfter (delete key) st).Indexed := by
  cases hs : st.get? key with
  | none =>
    rw [stateAfter_of_error (delete_missing hs)]
    exact hindexed
  | some s =>
    obtain ⟨st', hok, -, ⟨-, hindex⟩, hget⟩ := delete_ok h hs
    rw [stateAfter_of_ok hok]
    refine hindexed.erase (labelsOf?_of_get? hs) hindex fun k => ?_
    unfold labelsOf?
    rw [hget]
    split
    · rfl
    split
    · refine labels_map (fun d => ?_) _
      rfl
    split
    · exact labels_map (labels_unlinkSource · key) _
    · rfl

theorem makeFree_indexed (h : st.Sound) (hindexed : st.Indexed)
    (hfree : makeFree new st = .ok () st') : st'.Indexed := by
  cases hused : st.get? new with
  | none =>
    rw [makeFree_free hused] at hfree
    cases hfree
    exact hindexed
  | some d =>
    rw [makeFree_used hused] at hfree
    rw [← stateAfter_of_ok hfree]
    exact delete_indexed h hindexed new

theorem moved_indexed (h : st.Sound) (hindexed : st.Indexed) (hs : st.get? old = some s)
    (hnew : st.get? new = none) : (st.moved s old new).Indexed := by
  refine hindexed.move (labelsOf?_of_get? hs) (labelsOf?_of_missing hnew)
    (rest_moved st s old new).2 fun k => ?_
  unfold labelsOf?
  rw [get?_moved h hs hnew]
  split
  · rfl
  split
  · rfl
  split
  · refine labels_map (fun d => ?_) _
    rfl
  split
  · refine labels_map (fun d => ?_) _
    rfl
  · rfl

theorem rename_indexed (h : st.Sound) (hindexed : st.Indexed) (old new : String) :
    (stateAfter (rename old new) st).Indexed := by
  cases hs : st.get? old with
  | none =>
    rw [stateAfter_of_error (rename_missing hs new)]
    exact hindexed
  | some s =>
    by_cases heq : old = new
    · subst heq
      rw [stateAfter_of_ok (rename_self hs)]
      exact hindexed
    obtain ⟨st₁, s₁, hfree, hsound, hold, hnew, hok⟩ := rename_ok h hs heq
    rw [stateAfter_of_ok hok]
    exact moved_indexed hsound (makeFree_indexed h hindexed hfree) hold hnew

theorem createRule_indexed (hindexed : st.Indexed) (source dest : String)
    (aggregation : Aggregation) (bucket : UInt64) :
    (stateAfter (createRule source dest aggregation bucket) st).Indexed := by
  rcases createRule_cases st source dest aggregation bucket with ⟨e, hfail⟩ | ⟨s, d, hlinkable⟩
  · rw [stateAfter_of_error hfail]
    exact hindexed
  obtain ⟨st', hok, ⟨-, hindex⟩, hget⟩ := hlinkable.createRule_ok aggregation
  rw [stateAfter_of_ok hok]
  refine hindexed.congr hindex fun k => ?_
  unfold labelsOf?
  rw [hget]
  split
  · rw [‹k = dest›, hlinkable.to_dest]
    rfl
  split
  · rw [‹k = source›, hlinkable.from_source]
    rfl
  · rfl

theorem deleteRule_indexed (h : st.Sound) (hindexed : st.Indexed) (source dest : String) :
    (stateAfter (deleteRule source dest) st).Indexed := by
  rcases deleteRule_cases h source dest with
    ⟨e, hfail⟩ | ⟨s, st', hs, -, hok, ⟨-, hindex⟩, hget⟩
  · rw [stateAfter_of_error hfail]
    exact hindexed
  rw [stateAfter_of_ok hok]
  refine hindexed.congr hindex fun k => ?_
  unfold labelsOf?
  rw [hget]
  split
  · rw [‹k = dest›]
    exact labels_map (labels_unlinkSource · source) _
  split
  · rw [‹k = source›, hs]
    rfl
  · rfl

/-- A write changes no labels. -/
theorem changed_indexed (h : st.Sound) (hindexed : st.Indexed) {s' : Series} {x : Sample}
    {writes : List BucketWrite} (hs : st.get? key = some s)
    (hchange : Series.Change s x s' writes) :
    ((st.put key s').deliver writes).Indexed := by
  refine hindexed.congr (rest_deliver (st.put key s') writes).2 fun k => ?_
  unfold labelsOf?
  rw [get?_changed]
  by_cases hk : k = key
  · rw [if_pos hk, hk, hs, Option.map_some, Option.map_some, Option.map_some,
      (receivedAll_alike hchange.valid _).labels, hchange.alike.labels]
  · rw [if_neg hk]
    cases hd : st.get? k with
    | none => rfl
    | some d =>
      rw [Option.map_some, Option.map_some, Option.map_some,
        (receivedAll_alike (h.valid hd) _).labels]

theorem perform_indexed (h : st.Sound) (hindexed : st.Indexed) (call : Call) :
    (stateAfter call.perform st).Indexed := by
  cases call with
  | create key options => exact create_indexed h hindexed key options
  | delete key => exact delete_indexed h hindexed key
  | rename old new => exact rename_indexed h hindexed old new
  | createRule source dest aggregation bucket =>
    exact createRule_indexed hindexed source dest aggregation bucket
  | deleteRule source dest => exact deleteRule_indexed h hindexed source dest
  | add key sample override =>
    unfold Call.perform
    rw [stateAfter_discard]
    rcases add_step h key sample override with ⟨e, hfail⟩ | ⟨s, x, s', writes, hs, -, hchange, hok⟩
    · rwa [stateAfter_of_error hfail]
    · rw [stateAfter_of_ok hok]
      exact changed_indexed h hindexed hs hchange
  | upsert key sample override =>
    unfold Call.perform
    rcases upsert_step h key sample override with
      ⟨e, hfail⟩ | ⟨s, x, s', writes, hs, -, hchange, hok⟩
    · rwa [stateAfter_of_error hfail]
    · rw [stateAfter_of_ok hok]
      exact changed_indexed h hindexed hs hchange

theorem runAll_indexed (h : st.Sound) (hindexed : st.Indexed) (calls : List Call) :
    (runAll Call.perform calls st).Indexed := by
  induction calls generalizing st with
  | nil => exact hindexed
  | cons call calls ih => exact ih (perform_sound h call) (perform_indexed h hindexed call)

theorem Reachable.indexed (h : st.Reachable) : st.Indexed := by
  obtain ⟨config, calls, rfl⟩ := h
  exact runAll_indexed (.empty config) (.empty config) calls

/-! ## What is read -/

theorem mem_labels_iff {label : Label} :
    label ∈ st.labels ↔ ∃ key s, st.get? key = some s ∧ label ∈ s.labels := by
  unfold labels SortedMap.values
  simp only [List.mem_flatMap, List.mem_map]
  constructor
  · rintro ⟨s, ⟨⟨key, s⟩, hentry, rfl⟩, hlabel⟩
    exact ⟨key, s, SortedMap.mem_entries_iff.mp hentry, hlabel⟩
  · rintro ⟨key, s, hs, hlabel⟩
    exact ⟨s, ⟨(key, s), SortedMap.mem_entries_iff.mpr hs, rfl⟩, hlabel⟩

theorem Indexed.lists_iff (h : st.Indexed) {label : Label} :
    st.index.Lists label key ↔ ∃ s, st.get? key = some s ∧ label ∈ s.labels := by
  rw [h.listed]
  unfold labelsOf?
  cases st.get? key <;> simp

/-- Whatever calls are made, the index gives for a name and a value the keys of the series
with that label, ascending and each once. It counts the labels that series carry, however
often they do, and keeps a posting for no other. -/
theorem index_exact_run (config : StoreConfig) (calls : List Call) :
    let st := runAll Call.perform calls { config }
    (∀ name value, (st.index.keysFor ⟨name, value⟩).Pairwise (· < ·) ∧
      ∀ key, key ∈ st.index.keysFor ⟨name, value⟩ ↔
        ∃ s, st.get? key = some s ∧ ⟨name, value⟩ ∈ s.labels) ∧
    st.index.labelCount = st.labels.dedup.length ∧
    ∀ label keys, st.index.postings.get? label = some keys → keys.isEmpty = false := by
  intro st
  have hindexed : st.Indexed := Reachable.indexed ⟨config, calls, rfl⟩
  refine ⟨fun name value => ⟨st.index.keysFor_ascending _, fun key => hindexed.lists_iff⟩, ?_,
    hindexed.tight⟩
  refine hindexed.tight.labelCount_eq fun label => ?_
  simp only [mem_labels_iff, hindexed.lists_iff]

end SeriesStore.Store
