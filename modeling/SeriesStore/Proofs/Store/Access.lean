import SeriesStore.Proofs.Effects
import SeriesStore.Proofs.Series.Changes
import SeriesStore.Proofs.SortedMaps
import SeriesStore.Store.Writing

/-!
# Looking into a store

Every operation on a store is made of a few that change one series. What is found
under a key afterwards tells all that later proofs need to know of them.

Results:
1. `get?_put`, `get?_alter`, `get?_alterAll`, `get?_erase`: what is found after a
   change.
2. `get?_deliver`: what is found after a delivery.
3. `ext_get?`: stores that differ in nothing that is found are equal.
-/

namespace SeriesStore.Store

variable {st : Store} {key k : String} {s : Series}

/-! ## Changes of one series -/

theorem get?_put (st : Store) (key : String) (s : Series) (k : String) :
    (st.put key s).get? k = if k = key then some s else st.get? k := by
  split
  · subst k
    exact SortedMap.get?_insert_self _ _ _
  · exact SortedMap.get?_insert_of_ne _ _ ‹_›

theorem get?_alter (st : Store) (key : String) (f : Series → Series) (k : String) :
    (st.alter key f).get? k = if k = key then (st.get? k).map f else st.get? k := by
  split
  · subst k
    exact SortedMap.get?_modify_self _ _ _
  · exact SortedMap.get?_modify_of_ne _ _ ‹_›

/-- The same change of several series. -/
theorem get?_alterAll (f : Series → Series) {keys : List String} (h : keys.Nodup) (st : Store)
    (k : String) :
    (keys.foldl (fun st key => st.alter key f) st).get? k =
      if k ∈ keys then (st.get? k).map f else st.get? k := by
  induction keys generalizing st with
  | nil => simp
  | cons key keys ih =>
    obtain ⟨hkey, hkeys⟩ := List.nodup_cons.mp h
    rw [List.foldl_cons, ih hkeys, get?_alter]
    by_cases heq : k = key
    · subst heq
      simp [hkey]
    · simp [heq]

theorem get?_erase (st : Store) (key : String) (index : LabelIndex) (k : String) :
    ({ st with series := st.series.erase key, index } : Store).get? k =
      if k = key then none else st.get? k := by
  split
  · subst k
    exact SortedMap.get?_erase_self _ _
  · exact SortedMap.get?_erase_of_ne _ ‹_›

/-- Changes of series leave the configuration and the index alone. -/
theorem rest_alterAll (f : Series → Series) (keys : List String) (st : Store) :
    (keys.foldl (fun st key => st.alter key f) st).config = st.config ∧
      (keys.foldl (fun st key => st.alter key f) st).index = st.index := by
  induction keys generalizing st with
  | nil => exact ⟨rfl, rfl⟩
  | cons key keys ih => exact ih (st.alter key f)

/-- Stores in which the same is found, and which agree on the rest, are equal. -/
theorem ext_get? {st st' : Store} (hconfig : st.config = st'.config) (hindex : st.index = st'.index)
    (hget : ∀ k, st.get? k = st'.get? k) : st = st' := by
  have hseries : st.series = st'.series := SortedMap.ext_get? hget
  cases st
  cases st'
  cases hconfig
  cases hindex
  cases hseries
  rfl

theorem contains_eq (st : Store) (k : String) : st.contains k = (st.get? k).isSome :=
  SortedMap.contains_eq_isSome _ _

theorem lookUp_ok (h : st.get? key = some s) : lookUp key st = .ok s st := by
  unfold lookUp
  rw [bind_of_ok (get_apply st), find, h]
  rfl

theorem lookUp_error (h : st.get? key = none) :
    lookUp key st = .error (.seriesNotFound key) st := by
  unfold lookUp
  rw [bind_of_ok (get_apply st), find, h]
  rfl

/-! ## Changes within a store -/

section Within

variable {α : Type} {change : Series.Update α} {a : α} {s' : Series} {e : StoreError}

theorem within_ok (h : st.get? key = some s) (hchange : change s = .ok a s') :
    within key change st = .ok a (st.put key s') := by
  unfold within
  simp only [find, h, hchange]

theorem within_error (h : st.get? key = some s) (hchange : change s = .error e s') :
    within key change st = .error e (st.put key s') := by
  unfold within
  simp only [find, h, hchange]

theorem within_missing (h : st.get? key = none) :
    within key change st = .error (.seriesNotFound key) st := by
  unfold within
  simp only [find, h]

end Within

/-! ## Deliveries -/

/-- Delivers one write; a write to a series that does not exist is dropped. -/
def deliverOne (st : Store) (w : BucketWrite) : Store :=
  match st.get? w.dest with
  | none => st
  | some d => st.put w.dest (Series.received w.sample d)

theorem deliver_eq (st : Store) (writes : List BucketWrite) :
    st.deliver writes = writes.foldl deliverOne st := by
  unfold deliver
  simp only [maxDepth, deliverOver]
  congr 1
  funext st w
  unfold deliverOne
  cases st.get? w.dest with
  | none => rfl
  | some d =>
    unfold Series.received
    simp only [stateAfter]
    cases Series.receive w.sample d <;> rfl

theorem rest_deliver (st : Store) (writes : List BucketWrite) :
    (st.deliver writes).config = st.config ∧ (st.deliver writes).index = st.index := by
  rw [deliver_eq]
  induction writes generalizing st with
  | nil => exact ⟨rfl, rfl⟩
  | cons w writes ih =>
    obtain ⟨hconfig, hindex⟩ := ih (st.deliverOne w)
    rw [List.foldl_cons, hconfig, hindex]
    unfold deliverOne
    split <;> exact ⟨rfl, rfl⟩

theorem get?_deliverOne (st : Store) (w : BucketWrite) (k : String) :
    (st.deliverOne w).get? k =
      if k = w.dest then (st.get? k).map (Series.received w.sample) else st.get? k := by
  by_cases hk : k = w.dest
  · subst hk
    cases hdest : st.get? w.dest with
    | none => simp [deliverOne, hdest]
    | some d => simp [deliverOne, hdest, get?_put]
  · cases hdest : st.get? w.dest with
    | none => simp [deliverOne, hdest, hk]
    | some d => simp [deliverOne, hdest, get?_put, hk]

/-- What becomes of a series that takes what is owed to it, one write after the other. -/
def receivedAll (writes : List BucketWrite) (d : Series) : Series :=
  writes.foldl (fun d w => Series.received w.sample d) d

/-- A series takes what is delivered to it. What it owes itself for that is
dropped. -/
theorem get?_deliver (st : Store) (writes : List BucketWrite) (k : String) :
    (st.deliver writes).get? k = (st.get? k).map (receivedAll (writes.filter (·.dest == k))) := by
  rw [deliver_eq]
  induction writes generalizing st with
  | nil =>
    rw [List.filter_nil]
    exact Option.map_id'.symm
  | cons w writes ih =>
    rw [List.foldl_cons, ih, get?_deliverOne]
    by_cases heq : k = w.dest
    · rw [if_pos heq, List.filter_cons_of_pos (by simp [heq]), Option.map_map]
      rfl
    · rw [if_neg heq, List.filter_cons_of_neg (by simpa using Ne.symm heq)]

end SeriesStore.Store
