import Mathlib.Data.List.Nodup
import SeriesStore.Proofs.SortedMaps

/-!
# Maps under other keys

A map is translated where each of its keys is replaced by another one and each of its
values is changed. Where no two keys are replaced by the same one, nothing is lost, and a
translation that is undone key by key leads back to the map.

Results:
1. `get?_translate_iff`: what a translated map gives to keys.
2. `translate_undone`: a translation that is undone.
-/

namespace SeriesStore.SortedMap

variable {κ κ' α β : Type} [Ord κ] [Std.TransOrd κ] [Ord κ'] [Std.TransOrd κ']

/-- The map with these entries. Of several entries with one key the last one counts. -/
def ofList (entries : List (κ × α)) : SortedMap κ α :=
  entries.foldl (fun m e => m.insert e.1 e.2) .empty

/-- The map with its keys and values replaced. -/
def translate (f : κ → κ') (g : α → β) (m : SortedMap κ α) : SortedMap κ' β :=
  ofList (m.entries.map fun e => (f e.1, g e.2))

variable [Std.LawfulEqOrd κ] [Std.LawfulEqOrd κ']

/-- Entries that are inserted one after the other, no two of them with one key. -/
theorem get?_insertAll {entries : List (κ × α)} (h : (entries.map (·.1)).Nodup)
    (m : SortedMap κ α) {k : κ} {v : α} :
    (entries.foldl (fun m e => m.insert e.1 e.2) m).get? k = some v ↔
      (k, v) ∈ entries ∨ k ∉ entries.map (·.1) ∧ m.get? k = some v := by
  induction entries generalizing m with
  | nil => simp
  | cons e entries ih =>
    obtain ⟨he, hentries⟩ := List.nodup_cons.mp h
    rw [List.foldl_cons, ih hentries]
    by_cases hk : k = e.1
    · subst hk
      have hnone : (e.1, v) ∉ entries := fun hm => he (List.mem_map.mpr ⟨_, hm, rfl⟩)
      rw [get?_insert_self]
      simp [he, hnone, Prod.ext_iff, eq_comm]
    · rw [get?_insert_of_ne _ _ hk]
      simp [hk, Prod.ext_iff]

theorem get?_ofList {entries : List (κ × α)} (h : (entries.map (·.1)).Nodup) {k : κ} {v : α} :
    (ofList entries).get? k = some v ↔ (k, v) ∈ entries := by
  have hempty : (empty : SortedMap κ α).get? k = none := rfl
  unfold ofList
  rw [get?_insertAll h, hempty]
  simp

/-- Where keys stay apart, a translated map gives the translated values to the translated
keys. -/
theorem get?_translate_iff {f : κ → κ'} {g : α → β} {m : SortedMap κ α}
    (hapart : ∀ k ∈ m.keys, ∀ k' ∈ m.keys, f k = f k' → k = k') {k' : κ'} {u : β} :
    (m.translate f g).get? k' = some u ↔ ∃ k v, m.get? k = some v ∧ f k = k' ∧ g v = u := by
  have hnodup : ((m.entries.map fun e => (f e.1, g e.2)).map (·.1)).Nodup := by
    have hkeys : (m.keys.map f).Nodup :=
      List.Nodup.map_on (fun k hk k' hk' heq => hapart k hk k' hk' heq) m.nodup_keys
    unfold keys at hkeys
    rwa [List.map_map] at hkeys ⊢
  unfold translate
  rw [get?_ofList hnodup, List.mem_map]
  constructor
  · rintro ⟨e, he, heq⟩
    cases heq
    exact ⟨e.1, e.2, mem_entries_iff.mp he, rfl, rfl⟩
  · rintro ⟨k, v, hv, rfl, rfl⟩
    exact ⟨(k, v), mem_entries_iff.mpr hv, rfl⟩

theorem get?_translate_of_get? {f : κ → κ'} {g : α → β} {m : SortedMap κ α}
    (hapart : ∀ k ∈ m.keys, ∀ k' ∈ m.keys, f k = f k' → k = k') {k : κ} {v : α}
    (h : m.get? k = some v) : (m.translate f g).get? (f k) = some (g v) :=
  (get?_translate_iff hapart).mpr ⟨k, v, h, rfl, rfl⟩

/-- A translation that is undone key by key and value by value leads back to the map. -/
theorem translate_undone {f : κ → κ'} {f' : κ' → κ} {g : α → β} {g' : β → α} {m : SortedMap κ α}
    (h : ∀ k v, m.get? k = some v → f' (f k) = k ∧ g' (g v) = v) :
    (m.translate f g).translate f' g' = m := by
  have hapart : ∀ k ∈ m.keys, ∀ k' ∈ m.keys, f k = f k' → k = k' := by
    intro k hk k' hk' heq
    obtain ⟨v, hv⟩ := mem_keys_iff.mp hk
    obtain ⟨v', hv'⟩ := mem_keys_iff.mp hk'
    rw [← (h k v hv).1, heq, (h k' v' hv').1]
  have hapart' : ∀ k ∈ (m.translate f g).keys, ∀ k' ∈ (m.translate f g).keys,
      f' k = f' k' → k = k' := by
    intro j hj j' hj' heq
    obtain ⟨u, hu⟩ := mem_keys_iff.mp hj
    obtain ⟨u', hu'⟩ := mem_keys_iff.mp hj'
    obtain ⟨k, v, hv, rfl, -⟩ := (get?_translate_iff hapart).mp hu
    obtain ⟨k', v', hv', rfl, -⟩ := (get?_translate_iff hapart).mp hu'
    rw [(h k v hv).1, (h k' v' hv').1] at heq
    rw [heq]
  refine ext_get? fun k => Option.ext fun v => ?_
  rw [get?_translate_iff hapart']
  constructor
  · rintro ⟨j, u, hu, rfl, rfl⟩
    obtain ⟨k, v, hv, rfl, rfl⟩ := (get?_translate_iff hapart).mp hu
    rwa [(h k v hv).1, (h k v hv).2]
  · intro hv
    exact ⟨f k, g v, get?_translate_of_get? hapart hv, (h k v hv).1, (h k v hv).2⟩

end SeriesStore.SortedMap
