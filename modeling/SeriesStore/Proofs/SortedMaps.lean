import Mathlib.Data.List.Sort
import SeriesStore.SortedMap

/-!
# Theory of sorted maps

A key has one place in the entries of a map: there is one entry at the key, or
a gap between the entries below it and those above it. What an operation does to
a key is read off the entries around that place, and a map is determined by the
values it gives to keys.

Results:
1. `split_or_gap`: the place of a key.
2. `mem_entries_iff`: the entries are what `get?` gives.
3. `get?_insert`, `get?_erase`, `get?_modify`: what the operations do to every
   key.
4. `entries_insert_of_split`, `entries_insert_of_gap`, `entries_erase_of_split`:
   what the operations do to the list of entries.
5. `ext_get?`: maps that give every key the same value are equal.
6. `atMost?_of_split`, `atMost?_of_all_above`: where the greatest key that is not
   above another one is found.
-/

namespace SeriesStore.SortedMap

variable {κ α : Type} [Ord κ]

@[ext] theorem ext_entries {m m' : SortedMap κ α} (h : m.entries = m'.entries) : m = m' := by
  cases m
  cases m'
  cases h
  rfl

theorem contains_eq_isSome (m : SortedMap κ α) (k : κ) : m.contains k = (m.get? k).isSome := by
  unfold contains
  rw [get?, Option.isSome_map, Bool.eq_iff_iff, List.find?_isSome, List.any_eq_true]

theorem isEmpty_iff {m : SortedMap κ α} : m.isEmpty = true ↔ ∀ k, k ∉ m.keys := by
  unfold isEmpty keys
  rw [List.isEmpty_iff, ← List.map_eq_nil_iff (f := Prod.fst), List.eq_nil_iff_forall_not_mem]

/-! ## The place of a key -/

theorem isBelow_iff {k : κ} {e : κ × α} : isBelow k e = true ↔ compare e.1 k = .lt := by
  unfold isBelow
  rw [beq_iff_eq]

theorem not_above_of_below {k : κ} {e : κ × α} (h : compare e.1 k = .lt) :
    isAbove k e = false := by
  unfold isAbove
  rw [h]
  rfl

theorem not_at_of_below {k : κ} {e : κ × α} (h : compare e.1 k = .lt) : isAt k e = false := by
  unfold isAt
  rw [h]
  rfl

/-- The entries on either side of a key. -/
structure Around (k : κ) (pre post : List (κ × α)) : Prop where
  below : ∀ e ∈ pre, compare e.1 k = .lt
  above : ∀ e ∈ post, compare k e.1 = .lt

theorem around_of_split {m : SortedMap κ α} {k : κ} {v : α} {pre post : List (κ × α)}
    (h : m.entries = pre ++ (k, v) :: post) : Around k pre post := by
  have hsorted := m.sorted
  rw [h] at hsorted
  obtain ⟨-, hpost, hcross⟩ := List.pairwise_append.mp hsorted
  exact ⟨fun e he => hcross e he (k, v) List.mem_cons_self, (List.pairwise_cons.mp hpost).1⟩

/-! ## Keys that are equal where they compare as equal -/

section LawfulEq

variable [Std.LawfulEqOrd κ]

theorem isAt_iff {k : κ} {e : κ × α} : isAt k e = true ↔ e.1 = k := by
  unfold isAt
  rw [beq_iff_eq, Std.LawfulEqOrd.compare_eq_iff_eq]

theorem nodup_keys (m : SortedMap κ α) : m.keys.Nodup := by
  refine List.pairwise_map.mpr (m.sorted.imp fun {a b} h heq => ?_)
  rw [Std.LawfulEqOrd.compare_eq_iff_eq.mpr heq] at h
  cases h

theorem get?_of_split {m : SortedMap κ α} {k : κ} {v : α} {pre post : List (κ × α)}
    (h : m.entries = pre ++ (k, v) :: post) : m.get? k = some v := by
  have hpre : pre.find? (isAt k) = none := List.find?_eq_none.mpr fun e he => by
    simp [not_at_of_below ((around_of_split h).below e he)]
  have hself : isAt k (k, v) = true := isAt_iff.mpr rfl
  unfold get?
  rw [h, List.find?_append, hpre, Option.none_or, List.find?_cons, hself]
  rfl

theorem mem_entries_modify {m : SortedMap κ α} {k : κ} {f : α → α} {k' : κ} {u : α} :
    (k', u) ∈ (m.modify k f).entries ↔
      (k' = k ∧ ∃ v, (k, v) ∈ m.entries ∧ u = f v) ∨ (k' ≠ k ∧ (k', u) ∈ m.entries) := by
  unfold modify
  simp only [List.mem_map]
  constructor
  · rintro ⟨⟨k₀, v⟩, hm, he⟩
    by_cases hk : k₀ = k
    · rw [if_pos (isAt_iff.mpr hk)] at he
      cases he
      exact .inl ⟨hk, v, hk ▸ hm, rfl⟩
    · rw [if_neg (by rw [isAt_iff]; exact hk)] at he
      cases he
      exact .inr ⟨hk, hm⟩
  · rintro (⟨rfl, v, hm, rfl⟩ | ⟨hk, hm⟩)
    · exact ⟨(k', v), hm, if_pos (isAt_iff.mpr rfl)⟩
    · exact ⟨(k', u), hm, by rw [if_neg (by rw [isAt_iff]; exact hk)]⟩

end LawfulEq

/-! ## Keys in a transitive order -/

variable [Std.TransOrd κ]

theorem isAbove_iff {k : κ} {e : κ × α} : isAbove k e = true ↔ compare k e.1 = .lt := by
  unfold isAbove
  rw [beq_iff_eq, Std.OrientedCmp.gt_iff_lt]

theorem not_below_of_above {k : κ} {e : κ × α} (h : compare k e.1 = .lt) :
    isBelow k e = false := by
  unfold isBelow
  rw [Std.OrientedCmp.gt_of_lt h]
  rfl

theorem not_at_of_above {k : κ} {e : κ × α} (h : compare k e.1 = .lt) : isAt k e = false := by
  unfold isAt
  rw [Std.OrientedCmp.gt_of_lt h]
  rfl

theorem Around.filter_below {k : κ} {pre post : List (κ × α)} (h : Around k pre post) :
    (pre ++ post).filter (isBelow k) = pre := by
  rw [List.filter_append, List.filter_eq_self.mpr fun e he => isBelow_iff.mpr (h.below e he),
    List.filter_eq_nil_iff.mpr fun e he => by simp [not_below_of_above (h.above e he)],
    List.append_nil]

theorem Around.filter_above {k : κ} {pre post : List (κ × α)} (h : Around k pre post) :
    (pre ++ post).filter (isAbove k) = post := by
  rw [List.filter_append,
    List.filter_eq_nil_iff.mpr fun e he => by simp [not_above_of_below (h.below e he)],
    List.filter_eq_self.mpr fun e he => isAbove_iff.mpr (h.above e he), List.nil_append]

theorem Around.find_at {k : κ} {pre post : List (κ × α)} (h : Around k pre post) :
    (pre ++ post).find? (isAt k) = none := by
  apply List.find?_eq_none.mpr
  intro e he
  rcases List.mem_append.mp he with he | he
  · simp [not_at_of_below (h.below e he)]
  · simp [not_at_of_above (h.above e he)]

theorem get?_of_gap {m : SortedMap κ α} {k : κ} {pre post : List (κ × α)}
    (h : m.entries = pre ++ post) (ha : Around k pre post) : m.get? k = none := by
  unfold get?
  rw [h, ha.find_at]
  rfl

theorem entries_insert_of_gap {m : SortedMap κ α} {k : κ} {pre post : List (κ × α)}
    (h : m.entries = pre ++ post) (ha : Around k pre post) (v : α) :
    (m.insert k v).entries = pre ++ (k, v) :: post := by
  unfold insert
  simp only [h, ha.filter_below, ha.filter_above]

theorem atMost?_of_split {m : SortedMap κ α} {k k' : κ} {v : α} {pre post : List (κ × α)}
    (h : m.entries = pre ++ (k', v) :: post) (hk : compare k k' ≠ .lt)
    (hpost : ∀ e ∈ post, compare k e.1 = .lt) : m.atMost? k = some (k', v) := by
  have hself : isAbove k (k', v) = false := by
    rw [Bool.eq_false_iff, ne_eq, isAbove_iff]
    exact hk
  have hnone : post.filter (fun e => !isAbove k e) = [] := by
    apply List.filter_eq_nil_iff.mpr
    intro e he
    simp [isAbove_iff.mpr (hpost e he)]
  unfold atMost?
  rw [h, List.filter_append, List.filter_cons, hself, hnone]
  simp

theorem atMost?_of_all_above {m : SortedMap κ α} {k : κ}
    (h : ∀ e ∈ m.entries, compare k e.1 = .lt) : m.atMost? k = none := by
  have hnone : m.entries.filter (fun e => !isAbove k e) = [] := by
    apply List.filter_eq_nil_iff.mpr
    intro e he
    simp [isAbove_iff.mpr (h e he)]
  unfold atMost?
  rw [hnone]
  rfl

/-! ## Operations at the place of a key -/

variable [Std.LawfulEqOrd κ]

/-- The place of a key in a map: an entry or a gap. -/
theorem split_or_gap (m : SortedMap κ α) (k : κ) :
    (∃ pre v post, m.entries = pre ++ (k, v) :: post) ∨
      ∃ pre post, m.entries = pre ++ post ∧ Around k pre post := by
  obtain ⟨entries, sorted⟩ := m
  simp only
  induction entries with
  | nil => exact .inr ⟨[], [], rfl, by simp, by simp⟩
  | cons e entries ih =>
    obtain ⟨he, hrest⟩ := List.pairwise_cons.mp sorted
    cases hc : compare e.1 k with
    | eq =>
      have hk : e.1 = k := Std.LawfulEqOrd.compare_eq_iff_eq.mp hc
      exact .inl ⟨[], e.2, entries, by rw [← hk]; rfl⟩
    | lt =>
      rcases ih hrest with ⟨pre, v, post, heq⟩ | ⟨pre, post, heq, hbelow, habove⟩
      · exact .inl ⟨e :: pre, v, post, by rw [heq]; rfl⟩
      · refine .inr ⟨e :: pre, post, by rw [heq]; rfl, fun x hx => ?_, habove⟩
        rcases List.mem_cons.mp hx with rfl | hx
        · exact hc
        · exact hbelow x hx
    | gt =>
      have hlt : compare k e.1 = .lt := Std.OrientedCmp.lt_of_gt hc
      refine .inr ⟨[], e :: entries, rfl, by simp, fun x hx => ?_⟩
      rcases List.mem_cons.mp hx with rfl | hx
      · exact hlt
      · exact Std.TransCmp.lt_trans hlt (he x hx)

theorem entries_insert_of_split {m : SortedMap κ α} {k : κ} {u : α} {pre post : List (κ × α)}
    (h : m.entries = pre ++ (k, u) :: post) (v : α) :
    (m.insert k v).entries = pre ++ (k, v) :: post := by
  have ha := around_of_split h
  have hself : isBelow k (k, u) = false ∧ isAbove k (k, u) = false := by
    simp [isBelow, isAbove]
  have hbelow := ha.filter_below
  have habove := ha.filter_above
  rw [List.filter_append] at hbelow habove
  simp only [insert, h, List.filter_append, List.filter_cons, hself, Bool.false_eq_true, if_false,
    hbelow, habove]

theorem filter_below_of_split {m : SortedMap κ α} {k : κ} {v : α} {pre post : List (κ × α)}
    (h : m.entries = pre ++ (k, v) :: post) : m.entries.filter (isBelow k) = pre := by
  have hself : isBelow k (k, v) = false := by simp [isBelow]
  have hbelow := (around_of_split h).filter_below
  rw [List.filter_append] at hbelow
  rw [h, List.filter_append, List.filter_cons, hself]
  simpa using hbelow

theorem filter_above_of_split {m : SortedMap κ α} {k : κ} {v : α} {pre post : List (κ × α)}
    (h : m.entries = pre ++ (k, v) :: post) : m.entries.filter (isAbove k) = post := by
  have hself : isAbove k (k, v) = false := by simp [isAbove]
  have habove := (around_of_split h).filter_above
  rw [List.filter_append] at habove
  rw [h, List.filter_append, List.filter_cons, hself]
  simpa using habove

theorem entries_erase_of_split {m : SortedMap κ α} {k : κ} {v : α} {pre post : List (κ × α)}
    (h : m.entries = pre ++ (k, v) :: post) : (m.erase k).entries = pre ++ post := by
  have ha := around_of_split h
  have hpre : pre.filter (fun e => !isAt k e) = pre := List.filter_eq_self.mpr fun e he => by
    simp [not_at_of_below (ha.below e he)]
  have hpost : post.filter (fun e => !isAt k e) = post := List.filter_eq_self.mpr fun e he => by
    simp [not_at_of_above (ha.above e he)]
  have hself : isAt k (k, v) = true := isAt_iff.mpr rfl
  simp only [erase, h, List.filter_append, List.filter_cons, hself, hpre, hpost, Bool.not_true,
    Bool.false_eq_true, if_false]

/-! ## The values of keys -/

/-- The entries of a map are the values that it gives to keys. -/
theorem mem_entries_iff {m : SortedMap κ α} {k : κ} {v : α} :
    (k, v) ∈ m.entries ↔ m.get? k = some v := by
  rcases m.split_or_gap k with ⟨pre, u, post, h⟩ | ⟨pre, post, h, ha⟩
  · have hb := around_of_split h
    rw [get?_of_split h, h, Option.some.injEq]
    constructor
    · intro hm
      rcases List.mem_append.mp hm with hm | hm
      · exact absurd (hb.below _ hm) (by simp)
      · rcases List.mem_cons.mp hm with hm | hm
        · exact (Prod.mk.inj hm).2.symm
        · exact absurd (hb.above _ hm) (by simp)
    · rintro rfl
      simp
  · rw [get?_of_gap h ha, h]
    refine ⟨fun hm => ?_, fun hn => by cases hn⟩
    rcases List.mem_append.mp hm with hm | hm
    · exact absurd (ha.below _ hm) (by simp)
    · exact absurd (ha.above _ hm) (by simp)

theorem mem_entries_insert {m : SortedMap κ α} {k : κ} {v : α} {e : κ × α} :
    e ∈ (m.insert k v).entries ↔ e = (k, v) ∨ e.1 ≠ k ∧ e ∈ m.entries := by
  have hside : isBelow k e = true ∨ isAbove k e = true ↔ e.1 ≠ k := by
    have hne : e.1 ≠ k ↔ compare e.1 k ≠ .eq := not_congr Std.LawfulEqOrd.compare_eq_iff_eq.symm
    rw [hne, isBelow, isAbove]
    cases compare e.1 k <;> simp
  rw [← hside]
  unfold insert
  simp only [List.mem_append, List.mem_filter, List.mem_cons]
  constructor
  · rintro (⟨hm, hb⟩ | rfl | ⟨hm, ha⟩)
    · exact .inr ⟨.inl hb, hm⟩
    · exact .inl rfl
    · exact .inr ⟨.inr ha, hm⟩
  · rintro (rfl | ⟨hb | ha, hm⟩)
    · exact .inr (.inl rfl)
    · exact .inl ⟨hm, hb⟩
    · exact .inr (.inr ⟨hm, ha⟩)

theorem get?_insert_self (m : SortedMap κ α) (k : κ) (v : α) : (m.insert k v).get? k = some v :=
  mem_entries_iff.mp (mem_entries_insert.mpr (.inl rfl))

/-- A value that is given to the key it was found under changes nothing. -/
theorem insert_self {m : SortedMap κ α} {k : κ} {v : α} (h : m.get? k = some v) :
    m.insert k v = m := by
  rcases m.split_or_gap k with ⟨pre, u, post, hsplit⟩ | ⟨pre, post, hgap, ha⟩
  · obtain rfl : u = v := Option.some.inj ((get?_of_split hsplit).symm.trans h)
    apply ext_entries
    rw [entries_insert_of_split hsplit, hsplit]
  · rw [get?_of_gap hgap ha] at h
    cases h

theorem get?_insert_of_ne (m : SortedMap κ α) {k k' : κ} (v : α) (h : k' ≠ k) :
    (m.insert k v).get? k' = m.get? k' := by
  apply Option.ext
  intro u
  rw [← mem_entries_iff, ← mem_entries_iff, mem_entries_insert]
  simp [h]

theorem get?_erase_self (m : SortedMap κ α) (k : κ) : (m.erase k).get? k = none := by
  apply Option.eq_none_iff_forall_ne_some.mpr
  intro v hv
  have hm := mem_entries_iff.mpr hv
  unfold erase at hm
  simp only [List.mem_filter, Bool.not_eq_true', Bool.eq_false_iff, ne_eq, isAt_iff] at hm
  exact hm.2 trivial

theorem get?_erase_of_ne (m : SortedMap κ α) {k k' : κ} (h : k' ≠ k) :
    (m.erase k).get? k' = m.get? k' := by
  apply Option.ext
  intro u
  rw [← mem_entries_iff, ← mem_entries_iff]
  simp [erase, List.mem_filter, Bool.eq_false_iff, isAt_iff, h]

theorem get?_modify_self (m : SortedMap κ α) (k : κ) (f : α → α) :
    (m.modify k f).get? k = (m.get? k).map f := by
  apply Option.ext
  intro u
  rw [← mem_entries_iff, mem_entries_modify]
  simp only [true_and, ne_eq, not_true, false_and, or_false, mem_entries_iff,
    Option.map_eq_some_iff]
  exact ⟨fun ⟨v, hv, hu⟩ => ⟨v, hv, hu.symm⟩, fun ⟨v, hv, hu⟩ => ⟨v, hv, hu.symm⟩⟩

theorem get?_modify_of_ne (m : SortedMap κ α) {k k' : κ} (f : α → α) (h : k' ≠ k) :
    (m.modify k f).get? k' = m.get? k' := by
  apply Option.ext
  intro u
  rw [← mem_entries_iff, mem_entries_modify]
  simp [mem_entries_iff, h]

theorem mem_keys_iff {m : SortedMap κ α} {k : κ} : k ∈ m.keys ↔ ∃ v, m.get? k = some v := by
  unfold keys
  simp only [List.mem_map, ← mem_entries_iff]
  exact ⟨fun ⟨e, he, heq⟩ => ⟨e.2, heq ▸ he⟩, fun ⟨v, hv⟩ => ⟨(k, v), hv, rfl⟩⟩

theorem mem_keys_insert {m : SortedMap κ α} {k k' : κ} {v : α} :
    k' ∈ (m.insert k v).keys ↔ k' = k ∨ k' ∈ m.keys := by
  rw [mem_keys_iff, mem_keys_iff]
  by_cases h : k' = k
  · subst h
    simp [get?_insert_self]
  · simp [get?_insert_of_ne _ _ h, h]

theorem mem_keys_erase {m : SortedMap κ α} {k k' : κ} :
    k' ∈ (m.erase k).keys ↔ k' ≠ k ∧ k' ∈ m.keys := by
  rw [mem_keys_iff, mem_keys_iff]
  by_cases h : k' = k
  · subst h
    simp [get?_erase_self]
  · simp [get?_erase_of_ne _ h, h]

/-- A map is determined by the values that it gives to keys. -/
theorem ext_get? {m m' : SortedMap κ α} (h : ∀ k, m.get? k = m'.get? k) : m = m' := by
  let earlier : κ × α → κ × α → Prop := fun a b => compare a.1 b.1 = .lt
  have : Std.Irrefl earlier := ⟨fun a ha => by simp [earlier] at ha⟩
  have : Std.Antisymm earlier := ⟨fun a b hab hba => by
    have hgt := Std.OrientedCmp.gt_of_lt hba
    rw [show compare a.1 b.1 = .lt from hab] at hgt
    cases hgt⟩
  apply ext_entries
  refine List.Pairwise.eq_of_mem_iff (r := earlier) m.sorted m'.sorted fun e => ?_
  rw [mem_entries_iff (k := e.1), mem_entries_iff (k := e.1), h]

end SeriesStore.SortedMap
