import Mathlib.Data.List.Dedup
import SeriesStore.LabelIndex
import SeriesStore.Proofs.Translations

/-!
# Theory of the label index

An index is told by the pairs that it lists, a label and a key each. It is tight where no
label has a posting without keys, and then the pairs determine it.

Results:
1. `lists_add`, `lists_remove`, `lists_translate`: the pairs that are listed after a change.
2. `Tight.add`, `Tight.remove`, `Tight.translate`: no change leaves a posting without keys.
3. `Tight.labelCount_eq`: a tight index counts the labels that some key carries.
4. `Tight.ext`: tight indexes that list the same pairs are equal.
-/

namespace SeriesStore

instance : Std.LawfulEqOrd Label where
  eq_of_compare {a b} h := by
    have hboth : compareOn Label.name a b = .eq ∧ compareOn Label.value a b = .eq :=
      Ordering.then_eq_eq.mp h
    obtain ⟨hname, hvalue⟩ := hboth
    cases a
    cases b
    rw [Label.mk.injEq]
    exact ⟨Std.LawfulEqOrd.eq_of_compare hname, Std.LawfulEqOrd.eq_of_compare hvalue⟩

namespace LabelIndex

variable {index index' : LabelIndex} {label l : Label} {key k : String} {labels : List Label}

/-- The key is among those that carry the label. -/
def Lists (index : LabelIndex) (label : Label) (key : String) : Prop := key ∈ index.keysFor label

/-- No label has a posting without keys. -/
def Tight (index : LabelIndex) : Prop :=
  ∀ label keys, index.postings.get? label = some keys → keys.isEmpty = false

/-- The index with the keys in its postings replaced. -/
def translate (f : String → String) (index : LabelIndex) : LabelIndex :=
  ⟨index.postings.translate id (SortedMap.translate f id)⟩

theorem lists_iff :
    index.Lists label key ↔ ∃ keys, index.postings.get? label = some keys ∧ key ∈ keys.keys := by
  unfold Lists keysFor posting
  cases index.postings.get? label with
  | none => simp [SortedMap.keys, SortedMap.empty]
  | some keys => simp

theorem isEmpty_eq_false {keys : KeySet} : keys.isEmpty = false ↔ ∃ k, k ∈ keys.keys := by
  rw [Bool.eq_false_iff, ne_eq, SortedMap.isEmpty_iff]
  simp

/-- The keys that carry a label are listed in ascending order. -/
theorem keysFor_ascending (index : LabelIndex) (label : Label) :
    (index.keysFor label).Pairwise (· < ·) :=
  List.pairwise_map.mpr ((index.posting label).sorted.imp compareOfLessAndEq_eq_lt.mp)

/-- In a tight index a label has a posting exactly where a key carries it. -/
theorem Tight.mem_postings_iff (h : index.Tight) :
    label ∈ index.postings.keys ↔ ∃ k, index.Lists label k := by
  rw [SortedMap.mem_keys_iff]
  constructor
  · rintro ⟨keys, hkeys⟩
    obtain ⟨k, hk⟩ := isEmpty_eq_false.mp (h label keys hkeys)
    exact ⟨k, lists_iff.mpr ⟨keys, hkeys, hk⟩⟩
  · rintro ⟨k, hlists⟩
    obtain ⟨keys, hkeys, -⟩ := lists_iff.mp hlists
    exact ⟨keys, hkeys⟩

/-- A tight index counts the labels that some key carries. -/
theorem Tight.labelCount_eq (h : index.Tight)
    (hlabels : ∀ label, label ∈ labels ↔ ∃ k, index.Lists label k) :
    index.labelCount = labels.dedup.length := by
  have hsame : index.postings.keys.Perm labels.dedup := by
    refine (List.perm_ext_iff_of_nodup (SortedMap.nodup_keys _) (List.nodup_dedup _)).mpr ?_
    intro label
    rw [h.mem_postings_iff, List.mem_dedup, hlabels]
  rw [← hsame.length_eq]
  exact (List.length_map _).symm

/-! ## One label -/

theorem get?_addLabel (key : String) (index : LabelIndex) (label l : Label) :
    (index.addLabel key label).postings.get? l =
      if l = label then some ((index.posting label).insert key ()) else index.postings.get? l := by
  unfold addLabel
  split
  · subst l
    rw [SortedMap.get?_insert_self]
  · rw [SortedMap.get?_insert_of_ne _ _ ‹_›]

theorem get?_removeLabel (key : String) (index : LabelIndex) (label l : Label) :
    (index.removeLabel key label).postings.get? l =
      if l = label then
        (if ((index.posting label).erase key).isEmpty then none
        else some ((index.posting label).erase key))
      else index.postings.get? l := by
  unfold removeLabel
  by_cases hl : l = label
  · subst l
    rw [if_pos rfl]
    split
    · simp only [‹_›, if_true, SortedMap.get?_erase_self]
    · simp only [‹_›, if_false, Bool.false_eq_true, SortedMap.get?_insert_self]
  · rw [if_neg hl]
    by_cases hempty : ((index.posting label).erase key).isEmpty = true
    · simp only [hempty, if_true, SortedMap.get?_erase_of_ne _ hl]
    · simp only [hempty, if_false, Bool.false_eq_true, SortedMap.get?_insert_of_ne _ _ hl]

theorem lists_addLabel : (index.addLabel key label).Lists l k ↔
    index.Lists l k ∨ k = key ∧ l = label := by
  rw [lists_iff, get?_addLabel]
  by_cases hl : l = label
  · subst l
    simp [SortedMap.mem_keys_insert, Lists, keysFor, or_comm]
  · simp [hl, lists_iff]

theorem lists_removeLabel : (index.removeLabel key label).Lists l k ↔
    index.Lists l k ∧ ¬ (k = key ∧ l = label) := by
  rw [lists_iff, get?_removeLabel]
  by_cases hl : l = label
  · subst l
    have herase : k ∈ ((index.posting label).erase key).keys ↔ k ≠ key ∧ index.Lists label k :=
      SortedMap.mem_keys_erase
    rw [if_pos rfl]
    split
    · have hnone := SortedMap.isEmpty_iff.mp ‹_› k
      rw [herase] at hnone
      simpa [and_comm] using hnone
    · simp [herase, and_comm]
  · simp [hl, lists_iff]

theorem Tight.addLabel (h : index.Tight) (key : String) (label : Label) :
    (index.addLabel key label).Tight := by
  intro l keys hkeys
  rw [get?_addLabel] at hkeys
  split at hkeys
  · cases hkeys
    exact isEmpty_eq_false.mpr ⟨key, SortedMap.mem_keys_insert.mpr (.inl rfl)⟩
  · exact h l keys hkeys

theorem Tight.removeLabel (h : index.Tight) (key : String) (label : Label) :
    (index.removeLabel key label).Tight := by
  intro l keys hkeys
  rw [get?_removeLabel] at hkeys
  split at hkeys
  · split at hkeys
    · cases hkeys
    · cases hkeys
      exact Bool.eq_false_iff.mpr ‹_›
  · exact h l keys hkeys

/-! ## Some labels -/

theorem lists_add (index : LabelIndex) (labels : List Label) :
    (index.add key labels).Lists l k ↔ index.Lists l k ∨ k = key ∧ l ∈ labels := by
  unfold add
  induction labels generalizing index with
  | nil => simp
  | cons label labels ih =>
    rw [List.foldl_cons, ih, lists_addLabel, List.mem_cons, or_assoc, ← and_or_left]

theorem lists_remove (index : LabelIndex) (labels : List Label) :
    (index.remove key labels).Lists l k ↔ index.Lists l k ∧ ¬ (k = key ∧ l ∈ labels) := by
  unfold remove
  induction labels generalizing index with
  | nil => simp
  | cons label labels ih =>
    rw [List.foldl_cons, ih, lists_removeLabel, List.mem_cons, and_assoc, ← not_or, ← and_or_left]

theorem Tight.add (h : index.Tight) (key : String) (labels : List Label) :
    (index.add key labels).Tight := by
  unfold LabelIndex.add
  induction labels generalizing index with
  | nil => exact h
  | cons label labels ih => exact ih (h.addLabel key label)

theorem Tight.remove (h : index.Tight) (key : String) (labels : List Label) :
    (index.remove key labels).Tight := by
  unfold LabelIndex.remove
  induction labels generalizing index with
  | nil => exact h
  | cons label labels ih => exact ih (h.removeLabel key label)

/-! ## Other keys -/

section Translate

variable {f : String → String}

theorem get?_translate {keys' : KeySet} : (index.translate f).postings.get? l = some keys' ↔
    ∃ keys, index.postings.get? l = some keys ∧ keys.translate f id = keys' := by
  have hapart : ∀ a ∈ index.postings.keys, ∀ b ∈ index.postings.keys, id a = id b → a = b :=
    fun _ _ _ _ heq => heq
  unfold translate
  rw [SortedMap.get?_translate_iff hapart]
  constructor
  · rintro ⟨_, keys, hkeys, rfl, hkeys'⟩
    exact ⟨keys, hkeys, hkeys'⟩
  · rintro ⟨keys, hkeys, hkeys'⟩
    exact ⟨l, keys, hkeys, rfl, hkeys'⟩

/-- Keys that are listed under one label stay apart. -/
theorem apart_of_lists (hapart : ∀ k k', index.Lists l k → index.Lists l k' → f k = f k' → k = k')
    {keys : KeySet} (hkeys : index.postings.get? l = some keys) :
    ∀ k ∈ keys.keys, ∀ k' ∈ keys.keys, f k = f k' → k = k' := fun k hk k' hk' =>
  hapart k k' (lists_iff.mpr ⟨keys, hkeys, hk⟩) (lists_iff.mpr ⟨keys, hkeys, hk'⟩)

theorem mem_keys_translate {keys : KeySet}
    (hapart : ∀ k ∈ keys.keys, ∀ k' ∈ keys.keys, f k = f k' → k = k') :
    k ∈ (keys.translate f id).keys ↔ ∃ k₀ ∈ keys.keys, f k₀ = k := by
  rw [SortedMap.mem_keys_iff]
  simp only [SortedMap.get?_translate_iff hapart, SortedMap.mem_keys_iff]
  constructor
  · rintro ⟨u, k₀, v, hv, hk, -⟩
    exact ⟨k₀, ⟨v, hv⟩, hk⟩
  · rintro ⟨k₀, ⟨v, hv⟩, hk⟩
    exact ⟨v, k₀, v, hv, hk, trivial⟩

theorem lists_translate
    (hapart : ∀ k k', index.Lists l k → index.Lists l k' → f k = f k' → k = k') :
    (index.translate f).Lists l k ↔ ∃ k₀, index.Lists l k₀ ∧ f k₀ = k := by
  rw [lists_iff]
  constructor
  · rintro ⟨_, hkeys', hk⟩
    obtain ⟨keys, hkeys, rfl⟩ := get?_translate.mp hkeys'
    obtain ⟨k₀, hk₀, heq⟩ := (mem_keys_translate (apart_of_lists hapart hkeys)).mp hk
    exact ⟨k₀, lists_iff.mpr ⟨keys, hkeys, hk₀⟩, heq⟩
  · rintro ⟨k₀, hlists, heq⟩
    obtain ⟨keys, hkeys, hk₀⟩ := lists_iff.mp hlists
    exact ⟨_, get?_translate.mpr ⟨keys, hkeys, rfl⟩,
      (mem_keys_translate (apart_of_lists hapart hkeys)).mpr ⟨k₀, hk₀, heq⟩⟩

theorem Tight.translate (h : index.Tight)
    (hapart : ∀ l k k', index.Lists l k → index.Lists l k' → f k = f k' → k = k') :
    (index.translate f).Tight := by
  intro l _ hkeys'
  obtain ⟨keys, hkeys, rfl⟩ := get?_translate.mp hkeys'
  obtain ⟨k, hk⟩ := isEmpty_eq_false.mp (h l keys hkeys)
  exact isEmpty_eq_false.mpr
    ⟨f k, (mem_keys_translate (apart_of_lists (hapart l) hkeys)).mpr ⟨k, hk, rfl⟩⟩

theorem translate_undone {f' : String → String} (h : ∀ l k, index.Lists l k → f' (f k) = k) :
    (index.translate f).translate f' = index := by
  unfold translate
  congr 1
  refine SortedMap.translate_undone fun l keys hkeys => ⟨rfl, ?_⟩
  refine SortedMap.translate_undone fun k v hv => ⟨h l k (lists_iff.mpr ⟨keys, hkeys, ?_⟩), rfl⟩
  exact SortedMap.mem_keys_iff.mpr ⟨v, hv⟩

end Translate

/-! ## Equal indexes -/

/-- A tight index is determined by the pairs it lists. -/
theorem Tight.ext (h : index.Tight) (h' : index'.Tight)
    (hlists : ∀ l k, index.Lists l k ↔ index'.Lists l k) : index = index' := by
  have hsame : ∀ {index index' : LabelIndex}, index.Tight →
      (∀ l k, index.Lists l k ↔ index'.Lists l k) → ∀ l keys,
      index.postings.get? l = some keys → index'.postings.get? l = some keys := by
    intro index index' h hlists l keys hkeys
    obtain ⟨k, hk⟩ := isEmpty_eq_false.mp (h l keys hkeys)
    obtain ⟨keys', hkeys', -⟩ := lists_iff.mp ((hlists l k).mp (lists_iff.mpr ⟨keys, hkeys, hk⟩))
    have hmem : ∀ k, k ∈ keys.keys ↔ k ∈ keys'.keys := fun k => by
      simpa [lists_iff, hkeys, hkeys'] using hlists l k
    have heq : keys = keys' := SortedMap.ext_get? fun k => Option.ext fun u => by
      have hunit : ∀ {keys : KeySet}, keys.get? k = some u ↔ k ∈ keys.keys := by
        intro keys
        refine ⟨fun h => SortedMap.mem_keys_iff.mpr ⟨u, h⟩, fun h => ?_⟩
        obtain ⟨_, hv⟩ := SortedMap.mem_keys_iff.mp h
        exact hv
      rw [hunit, hunit, hmem]
    rw [hkeys', heq]
  have hpostings : index.postings = index'.postings := SortedMap.ext_get? fun l => Option.ext fun
    keys => ⟨hsame h hlists l keys, hsame h' (fun l k => (hlists l k).symm) l keys⟩
  cases index
  cases index'
  cases hpostings
  rfl

end LabelIndex

end SeriesStore
