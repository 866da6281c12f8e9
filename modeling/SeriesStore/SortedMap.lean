/-!
# Sorted maps

A `SortedMap` holds one value for each of finitely many keys, in ascending order
of the keys. Its entries are a list that carries the proof of its order, so equal
maps have equal lists, and a look at the neighbours of a key is a look into the
list.
-/

namespace SeriesStore

/-- Finitely many keys with a value each, in ascending order of the keys. -/
structure SortedMap (κ : Type) [Ord κ] (α : Type) where
  entries : List (κ × α)
  sorted : entries.Pairwise fun a b => compare a.1 b.1 = .lt

namespace SortedMap

variable {κ α : Type} [Ord κ]

/-- No keys. -/
def empty : SortedMap κ α := ⟨[], .nil⟩

instance : Inhabited (SortedMap κ α) := ⟨empty⟩

instance [DecidableEq κ] [DecidableEq α] : DecidableEq (SortedMap κ α) := fun a b =>
  decidable_of_iff (a.entries = b.entries)
    ⟨fun h => by cases a; cases b; cases h; rfl, fun h => h ▸ rfl⟩

/-! ## Reading -/

/-- The entry has a key below `k`. -/
def isBelow (k : κ) (e : κ × α) : Bool := compare e.1 k == .lt

/-- The entry has the key `k`. -/
def isAt (k : κ) (e : κ × α) : Bool := compare e.1 k == .eq

/-- The entry has a key above `k`. -/
def isAbove (k : κ) (e : κ × α) : Bool := compare e.1 k == .gt

/-- How many keys there are. -/
def size (m : SortedMap κ α) : Nat := m.entries.length

/-- There is no key. -/
def isEmpty (m : SortedMap κ α) : Bool := m.entries.isEmpty

/-- The keys, ascending. -/
def keys (m : SortedMap κ α) : List κ := m.entries.map (·.1)

/-- The values, in the order of their keys. -/
def values (m : SortedMap κ α) : List α := m.entries.map (·.2)

/-- The value of a key. -/
def get? (m : SortedMap κ α) (k : κ) : Option α := (m.entries.find? (isAt k)).map (·.2)

/-- The key is there. -/
def contains (m : SortedMap κ α) (k : κ) : Bool := m.entries.any (isAt k)

/-- The entry with the least key. -/
def first? (m : SortedMap κ α) : Option (κ × α) := m.entries.head?

/-- The entry with the greatest key. -/
def last? (m : SortedMap κ α) : Option (κ × α) := m.entries.getLast?

/-- The entry with the least key above `k`. -/
def above? (m : SortedMap κ α) (k : κ) : Option (κ × α) := m.entries.find? (isAbove k)

/-- The entry with the greatest key below `k`. -/
def below? (m : SortedMap κ α) (k : κ) : Option (κ × α) := (m.entries.filter (isBelow k)).getLast?

/-- The entry with the greatest key that is not above `k`. -/
def atMost? (m : SortedMap κ α) (k : κ) : Option (κ × α) :=
  (m.entries.filter fun e => !isAbove k e).getLast?

/-! ## Writing -/

/-- Removes a key. -/
def erase (m : SortedMap κ α) (k : κ) : SortedMap κ α where
  entries := m.entries.filter fun e => !isAt k e
  sorted := m.sorted.filter _

/-- Drops entries from the least key up, for as long as their values satisfy
`p`. -/
def dropWhile (m : SortedMap κ α) (p : α → Bool) : SortedMap κ α where
  entries := m.entries.dropWhile fun e => p e.2
  sorted := m.sorted.sublist (List.dropWhile_sublist _)

/-- Changes the value of a key, if it is there. -/
def modify (m : SortedMap κ α) (k : κ) (f : α → α) : SortedMap κ α where
  entries := m.entries.map fun e => if isAt k e then (e.1, f e.2) else e
  sorted := m.sorted.map _ fun a b h => by
    have key : ∀ e : κ × α, (if isAt k e then (e.1, f e.2) else e).1 = e.1 := fun e => by
      split <;> rfl
    rw [key, key]
    exact h

section Lawful

variable [Std.TransOrd κ]

theorem insert_sorted (m : SortedMap κ α) (k : κ) (v : α) :
    (m.entries.filter (isBelow k) ++ (k, v) :: m.entries.filter (isAbove k)).Pairwise
      fun a b => compare a.1 b.1 = .lt := by
  have above : ∀ b ∈ m.entries.filter (isAbove k), compare k b.1 = .lt := fun b hb => by
    have h := (List.mem_filter.mp hb).2
    simp only [isAbove, beq_iff_eq] at h
    exact Std.OrientedCmp.lt_of_gt h
  refine List.pairwise_append.mpr ⟨m.sorted.filter _,
    List.pairwise_cons.mpr ⟨above, m.sorted.filter _⟩, ?_⟩
  intro a ha b hb
  have below : compare a.1 k = .lt := by
    have h := (List.mem_filter.mp ha).2
    simpa only [isBelow, beq_iff_eq] using h
  rcases List.mem_cons.mp hb with rfl | hb
  · exact below
  · exact Std.TransCmp.lt_trans below (above b hb)

/-- Gives a key a value, which replaces the one it had. -/
def insert (m : SortedMap κ α) (k : κ) (v : α) : SortedMap κ α where
  entries := m.entries.filter (isBelow k) ++ (k, v) :: m.entries.filter (isAbove k)
  sorted := m.insert_sorted k v

end Lawful

end SortedMap

end SeriesStore
