/-!
# Labels

A label is a name and a value. Labels are ordered by name and then by value, so
that an index over labels has one order of its entries.
-/

namespace SeriesStore

/-- A label of a series. -/
structure Label where
  name : String
  value : String
  deriving DecidableEq, Inhabited

namespace Label

/-- Labels are compared by name, then by value. -/
instance : Ord Label where
  compare := compareLex (compareOn name) (compareOn value)

instance : Std.TransOrd Label :=
  inferInstanceAs (Std.TransCmp (compareLex (compareOn name) (compareOn value)))

/-- The bytes a label takes: those of its name and value and one separator each. -/
def size (l : Label) : Nat := l.name.utf8ByteSize + l.value.utf8ByteSize + 2

/-- The text shown for a label. -/
def display (l : Label) : String := s!"{l.name}={l.value}"

end Label

end SeriesStore
