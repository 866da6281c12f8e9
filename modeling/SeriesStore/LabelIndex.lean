import SeriesStore.Label
import SeriesStore.SortedMap

/-!
# The label index

The index answers which series carry a label. A label has a posting, the set of
the keys that carry it, for as long as there is such a key.
-/

namespace SeriesStore

/-- A finite set of keys, ascending. -/
abbrev KeySet := SortedMap String Unit

/-- For each label the keys that carry it. -/
structure LabelIndex where
  postings : SortedMap Label KeySet := .empty
  deriving DecidableEq, Inhabited

namespace LabelIndex

/-- The keys that carry a label. -/
def posting (index : LabelIndex) (label : Label) : KeySet :=
  (index.postings.get? label).getD .empty

/-- The keys that carry a label, ascending. -/
def keysFor (index : LabelIndex) (label : Label) : List String := (index.posting label).keys

/-- How many labels are carried by a key. -/
def labelCount (index : LabelIndex) : Nat := index.postings.size

/-- Notes that a key carries a label. -/
def addLabel (key : String) (index : LabelIndex) (label : Label) : LabelIndex :=
  ⟨index.postings.insert label ((index.posting label).insert key ())⟩

/-- Notes that a key no longer carries a label. A posting without keys goes. -/
def removeLabel (key : String) (index : LabelIndex) (label : Label) : LabelIndex :=
  let keys := (index.posting label).erase key
  ⟨if keys.isEmpty then index.postings.erase label else index.postings.insert label keys⟩

/-- Notes that a key carries some labels. -/
def add (index : LabelIndex) (key : String) (labels : List Label) : LabelIndex :=
  labels.foldl (addLabel key) index

/-- Notes that a key no longer carries some labels. -/
def remove (index : LabelIndex) (key : String) (labels : List Label) : LabelIndex :=
  labels.foldl (removeLabel key) index

end LabelIndex

end SeriesStore
