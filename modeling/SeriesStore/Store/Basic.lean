import SeriesStore.LabelIndex
import SeriesStore.Series.Writing
import SeriesStore.Series.Summary

/-!
# Stores

A store holds series by their keys and an index of their labels.
-/

namespace SeriesStore

/-- Series by their keys, and the index of their labels. -/
structure Store where
  -- What new series inherit.
  config : StoreConfig
  series : SortedMap String Series := .empty
  index : LabelIndex := {}
  deriving DecidableEq

namespace Store

/-- A change of a store that can fail. What was changed before a failure
stays. -/
abbrev Update := EStateM StoreError Store

/-- The series with a key. -/
def get? (st : Store) (key : String) : Option Series := st.series.get? key

/-- There is a series with this key. -/
def contains (st : Store) (key : String) : Bool := st.series.contains key

/-- The series with a key, which has to exist. -/
def find (st : Store) (key : String) : Except StoreError Series :=
  match st.get? key with
  | none => .error (.seriesNotFound key)
  | some s => .ok s

/-- Puts a series under a key. -/
def put (st : Store) (key : String) (s : Series) : Store :=
  { st with series := st.series.insert key s }

/-- Changes the series with a key, if there is one. -/
def alter (st : Store) (key : String) (f : Series → Series) : Store :=
  { st with series := st.series.modify key f }

/-- The series with a key, which has to exist. -/
def lookUp (key : String) : Update Series := do MonadExcept.ofExcept ((← get).find key)

/-- Runs a change of the series with a key, which has to exist. -/
def within {α : Type} (key : String) (change : Series.Update α) : Update α := fun st =>
  match st.find key with
  | .error e => .error e st
  | .ok s =>
    match change s with
    | .ok a s => .ok a (st.put key s)
    | .error e s => .error e (st.put key s)

end Store

end SeriesStore
