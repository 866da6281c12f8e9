import SeriesStore.CaseFold
import SeriesStore.Error

/-!
# Duplicate policies

A write at a timestamp that already holds a sample is resolved by a policy. A
policy can be given with the write, with the series and with the store; the
first one that is set decides.
-/

namespace SeriesStore

/-- What happens to a write at a timestamp that already holds a sample. -/
inductive DuplicatePolicy
  -- Nothing is decided here; the next level is asked.
  | unset
  | block
  | last
  | first
  | min
  | max
  | sum
  deriving DecidableEq, Inhabited

namespace DuplicatePolicy

/-- All policies. -/
def all : List DuplicatePolicy := [unset, block, last, first, min, max, sum]

/-- The name of a policy. -/
def name : DuplicatePolicy → String
  | unset => "none"
  | block => "block"
  | last => "last"
  | first => "first"
  | min => "min"
  | max => "max"
  | sum => "sum"

/-- The policy with exactly this name. -/
def ofName? (s : String) : Option DuplicatePolicy := all.find? (·.name == s)

/-- The policy with this name in any letter case. -/
def parse (s : String) : Except StoreError DuplicatePolicy :=
  match ofName? (foldCase s) with
  | some p => .ok p
  | none => .error (.invalidArgument s!"Unknown duplicate policy: {s}")

/-- `p` where it is set, and `q` otherwise. -/
def orElse (p q : DuplicatePolicy) : DuplicatePolicy := if p = unset then q else p

/-- The policy of a write: the first that is set of the one given with it, that
of the series and that of the store. -/
def resolve (override series default : DuplicatePolicy) : DuplicatePolicy :=
  override.orElse (series.orElse default)

/-- The policy rejects duplicates. One that is unset at every level does. -/
def blocks : DuplicatePolicy → Bool
  | unset | block => true
  | _ => false

/-- The value to store where `incoming` meets the stored sample `existing`. -/
def merge (p : DuplicatePolicy) (existing incoming : Sample) : Except StoreError Value :=
  match p with
  | unset | block => .error (.blocked incoming.timestamp)
  | last => .ok incoming.value
  | first => .ok existing.value
  | min => .ok (Min.min existing.value incoming.value)
  | max => .ok (Max.max existing.value incoming.value)
  | sum => .ok (existing.value + incoming.value)

end DuplicatePolicy

end SeriesStore
