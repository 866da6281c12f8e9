import SeriesStore.Value

/-!
# Documents

Configuration and summaries are kept as documents: trees of records, lists, texts
and numbers. Reading a document is strict about the kind of every value that it
looks at and ignores fields that it does not know.
-/

namespace SeriesStore

/-- A tree of records, lists, texts and numbers. -/
inductive Document
  | null
  | truth (b : Bool)
  -- A number that is written as a whole one.
  | whole (n : Int)
  -- Any other number.
  | decimal (v : Value)
  | text (s : String)
  | list (items : List Document)
  | record (fields : List (String × Document))
  deriving Inhabited

namespace Document

/-! ## Writing -/

/-- A 64-bit number. -/
def word (n : UInt64) : Document := whole n.toNat

/-- A text that may be absent. -/
def optionalText : Option String → Document
  | none => null
  | some s => text s

/-! ## Reading -/

/-- A text. -/
def text? : Document → Option String
  | text s => some s
  | _ => none

/-- A text that may be absent. -/
def optionalText? : Document → Option (Option String)
  | null => some none
  | text s => some (some s)
  | _ => none

/-- A whole number of 64 bits. -/
def word? : Document → Option UInt64
  | whole n => if 0 ≤ n ∧ n.toNat < UInt64.size then some (UInt64.ofNat n.toNat) else none
  | _ => none

/-- A number of any kind. -/
def number? : Document → Option Value
  | whole n => some (.ofInt n)
  | decimal v => some v
  | _ => none

/-- A list of what `read` reads. -/
def list? {α : Type} (read : Document → Option α) : Document → Option (List α)
  | list items => items.mapM read
  | _ => none

/-- The fields of a record. -/
def fields? : Document → Option (List (String × Document))
  | record fields => some fields
  | _ => none

/-- The field `name`, which has to be there. -/
def required {α : Type} (fields : List (String × Document)) (name : String)
    (read : Document → Option α) : Option α :=
  (fields.lookup name).bind read

/-- The field `name`, or `preset` where it is missing. -/
def optional {α : Type} (fields : List (String × Document)) (name : String) (preset : α)
    (read : Document → Option α) : Option α :=
  match fields.lookup name with
  | none => some preset
  | some d => read d

end Document

end SeriesStore
