/-!
# Bit fields

A bit field is the low bits of a 64-bit word, most significant bit first. Codes
of variable length are lists of fields.
-/

namespace SeriesStore

/-- Bit `i` of a word, counted from the least significant. -/
def bitAt (word : UInt64) (i : Nat) : Bool := word.toBitVec.getLsbD i

/-- The low `width` bits of a word, most significant first. -/
def bitsOf (word : UInt64) : Nat → List Bool
  | 0 => []
  | width + 1 => bitAt word width :: bitsOf word width

/-- A word with one more bit below the others. -/
def pushLow (word : UInt64) (bit : Bool) : UInt64 := 2 * word + bit.toUInt64

/-- The word that a list of bits spells, most significant first. -/
def wordOf (bits : List Bool) : UInt64 := bits.foldl pushLow 0

/-- A field of a code: the low `width` bits of `value`. -/
structure Field where
  width : Nat
  -- The word whose low bits it shows.
  value : UInt64
  deriving DecidableEq, Inhabited

namespace Field

/-- A field of one bit. -/
def flag (bit : Bool) : Field := ⟨1, bit.toUInt64⟩

/-- The bits of a field. -/
def bits (f : Field) : List Bool := bitsOf f.value f.width

/-- The bits of a code. -/
def bitsOfCode (code : List Field) : List Bool := code.flatMap bits

end Field

end SeriesStore
