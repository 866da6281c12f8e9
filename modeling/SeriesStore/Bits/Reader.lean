import SeriesStore.Bits.Field

/-!
# Reading bits

A `BitReader` is a position in a string of bytes. It reads the bits of a byte
from the most significant one down and stops at the end of the bytes.
-/

namespace SeriesStore

/-- A position, in bits, in a string of bytes: its quotient by eight is the place of a byte,
its remainder the offset of a bit from the top of that byte. -/
structure BitReader where
  data : Array UInt8
  position : Nat := 0
  deriving DecidableEq, Inhabited

namespace BitReader

/-- The bit `offset` places below the top of a byte. -/
def bitOfByte (byte : UInt8) (offset : Nat) : Bool := byte.toBitVec.getLsbD (7 - offset)

/-- Reads one bit; there is none at the end of the data. -/
def readBit (r : BitReader) : Option (Bool × BitReader) :=
  match r.data[r.position / 8]? with
  | none => none
  | some byte => some (bitOfByte byte (r.position % 8), { r with position := r.position + 1 })

/-- Reads `width` bits below those of `acc`. -/
def readBelow (acc : UInt64) : Nat → BitReader → Option UInt64 × BitReader
  | 0, r => (some acc, r)
  | width + 1, r =>
    match r.readBit with
    | none => (none, r)
    | some (bit, r) => readBelow (pushLow acc bit) width r

/-- Reads a word of `width` bits, most significant first. Where the data ends
before, there is no word, and the bits that were left are consumed. -/
def readBits (width : Nat) (r : BitReader) : Option UInt64 × BitReader := readBelow 0 width r

end BitReader

end SeriesStore
