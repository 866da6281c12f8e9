import SeriesStore.Bits.Field

/-!
# Zero bits at the ends of a word
-/

namespace SeriesStore

/-- How many of the `width` bits below bit `width` are zero, seen from the top
down to the first that is set. -/
def leadingZerosBelow (word : UInt64) : Nat → Nat
  | 0 => 0
  | width + 1 => if bitAt word width then 0 else leadingZerosBelow word width + 1

/-- The zero bits above the highest set bit of a word. -/
def leadingZeros (word : UInt64) : Nat := leadingZerosBelow word 64

/-- How many of the `width` bits below bit 64 are zero, seen from the bottom one
up to the first that is set. -/
def trailingZerosAbove (word : UInt64) : Nat → Nat
  | 0 => 0
  | width + 1 => if bitAt word (63 - width) then 0 else trailingZerosAbove word width + 1

/-- The zero bits below the lowest set bit of a word. -/
def trailingZeros (word : UInt64) : Nat := trailingZerosAbove word 64

end SeriesStore
