import SeriesStore.Rounding
import SeriesStore.Value

/-!
# The split threshold

A chunk that has grown past its budget by a fifth is cut before the next write
into it. The threshold is the binary64 product of the budget and the factor,
without its fraction.
-/

namespace SeriesStore

/-- The factor: 1.2, to the nearest binary64 value. -/
def splitFactor : Value := ⟨0x3ff3333333333333⟩

/-- The significand of the factor, in units of 2⁻⁵². -/
def splitSignificand : Nat := (1 <<< 52) + splitFactor.bits.toNat % (1 <<< 52)

/-- The most bytes that a chunk with this budget holds without being cut. -/
def splitThreshold (budget : Nat) : Nat :=
  min (Rounding.nearest (Rounding.nearest budget * splitSignificand) >>> 52) (UInt64.size - 1)

end SeriesStore
