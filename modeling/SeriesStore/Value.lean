import SeriesStore.Arithmetic

/-!
# Sample values

A value is a binary64 bit pattern. Storing and reading a value never changes its
bits, whatever they are; only arithmetic reads a pattern as a number.

Arithmetic is that of binary64, with two conventions for patterns that are no
numbers: a sum, difference, product or quotient passes such an operand on, while
a minimum or maximum ignores it.
-/

namespace SeriesStore

/-- A binary64 value, held as its 64 bits. -/
structure Value where
  bits : UInt64
  deriving DecidableEq, Inhabited

namespace Value

/-- The number that the pattern stands for. -/
def toFloat (v : Value) : Float := Float.ofBits v.bits

/-- The pattern of a number. -/
def ofFloat (x : Float) : Value := ⟨x.toBits⟩

/-- The pattern of the number nearest to a whole one. -/
def ofInt (n : Int) : Value := ofFloat (Float.ofInt n)

/-- The pattern is no number: all exponent bits are set and the fraction is not
zero. -/
def isNaN (v : Value) : Bool := (v.bits &&& 0x7fffffffffffffff) > 0x7ff0000000000000

/-- The pattern of an operation on numbers that has no numeric result, such as
`∞ - ∞` or the root of a negative number. -/
def indeterminate : Value := ⟨0xfff8000000000000⟩

/-- The pattern of a computed number. -/
def ofResult (x : Float) : Value := if x.isNaN then indeterminate else ofFloat x

/-- A binary operation on patterns: an operand that is no number is the result,
the left one first; otherwise the operation is that of the numbers. -/
def lift₂ (op : Float → Float → Float) (a b : Value) : Value :=
  if a.isNaN then a
  else if b.isNaN then b
  else ofResult (op a.toFloat b.toFloat)

/-- The smaller of two values; an operand that is no number is ignored. -/
def min (a b : Value) : Value :=
  if a.isNaN then b
  else if b.isNaN then a
  else if b.toFloat < a.toFloat then b
  else a

/-- The larger of two values; an operand that is no number is ignored. -/
def max (a b : Value) : Value :=
  if a.isNaN then b
  else if b.isNaN then a
  else if a.toFloat < b.toFloat then b
  else a

/-- The square root; a pattern that is no number is kept. -/
def sqrt (a : Value) : Value := if a.isNaN then a else ofResult a.toFloat.sqrt

instance : Arithmetic Value where
  zero := ⟨0⟩
  natCast n := ofFloat (Float.ofNat n)
  add := lift₂ (· + ·)
  sub := lift₂ (· - ·)
  mul := lift₂ (· * ·)
  div := lift₂ (· / ·)
  min := min
  max := max
  sqrt := sqrt

end Value

end SeriesStore
