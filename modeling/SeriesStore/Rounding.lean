/-!
# Rounding to a binary significand

A natural number is rounded to the nearest one that 53 binary digits can write,
an exact half to the even neighbour. This is how binary64 holds a whole number,
and, as it does not depend on the scale, also how it holds a product.
-/

namespace SeriesStore.Rounding

/-- The binary digits of a significand. -/
def digits : Nat := 53

/-- The quotient by a positive number, rounded to the nearest, an exact half to
the even neighbour. -/
def divNearest (n unit : Nat) : Nat :=
  let quotient := n / unit
  let rest := 2 * (n % unit)
  if rest < unit || (rest == unit && quotient % 2 == 0) then quotient else quotient + 1

/-- The place of the last of the digits that are kept. -/
def lastPlace (n : Nat) : Nat := 1 <<< (n.log2 + 1 - digits)

/-- The nearest number with at most 53 significant binary digits. -/
def nearest (n : Nat) : Nat := divNearest n (lastPlace n) * lastPlace n

end SeriesStore.Rounding
