/-!
# Arithmetic of sample values

Merging duplicates and aggregating buckets need only a handful of operations on
values. They are collected in the class `Arithmetic`, so that the accumulators
can be read both over binary64 patterns and over exact numbers.
-/

namespace SeriesStore

/-- The operations on values that merging and aggregating use. -/
class Arithmetic (α : Type) extends
    Zero α, NatCast α, Add α, Sub α, Mul α, Div α, Min α, Max α where
  sqrt : α → α

end SeriesStore
