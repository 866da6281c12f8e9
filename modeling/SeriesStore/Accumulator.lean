import SeriesStore.Aggregation
import SeriesStore.Arithmetic

/-!
# Accumulators

An accumulator takes values one by one and knows their aggregate at any time. It
holds no more than the aggregation needs; the variance is kept as a running mean
and the sum of squared distances from it.

The values are those of any `Arithmetic`, so what an accumulator computes can
also be read over exact numbers.
-/

namespace SeriesStore

/-- The running mean of some values and the sum of their squared distances from
it. -/
structure Moments (α : Type) where
  count : Nat
  mean : α
  -- The sum of their squared distances from the mean.
  squares : α
  deriving DecidableEq

namespace Moments

variable {α : Type} [Arithmetic α]

/-- No values. -/
def empty : Moments α := ⟨0, 0, 0⟩

/-- One more value: the mean moves by its share of the distance, and the squares
grow by the product of the distances from the old and the new mean. -/
def add (m : Moments α) (x : α) : Moments α :=
  let count := m.count + 1
  let distance := x - m.mean
  let mean := m.mean + distance / (count : α)
  ⟨count, mean, m.squares + distance * (x - mean)⟩

/-- The variance of the values, as a population or as a sample of one. A single
value has none. -/
def variance? (m : Moments α) (ofSample : Bool) : Option α :=
  match m.count with
  | 0 => none
  | 1 => some 0
  | n + 2 => some (m.squares / ((if ofSample then n + 1 else n + 2 : Nat) : α))

end Moments

/-- What is kept of the values seen so far. -/
inductive Accumulator (α : Type)
  | min (least : Option α)
  | max (greatest : Option α)
  | sum (total : α) (count : Nat)
  | mean (total : α) (count : Nat)
  | count (count : Nat)
  | first (value : Option α)
  | last (value : Option α)
  | range (bounds : Option (α × α))
  -- The moments of the values, for their variance.
  | variance (moments : Moments α) (ofSample : Bool)
  | deviation (moments : Moments α) (ofSample : Bool)
  deriving DecidableEq

namespace Accumulator

variable {α : Type} [Arithmetic α]

/-- The accumulator of an aggregation, before any value. -/
def start : Aggregation → Accumulator α
  | .min => min none
  | .max => max none
  | .sum => sum 0 0
  | .avg => mean 0 0
  | .count => count 0
  | .first => first none
  | .last => last none
  | .range => range none
  | .varP => variance .empty false
  | .varS => variance .empty true
  | .stdP => deviation .empty false
  | .stdS => deviation .empty true

/-- Takes one more value. -/
def add (a : Accumulator α) (x : α) : Accumulator α :=
  match a with
  | min none => min (some x)
  | min (some least) => min (some (Min.min least x))
  | max none => max (some x)
  | max (some greatest) => max (some (Max.max greatest x))
  | sum total n => sum (total + x) (n + 1)
  | mean total n => mean (total + x) (n + 1)
  | count n => count (n + 1)
  | first none => first (some x)
  | first (some value) => first (some value)
  | last _ => last (some x)
  | range none => range (some (x, x))
  | range (some (least, greatest)) => range (some (Min.min least x, Max.max greatest x))
  | variance m ofSample => variance (m.add x) ofSample
  | deviation m ofSample => deviation (m.add x) ofSample

/-- The aggregate of the values; there is none before the first. -/
def result? : Accumulator α → Option α
  | min least => least
  | max greatest => greatest
  | sum total n => if n = 0 then none else some total
  | mean total n => if n = 0 then none else some (total / (n : α))
  | count n => if n = 0 then none else some (n : α)
  | first value => value
  | last value => value
  | range bounds => bounds.map fun (least, greatest) => greatest - least
  | variance m ofSample => m.variance? ofSample
  | deviation m ofSample => (m.variance? ofSample).map Arithmetic.sqrt

/-- Forgets all values, but not what is to be computed of the next ones. -/
def reset : Accumulator α → Accumulator α
  | min _ => min none
  | max _ => max none
  | sum _ _ => sum 0 0
  | mean _ _ => mean 0 0
  | count _ => count 0
  | first _ => first none
  | last _ => last none
  | range _ => range none
  | variance _ ofSample => variance .empty ofSample
  | deviation _ ofSample => deviation .empty ofSample

/-- The accumulator of a list of values, in their order. -/
def ofList (aggregation : Aggregation) (values : List α) : Accumulator α :=
  values.foldl add (start aggregation)

end Accumulator

end SeriesStore
