import Mathlib.Algebra.BigOperators.Ring.List
import Mathlib.Data.Rat.Sqrt
import Mathlib.Tactic.FieldSimp
import Mathlib.Tactic.LinearCombination
import Mathlib.Tactic.Ring
import SeriesStore.Proofs.Accumulators

/-!
# Aggregates of exact numbers

Over exact numbers an accumulator computes what its aggregation is called after. All of them but the
variance keep the aggregate of the values so far, or its parts. The variance is kept up in one pass,
and defined in two: first the mean, then the squared distances from it.

Results:
1. `run_eq_ofList`: an accumulator forgets what has been added before a reset, and nothing else.
2. `squaresAbout_concat`: what one more value adds to the squared distances from the mean.
3. `ofList_eq_summary`: what an accumulator holds after some values.
4. `result?_run`: the aggregate after any calls.
-/

namespace SeriesStore

/-- Numbers with which one counts, compares and calculates exactly. -/
-- A commutative ring with division is a field; that word names a part of a code here.
class ExactNumbers (K : Type) extends CommRing K, Semifield K, LinearOrder K, CharZero K

instance : ExactNumbers ℚ where

/-! ## Aggregates -/

namespace Exact

variable {K : Type} [ExactNumbers K]

/-- The arithmetic of exact numbers, with `root` for the square root. -/
abbrev arithmetic (root : K → K) : Arithmetic K where
  sqrt := root

/-- The mean of some values. -/
def mean (xs : List K) : K := xs.sum / xs.length

/-- The squared distances of some values from a number, summed up. -/
def squaresAbout (c : K) (xs : List K) : K := (xs.map fun x => (x - c) ^ 2).sum

/-- The variance of a population. -/
def populationVariance (xs : List K) : K := squaresAbout (mean xs) xs / xs.length

/-- The variance of a population of which the values are a sample, zero where there is only one. -/
def sampleVariance (xs : List K) : K :=
  if xs.length = 1 then 0 else squaresAbout (mean xs) xs / (xs.length - 1)

/-! ## The mean and the distances from it -/

theorem squaresAbout_eq (c : K) (xs : List K) :
    squaresAbout c xs = (xs.map (· ^ 2)).sum - 2 * c * xs.sum + xs.length * c ^ 2 := by
  induction xs with
  | nil => simp [squaresAbout]
  | cons x xs ih =>
    unfold squaresAbout at ih ⊢
    simp only [List.map_cons, List.sum_cons, ih, List.length_cons, Nat.cast_succ]
    ring

theorem length_mul_mean (xs : List K) : xs.length * mean xs = xs.sum := by
  rcases Nat.eq_zero_or_pos xs.length with hnil | hpos
  · rw [List.length_eq_zero_iff.mp hnil]
    simp
  · have hlen : (xs.length : K) ≠ 0 := Nat.cast_ne_zero.mpr (Nat.ne_of_gt hpos)
    exact mul_div_cancel₀ _ hlen

/-- The mean and one more value determine the next mean. -/
theorem length_mul_mean_concat (xs : List K) (x : K) :
    (xs.length + 1) * mean (xs ++ [x]) = xs.length * mean xs + x := by
  have hnew := length_mul_mean (xs ++ [x])
  rw [List.length_append, List.length_singleton, List.sum_append, List.sum_singleton,
    ← length_mul_mean xs] at hnew
  exact_mod_cast hnew

/-- The mean moves by the share of the new value in its distance. -/
theorem mean_concat (xs : List K) (x : K) :
    mean (xs ++ [x]) = mean xs + (x - mean xs) / ((xs.length + 1 : Nat) : K) := by
  have hlen : ((xs.length + 1 : Nat) : K) ≠ 0 := Nat.cast_ne_zero.mpr (Nat.succ_ne_zero _)
  have hnew := length_mul_mean_concat xs x
  push_cast at hlen ⊢
  field_simp
  linear_combination hnew

/-- One more value adds the product of its distances from the old and from the new mean. -/
theorem squaresAbout_concat (xs : List K) (x : K) :
    squaresAbout (mean (xs ++ [x])) (xs ++ [x]) =
      squaresAbout (mean xs) xs + (x - mean xs) * (x - mean (xs ++ [x])) := by
  have hnew := length_mul_mean_concat xs x
  rw [squaresAbout_eq, squaresAbout_eq, List.map_append, List.sum_append, List.sum_append,
    List.map_singleton, List.sum_singleton, List.sum_singleton, List.length_append,
    List.length_singleton, ← length_mul_mean xs]
  push_cast
  linear_combination (mean (xs ++ [x]) - mean xs) * hnew

end Exact

/-- A number is the aggregate of some values; `root` is taken for the square root. -/
def Aggregation.IsOf {K : Type} [ExactNumbers K] (root : K → K) :
    Aggregation → List K → K → Prop
  | .min, xs, r => IsLeast {x | x ∈ xs} r
  | .max, xs, r => IsGreatest {x | x ∈ xs} r
  | .sum, xs, r => r = xs.sum
  | .avg, xs, r => r = Exact.mean xs
  | .count, xs, r => r = xs.length
  | .first, xs, r => xs.head? = some r
  | .last, xs, r => xs.getLast? = some r
  | .range, xs, r => ∃ least greatest, IsLeast {x | x ∈ xs} least ∧
      IsGreatest {x | x ∈ xs} greatest ∧ r = greatest - least
  | .varP, xs, r => r = Exact.populationVariance xs
  | .varS, xs, r => r = Exact.sampleVariance xs
  | .stdP, xs, r => r = root (Exact.populationVariance xs)
  | .stdS, xs, r => r = root (Exact.sampleVariance xs)

/-! ## What an accumulator holds -/

/-- The moments of some values. -/
def Moments.ofList {K : Type} [ExactNumbers K] (xs : List K) : Moments K :=
  ⟨xs.length, Exact.mean xs, Exact.squaresAbout (Exact.mean xs) xs⟩

theorem min?_concat {K : Type} [Min K] (xs : List K) (x : K) :
    (xs ++ [x]).min? = some (xs.min?.elim x (min · x)) := by
  cases xs with
  | nil => rfl
  | cons y ys => rw [List.cons_append, List.min?_cons', List.foldl_append, List.min?_cons']; rfl

theorem max?_concat {K : Type} [Max K] (xs : List K) (x : K) :
    (xs ++ [x]).max? = some (xs.max?.elim x (max · x)) := by
  cases xs with
  | nil => rfl
  | cons y ys => rw [List.cons_append, List.max?_cons', List.foldl_append, List.max?_cons']; rfl

namespace Accumulator

variable {K : Type} [ExactNumbers K]

/-- What an accumulator is to hold after some values. -/
def summary : Aggregation → List K → Accumulator K
  | .min, xs => min xs.min?
  | .max, xs => max xs.max?
  | .sum, xs => sum xs.sum xs.length
  | .avg, xs => mean xs.sum xs.length
  | .count, xs => count xs.length
  | .first, xs => first xs.head?
  | .last, xs => last xs.getLast?
  | .range, xs => range (xs.min?.bind fun least => xs.max?.map (least, ·))
  | .varP, xs => variance (.ofList xs) false
  | .varS, xs => variance (.ofList xs) true
  | .stdP, xs => deviation (.ofList xs) false
  | .stdS, xs => deviation (.ofList xs) true

variable (root : K → K)

theorem summary_nil (aggregation : Aggregation) :
    letI := Exact.arithmetic root
    summary aggregation ([] : List K) = start aggregation := by
  have hmoments : Moments.ofList ([] : List K) = ⟨0, 0, 0⟩ := by
    simp [Moments.ofList, Exact.mean, Exact.squaresAbout]
  cases aggregation with
  | min | max | sum | avg | count | first | last | range => rfl
  | varP | varS | stdP | stdS =>
    rw [summary, hmoments]
    rfl

/-- One more value changes the moments as the running mean has it. -/
theorem moments_concat (xs : List K) (x : K) :
    letI := Exact.arithmetic root
    Moments.ofList (xs ++ [x]) = (Moments.ofList xs).add x := by
  unfold Moments.ofList Moments.add
  rw [Exact.squaresAbout_concat, List.length_append, List.length_singleton, Exact.mean_concat]

/-- One more value is taken into what the accumulator holds. -/
theorem summary_concat (aggregation : Aggregation) (xs : List K) (x : K) :
    letI := Exact.arithmetic root
    summary aggregation (xs ++ [x]) = (summary aggregation xs).add x := by
  cases aggregation with
  | min =>
    rw [summary, summary, min?_concat]
    cases xs.min? <;> rfl
  | max =>
    rw [summary, summary, max?_concat]
    cases xs.max? <;> rfl
  | sum | avg =>
    rw [summary, summary, List.sum_append, List.sum_singleton, List.length_append]
    rfl
  | count =>
    rw [summary, summary, List.length_append]
    rfl
  | first => cases xs <;> rfl
  | last =>
    rw [summary, summary, List.getLast?_concat]
    rfl
  | range =>
    rw [summary, summary, min?_concat, max?_concat]
    cases xs <;> rfl
  | varP | varS | stdP | stdS =>
    rw [summary, moments_concat root]
    rfl

/-- What an accumulator holds after some values. -/
theorem ofList_eq_summary (aggregation : Aggregation) (xs : List K) :
    letI := Exact.arithmetic root
    ofList aggregation xs = summary aggregation xs := by
  have hgoes (front back : List K) :
      letI := Exact.arithmetic root
      back.foldl add (summary aggregation front) = summary aggregation (front ++ back) := by
    induction back generalizing front with
    | nil => rw [List.append_nil, List.foldl_nil]
    | cons x back ih => rw [List.foldl_cons, ← summary_concat root, ih, List.append_assoc]; rfl
  unfold ofList
  rw [← summary_nil root, hgoes, List.nil_append]

/-! ## What an accumulator answers -/

/-- The moments give either variance. -/
theorem variance?_moments {xs : List K} {ofSample : Bool} {r : K}
    (h : letI := Exact.arithmetic root; (Moments.ofList xs).variance? ofSample = some r) :
    r = if ofSample then Exact.sampleVariance xs else Exact.populationVariance xs := by
  match xs with
  | [] => cases h
  | [x] =>
    cases h
    cases ofSample <;>
      simp [Exact.sampleVariance, Exact.populationVariance, Exact.squaresAbout, Exact.mean]
  | x :: y :: xs =>
    cases h
    cases ofSample with
    | false => rfl
    | true => simp [Exact.sampleVariance, Moments.ofList]

/-- The answer is the aggregate. -/
theorem isOf_of_result? {aggregation : Aggregation} {xs : List K} {r : K}
    (h : letI := Exact.arithmetic root; (summary aggregation xs).result? = some r) :
    aggregation.IsOf root xs r := by
  cases aggregation with
  | min => exact List.min?_eq_some_iff.mp h
  | max => exact List.max?_eq_some_iff.mp h
  | sum | avg | count => exact (Option.some.inj (Option.ite_none_left_eq_some.mp h).2).symm
  | first => exact h
  | last => exact h
  | range =>
    cases hleast : xs.min? with
    | none =>
      rw [summary, hleast] at h
      cases h
    | some least =>
      cases hgreatest : xs.max? with
      | none =>
        rw [summary, hleast, hgreatest] at h
        cases h
      | some greatest =>
        rw [summary, hleast, hgreatest] at h
        cases h
        exact ⟨least, greatest, List.min?_eq_some_iff.mp hleast, List.max?_eq_some_iff.mp hgreatest,
          rfl⟩
  | varP => exact variance?_moments root h
  | varS => exact variance?_moments root h
  | stdP | stdS =>
    obtain ⟨v, hv, rfl⟩ := Option.map_eq_some_iff.mp h
    rw [variance?_moments root hv]
    rfl

/-! ## Calls -/

section Calls

variable {α : Type}

/-- A call on an accumulator. -/
inductive Call (α : Type)
  | add (x : α)
  | reset

def Call.perform [Arithmetic α] (a : Accumulator α) : Call α → Accumulator α
  | add x => a.add x
  | reset => a.reset

/-- An accumulator after some calls. -/
def run [Arithmetic α] (a : Accumulator α) (calls : List (Call α)) : Accumulator α :=
  calls.foldl Call.perform a

/-- The values to be aggregated after a call. -/
def Call.remember (values : List α) : Call α → List α
  | add x => values ++ [x]
  | reset => []

/-- The values that calls have added since the last reset among them. -/
def sinceReset (calls : List (Call α)) : List α := calls.foldl Call.remember []

/-- A call does to an accumulator what it does to the values. -/
theorem perform_ofList [Arithmetic α] (aggregation : Aggregation) (values : List α)
    (call : Call α) :
    call.perform (ofList aggregation values) = ofList aggregation (call.remember values) := by
  cases call with
  | add x => exact (ofList_concat aggregation values x).symm
  | reset => exact reset_ofList aggregation values

/-- A reset leaves an accumulator like a new one. -/
theorem run_eq_ofList [Arithmetic α] (aggregation : Aggregation) (calls : List (Call α)) :
    (start aggregation).run calls = ofList aggregation (sinceReset calls) := by
  have hgoes (values : List α) : (ofList aggregation values).run calls =
      ofList aggregation (calls.foldl Call.remember values) := by
    unfold run
    induction calls generalizing values with
    | nil => rfl
    | cons call calls ih =>
      rw [List.foldl_cons, List.foldl_cons, perform_ofList]
      exact ih _
  exact hgoes []

end Calls

/-- After any additions and resets an accumulator over exact numbers has no answer just where no
value has been added since the last reset; otherwise it answers the aggregate of the values since
then, as mathematics defines it. -/
theorem result?_run (aggregation : Aggregation) (calls : List (Call K)) :
    letI := Exact.arithmetic root
    let result := ((start aggregation).run calls).result?
    (result = none ↔ sinceReset calls = []) ∧
      ∀ r, result = some r → aggregation.IsOf root (sinceReset calls) r := by
  let _ := Exact.arithmetic root
  rw [run_eq_ofList]
  refine ⟨result?_ofList_eq_none, fun r h => isOf_of_result? root ?_⟩
  rwa [ofList_eq_summary root] at h

end Accumulator

/-- The deviation of a sample, taken anew after two resets. -/
theorem Accumulator.result?_run_deviation :
    letI := Exact.arithmetic Rat.sqrt
    let calls : List (Call ℚ) := [.add 5, .reset, .add 100, .add 7, .reset, .add 2, .add 4, .add 6]
    ((start .stdS).run calls).result? = some 2 := by
  let _ := Exact.arithmetic Rat.sqrt
  intro calls
  obtain ⟨hnone, hsome⟩ := result?_run Rat.sqrt .stdS calls
  cases hresult : ((start .stdS).run calls).result? with
  | none => cases hnone.mp hresult
  | some r =>
    have hr : r = Rat.sqrt (Exact.sampleVariance [2, 4, 6]) := hsome r hresult
    have hvariance : Exact.sampleVariance ([2, 4, 6] : List ℚ) = 2 * 2 := by
      norm_num [Exact.sampleVariance, Exact.squaresAbout, Exact.mean]
    rw [hr, hvariance, Rat.sqrt_eq]
    rfl

end SeriesStore
