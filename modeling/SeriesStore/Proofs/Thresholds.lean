import Mathlib.Algebra.Ring.Nat
import SeriesStore.SplitThreshold

/-!
# The least split threshold

Rounding takes no more than one part in 2⁵² off a number, which is little beside
the fifth that the factor adds. A chunk may therefore fill its budget before it
is cut, and one that is cut is larger than a single sample.

Results:
1. `le_nearest`: what rounding may take off a number.
2. `le_splitThreshold`: of the fifth, at least three sixteenths are left.
3. `nineteen_le_splitThreshold`, `budget_le_splitThreshold`: the split threshold is no less
   than 19 bytes, and no less than the budget.
-/

namespace SeriesStore

namespace Rounding

theorem le_divNearest (n unit : Nat) : n / unit ≤ divNearest n unit := by
  simp only [divNearest]
  split <;> omega

theorem lastPlace_eq (n : Nat) : lastPlace n = 2 ^ (n.log2 + 1 - digits) := Nat.one_shiftLeft _

/-- The unit of the last place is one, or at most one part in 2⁵². -/
theorem lastPlace_le (n : Nat) : lastPlace n = 1 ∨ lastPlace n * 2 ^ 52 ≤ n := by
  rw [lastPlace_eq]
  by_cases hshort : n.log2 + 1 ≤ digits
  · rw [Nat.sub_eq_zero_of_le hshort]
    exact .inl rfl
  · have hn : n ≠ 0 := by
      rintro rfl
      exact hshort (by decide)
    have hplace : n.log2 + 1 - digits + 52 = n.log2 := by
      unfold digits at *
      omega
    rw [← Nat.pow_add, hplace]
    exact .inr ((Nat.le_log2 hn).mp (Nat.le_refl _))

/-- Rounding takes at most one part in 2⁵² off a number. -/
theorem le_nearest (n : Nat) : n * 2 ^ 52 ≤ nearest n * 2 ^ 52 + n := by
  have hquot : n / lastPlace n * lastPlace n ≤ nearest n :=
    Nat.mul_le_mul_right _ (le_divNearest _ _)
  rcases lastPlace_le n with hone | hunit
  · rw [hone, Nat.div_one] at hquot
    omega
  · have hpos : 0 < lastPlace n := by
      rw [lastPlace_eq]
      exact Nat.two_pow_pos _
    have hrest : n % lastPlace n * 2 ^ 52 ≤ n :=
      Nat.le_trans (Nat.mul_le_mul_right _ (Nat.le_of_lt (Nat.mod_lt n hpos))) hunit
    calc
      n * 2 ^ 52 = n / lastPlace n * lastPlace n * 2 ^ 52 + n % lastPlace n * 2 ^ 52 := by
        rw [← Nat.add_mul, Nat.div_add_mod']
      _ ≤ nearest n * 2 ^ 52 + n := Nat.add_le_add (Nat.mul_le_mul_right _ hquot) hrest

end Rounding

/-- Of the fifth by which the threshold exceeds the budget, the two roundings and the
cut of the fraction leave at least three sixteenths. -/
theorem le_splitThreshold (budget : Nat) :
    min (budget * 19 / 16) (UInt64.size - 1) ≤ splitThreshold budget := by
  have hbudget := Rounding.le_nearest budget
  have hproduct := Rounding.le_nearest (Rounding.nearest budget * splitSignificand)
  have hfactor : splitSignificand = 5404319552844595 := by decide
  unfold splitThreshold
  rw [Nat.shiftRight_eq_div_pow]
  rw [hfactor] at hproduct ⊢
  omega

/-- A budget for one plain sample or more has a threshold of 19 or more. -/
theorem nineteen_le_splitThreshold {budget : Nat} (h : 16 ≤ budget) :
    19 ≤ splitThreshold budget := by
  have hleast := le_splitThreshold budget
  have hword : 19 ≤ UInt64.size - 1 := by decide
  omega

/-- A chunk is not cut before its budget is full. -/
theorem budget_le_splitThreshold {budget : Nat} (h : budget < UInt64.size) :
    budget ≤ splitThreshold budget := by
  have hleast := le_splitThreshold budget
  omega

end SeriesStore
