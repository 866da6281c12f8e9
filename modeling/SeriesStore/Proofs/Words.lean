import Mathlib.Algebra.Ring.Nat
import SeriesStore.Bits.Zeros

/-!
# Words and their bits

A field of a code shows the low bits of a word, most significant first. This
module reads a field back into the word it shows and bounds a word by the zero
bits at its ends.

Results:
1. `wordOf_bitsOf`: the bits of a field spell the word, as far as they show it.
2. `Field.length_bitsOfCode`: the length of a code.
3. `toNat_lt_of_leadingZeros`, `dvd_of_trailingZeros`: what the zero bits at the
   ends of a word say about its number.
4. `leadingZeros_add_trailingZeros`: a word that is not zero has a bit between
   them.
-/

namespace SeriesStore

theorem toNat_toUInt64 {n : Nat} (h : n < 2 ^ 64) : n.toUInt64.toNat = n :=
  UInt64.toNat_ofNat_of_lt' h

/-! ## Fields -/

@[simp] theorem length_bitsOf (word : UInt64) (width : Nat) :
    (bitsOf word width).length = width := by
  induction width with
  | zero => rfl
  | succ width ih => simp [bitsOf, ih]

theorem toNat_pushLow (word : UInt64) (bit : Bool) :
    (pushLow word bit).toNat = (2 * word.toNat + bit.toNat) % 2 ^ 64 := by
  cases bit <;> simp [pushLow, Bool.toUInt64, UInt64.toNat_add, UInt64.toNat_mul]

/-- The low bits of a number are its top one of them and those below. -/
theorem mod_two_pow_succ (n width : Nat) :
    n % 2 ^ (width + 1) = (n.testBit width).toNat * 2 ^ width + n % 2 ^ width := by
  rw [Nat.testBit_eq_decide_div_mod_eq, Nat.pow_succ, Nat.mod_mul, Nat.mul_comm, Nat.add_comm]
  congr 1
  rcases Nat.mod_two_eq_zero_or_one (n / 2 ^ width) with h | h <;> simp [h]

theorem toNat_foldl_pushLow (acc word : UInt64) (width : Nat) :
    ((bitsOf word width).foldl pushLow acc).toNat =
      (acc.toNat * 2 ^ width + word.toNat % 2 ^ width) % 2 ^ 64 := by
  induction width generalizing acc with
  | zero => simp [bitsOf, Nat.mod_one]
  | succ width ih =>
    have hbit : bitAt word width = word.toNat.testBit width := rfl
    rw [bitsOf, List.foldl_cons, ih, toNat_pushLow, mod_two_pow_succ word.toNat, hbit,
      Nat.add_mod, Nat.mod_mul_mod, ← Nat.add_mod]
    congr 1
    rw [Nat.pow_succ, Nat.add_mul]
    generalize word.toNat % 2 ^ width = low
    generalize (word.toNat.testBit width).toNat * 2 ^ width = top
    rw [show 2 * acc.toNat * 2 ^ width = acc.toNat * (2 ^ width * 2) by
      rw [Nat.mul_comm (2 ^ width), ← Nat.mul_assoc, Nat.mul_comm acc.toNat]]
    omega

/-- The bits of a field spell the word modulo the numbers that the field can
show. -/
theorem wordOf_bitsOf (word : UInt64) {width : Nat} (hw : width ≤ 64) :
    (wordOf (bitsOf word width)).toNat = word.toNat % 2 ^ width := by
  unfold wordOf
  rw [toNat_foldl_pushLow]
  have hle : 2 ^ width ≤ 2 ^ 64 := Nat.pow_le_pow_right (by decide) hw
  have hlt : word.toNat % 2 ^ width < 2 ^ width := Nat.mod_lt _ (Nat.two_pow_pos width)
  simp only [UInt64.toNat_zero, Nat.zero_mul, Nat.zero_add]
  exact Nat.mod_eq_of_lt (by omega)

/-- A field that is wide enough for a word spells that word. -/
theorem wordOf_bitsOf_of_lt {word : UInt64} {width : Nat} (hw : width ≤ 64)
    (h : word.toNat < 2 ^ width) : wordOf (bitsOf word width) = word := by
  apply UInt64.toNat_inj.mp
  rw [wordOf_bitsOf word hw, Nat.mod_eq_of_lt h]

namespace Field

@[simp] theorem bits_flag (bit : Bool) : (flag bit).bits = [bit] := by
  cases bit <;> rfl

@[simp] theorem bitsOfCode_nil : bitsOfCode [] = [] := rfl

@[simp] theorem bitsOfCode_cons (f : Field) (code : List Field) :
    bitsOfCode (f :: code) = f.bits ++ bitsOfCode code := by
  simp [bitsOfCode]

@[simp] theorem bitsOfCode_append (a b : List Field) :
    bitsOfCode (a ++ b) = bitsOfCode a ++ bitsOfCode b := by
  simp [bitsOfCode]

/-- A code is as long as its fields are wide. -/
theorem length_bitsOfCode (code : List Field) :
    (bitsOfCode code).length = (code.map (·.width)).sum := by
  induction code with
  | nil => rfl
  | cons f code ih =>
    rw [bitsOfCode_cons, List.length_append, ih, List.map_cons, List.sum_cons]
    exact congrArg (· + _) (length_bitsOf f.value f.width)

end Field

/-! ## Zero bits at the ends -/

/-- The low bits of a word lie below the first one that is set. -/
theorem mod_lt_of_leadingZerosBelow (word : UInt64) (width : Nat) :
    word.toNat % 2 ^ width < 2 ^ (width - leadingZerosBelow word width) := by
  induction width with
  | zero => simp [leadingZerosBelow, Nat.mod_one]
  | succ width ih =>
    unfold leadingZerosBelow
    split
    · exact Nat.mod_lt _ (Nat.two_pow_pos _)
    · next h =>
      have hbit : word.toNat.testBit width = false := eq_false_of_ne_true h
      rw [mod_two_pow_succ, hbit, Nat.add_sub_add_right]
      simpa using ih

theorem toNat_lt_of_leadingZeros (word : UInt64) : word.toNat < 2 ^ (64 - leadingZeros word) := by
  have h := mod_lt_of_leadingZerosBelow word 64
  rwa [Nat.mod_eq_of_lt (by simpa using word.toNat_lt)] at h

/-- A word whose low bits are zero up to place `low` keeps them so up to the
first place that is set. -/
theorem dvd_of_trailingZerosAbove (word : UInt64) (width : Nat) (hw : width ≤ 64)
    (h : 2 ^ (64 - width) ∣ word.toNat) :
    2 ^ (64 - width + trailingZerosAbove word width) ∣ word.toNat := by
  induction width with
  | zero => simpa [trailingZerosAbove] using h
  | succ width ih =>
    unfold trailingZerosAbove
    split
    · simpa using h
    · next hbit =>
      have hplace : 64 - (width + 1) = 63 - width := by omega
      have hbit : word.toNat.testBit (63 - width) = false := eq_false_of_ne_true hbit
      have hmod : word.toNat % 2 ^ (63 - width + 1) = 0 := by
        rw [mod_two_pow_succ, hbit]
        rw [hplace] at h
        simpa using Nat.mod_eq_zero_of_dvd h
      have hnext : 64 - width = 63 - width + 1 := by omega
      have hdvd : 2 ^ (64 - width) ∣ word.toNat := by
        rw [hnext]
        exact Nat.dvd_of_mod_eq_zero hmod
      have hgoal := ih (by omega) hdvd
      rwa [show 64 - (width + 1) + (trailingZerosAbove word width + 1) =
        64 - width + trailingZerosAbove word width by omega]

theorem dvd_of_trailingZeros (word : UInt64) : 2 ^ trailingZeros word ∣ word.toNat := by
  have h := dvd_of_trailingZerosAbove word 64 (Nat.le_refl 64) (by simp)
  simpa [trailingZeros] using h

/-- A word that is not zero has a bit between the zeros at its ends. -/
theorem leadingZeros_add_trailingZeros {word : UInt64} (h : word ≠ 0) :
    leadingZeros word + trailingZeros word < 64 := by
  have hpos : 0 < word.toNat := Nat.pos_of_ne_zero fun h0 => h (UInt64.toNat_inj.mp h0)
  have hle : 2 ^ trailingZeros word ≤ word.toNat := Nat.le_of_dvd hpos (dvd_of_trailingZeros word)
  have hlt := toNat_lt_of_leadingZeros word
  have hexp : trailingZeros word < 64 - leadingZeros word :=
    (Nat.pow_lt_pow_iff_right (by decide)).mp (Nat.lt_of_le_of_lt hle hlt)
  omega

end SeriesStore
