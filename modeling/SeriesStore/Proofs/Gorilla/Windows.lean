import SeriesStore.Gorilla.Code
import SeriesStore.Proofs.Words

/-!
# Windows of a word

A window that shows every set bit of a word loses nothing: the bits in it, put
back in their place, are the word again.

Results:
1. `place_cut`, `cut_lt`: the bits in a window fit its width and give the word
   back.
2. `tight_shows`, `shows_of_covers`: the windows that a code uses show every set
   bit.
3. `ofBounds_tight`: the written bounds of a tightest window are read back as that
   window, a width of 64 being written as 0.
-/

namespace SeriesStore.Gorilla.Window

/-- The window is not empty. -/
def Proper (w : Window) : Prop := w.leading + w.trailing < 64

/-- All set bits of the word lie in the window. -/
structure Shows (w : Window) (word : UInt64) : Prop where
  above : word.toNat < 2 ^ (64 - w.leading)
  below : 2 ^ w.trailing ∣ word.toNat

theorem width_le (w : Window) : w.width ≤ 64 := by
  unfold width
  omega

theorem toNat_trailing {w : Window} (hw : w.Proper) :
    w.trailing.toUInt64.toNat % 64 = w.trailing := by
  unfold Proper at hw
  rw [toNat_toUInt64 (by omega), Nat.mod_eq_of_lt (by omega)]

theorem toNat_cut {w : Window} (hw : w.Proper) (word : UInt64) :
    (w.cut word).toNat = word.toNat / 2 ^ w.trailing := by
  unfold cut
  rw [UInt64.toNat_shiftRight, toNat_trailing hw, Nat.shiftRight_eq_div_pow]

/-- The bits in a window fit its width. -/
theorem cut_lt {w : Window} {word : UInt64} (hw : w.Proper) (h : w.Shows word) :
    (w.cut word).toNat < 2 ^ w.width := by
  rw [toNat_cut hw, Nat.div_lt_iff_lt_mul (Nat.two_pow_pos _), ← Nat.pow_add]
  have hexp : w.width + w.trailing = 64 - w.leading := by
    unfold Proper at hw
    unfold width
    omega
  rw [hexp]
  exact h.above

/-- The bits in a window, put back in their place, are the word. -/
theorem place_cut {w : Window} {word : UInt64} (hw : w.Proper) (h : w.Shows word) :
    w.place (w.cut word) = word := by
  apply UInt64.toNat_inj.mp
  rw [place, UInt64.toNat_shiftLeft, toNat_trailing hw, toNat_cut hw, Nat.shiftLeft_eq,
    Nat.div_mul_cancel h.below]
  exact Nat.mod_eq_of_lt word.toNat_lt

theorem tight_proper {word : UInt64} (h : word ≠ 0) : (tight word).Proper := by
  have hsum := leadingZeros_add_trailingZeros h
  unfold Proper
  simp only [tight]
  omega

theorem tight_shows (word : UInt64) : (tight word).Shows word := by
  refine ⟨Nat.lt_of_lt_of_le (toNat_lt_of_leadingZeros word) ?_, dvd_of_trailingZeros word⟩
  apply Nat.pow_le_pow_right (by decide)
  simp only [tight]
  omega

theorem shows_of_covers {w : Window} {word : UInt64} (h : w.covers word = true) :
    w.Shows word := by
  unfold covers at h
  simp only [Bool.and_eq_true, decide_eq_true_eq] at h
  obtain ⟨hleading, htrailing⟩ := h
  have htight := tight_shows word
  constructor
  · exact Nat.lt_of_lt_of_le htight.above (Nat.pow_le_pow_right (by decide) (by omega))
  · exact Nat.dvd_trans (Nat.pow_dvd_pow 2 htrailing) htight.below

theorem tight_leading_lt (word : UInt64) : (tight word).leading.toUInt64.toNat < 2 ^ 5 := by
  have hle : (tight word).leading ≤ 31 := Nat.min_le_right _ _
  rw [toNat_toUInt64 (by omega)]
  omega

/-- The bounds of a tightest window are read back from five and six bits. -/
theorem ofBounds_tight {word : UInt64} (h : word ≠ 0) :
    ofBounds (tight word).leading.toUInt64.toNat ((tight word).width.toUInt64.toNat % 2 ^ 6) =
      .ok (tight word) := by
  have hsum := tight_proper h
  have hle : (tight word).leading ≤ 31 := Nat.min_le_right _ _
  generalize tight word = w at hsum hle
  obtain ⟨leading, trailing⟩ := w
  simp only [Proper] at hsum hle
  show ofBounds leading.toUInt64.toNat ((64 - leading - trailing).toUInt64.toNat % 2 ^ 6) = _
  rw [toNat_toUInt64 (by omega), toNat_toUInt64 (by omega)]
  have hread : (if (64 - leading - trailing) % 2 ^ 6 = 0 then 64
      else (64 - leading - trailing) % 2 ^ 6) = 64 - leading - trailing := by
    split <;> omega
  unfold ofBounds
  simp only [hread]
  rw [if_neg (by omega)]
  congr 2
  omega

end SeriesStore.Gorilla.Window
