import Mathlib.Algebra.Ring.Nat
import SeriesStore.Directory
import SeriesStore.Proofs.SortedMaps

/-!
# The order of chunk keys

The bytes of a key spell its timestamp in base 256, the most significant byte
first, so keys are ordered as their timestamps are.

Results:
1. `compare_bytes`: strings of bytes of one length are ordered as the numbers
   they spell.
2. `compare_ofTimestamp`, `ofTimestamp_inj`: the order and the identity of keys
   are those of their timestamps.
-/

namespace SeriesStore

/-- The number that some bytes spell, most significant first. -/
def spelled : List UInt8 → Nat
  | [] => 0
  | byte :: bytes => byte.toNat * 256 ^ bytes.length + spelled bytes

theorem spelled_lt (bytes : List UInt8) : spelled bytes < 256 ^ bytes.length := by
  induction bytes with
  | nil => simp [spelled]
  | cons byte bytes ih =>
    have hbyte : byte.toNat + 1 ≤ 256 := byte.toNat_lt
    have hmul := Nat.mul_le_mul_right (256 ^ bytes.length) hbyte
    unfold spelled
    rw [List.length_cons, Nat.pow_succ]
    rw [Nat.add_mul] at hmul
    omega

/-- Strings of bytes of one length are ordered as the numbers they spell. -/
theorem compare_bytes {a b : List UInt8} (h : a.length = b.length) :
    compare a b = .lt ↔ spelled a < spelled b := by
  induction a generalizing b with
  | nil =>
    cases b with
    | nil => simp [spelled]
    | cons y b => simp at h
  | cons x a ih =>
    cases b with
    | nil => simp at h
    | cons y b =>
      have hlen : a.length = b.length := by simpa using h
      have ha := spelled_lt a
      have hb := spelled_lt b
      rw [List.compare_cons_cons, Ordering.then_eq_lt, ih hlen, Std.compare_eq_lt,
        Std.LawfulEqOrd.compare_eq_iff_eq, spelled, spelled, hlen, UInt8.lt_iff_toNat_lt,
        ← UInt8.toNat_inj]
      rw [hlen] at ha
      generalize 256 ^ b.length = unit at ha hb
      rcases Nat.lt_trichotomy x.toNat y.toNat with hlt | heq | hgt
      · have hmul := Nat.mul_le_mul_right unit (Nat.succ_le_of_lt hlt)
        rw [Nat.succ_mul] at hmul
        omega
      · rw [heq]
        omega
      · have hmul := Nat.mul_le_mul_right unit (Nat.succ_le_of_lt hgt)
        rw [Nat.succ_mul] at hmul
        omega

namespace ChunkKey

theorem spelled_ofTimestamp (t : Timestamp) : spelled (ofTimestamp t).bytes = t.toNat := by
  have hlt := t.toNat_lt
  simp only [ofTimestamp, List.map_cons, List.map_nil, spelled, List.length_cons, List.length_nil,
    UInt64.toNat_toUInt8, UInt64.toNat_shiftRight, UInt64.toNat_ofNat, Nat.shiftRight_eq_div_pow,
    Nat.reducePow, Nat.reduceMod]
  omega

/-- Keys are ordered as their timestamps are. -/
theorem compare_ofTimestamp {t u : Timestamp} :
    compare (ofTimestamp t) (ofTimestamp u) = .lt ↔ t < u := by
  rw [UInt64.lt_iff_toNat_lt, ← spelled_ofTimestamp t, ← spelled_ofTimestamp u]
  exact compare_bytes rfl

theorem ofTimestamp_inj {t u : Timestamp} : ofTimestamp t = ofTimestamp u ↔ t = u := by
  refine ⟨fun h => ?_, fun h => h ▸ rfl⟩
  apply UInt64.toNat_inj.mp
  rw [← spelled_ofTimestamp t, ← spelled_ofTimestamp u, h]

instance : Std.LawfulEqOrd ChunkKey where
  eq_of_compare {a b} h := by
    obtain ⟨bytes, _⟩ := a
    obtain ⟨bytes', _⟩ := b
    have heq : bytes = bytes' := Std.LawfulEqOrd.eq_of_compare h
    cases heq
    rfl

end ChunkKey

end SeriesStore
