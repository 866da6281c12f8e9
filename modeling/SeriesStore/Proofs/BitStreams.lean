import SeriesStore.Bits.Reader
import SeriesStore.Bits.Writer
import SeriesStore.Proofs.Words

/-!
# Bit streams

The bytes of a stream are read as one string of bits, the most significant bit
of a byte first. A writer appends to the front part of that string, and the rest
of its last byte is zero; a reader has a part of the string ahead of it and takes
from its front.

Results:
1. `writeBit_holds`, `writeBits_holds`, `writeCode_holds`: what is written is
   appended to the bits that the writer holds.
2. `capacity_writeCode`: a buffer grows only where what is written does not fit.
3. `readBit_of_ahead`, `readBits_of_ahead`: what is read is taken from the bits
   that lie ahead.
-/

namespace SeriesStore

/-! ## Bits of bytes -/

/-- The bits of a byte, most significant first. -/
def bitsOfByte (byte : UInt8) : List Bool := (List.range 8).map (BitReader.bitOfByte byte)

/-- The bits of a string of bytes. -/
def bitsOfBytes (bytes : List UInt8) : List Bool := bytes.flatMap bitsOfByte

@[simp] theorem length_bitsOfByte (byte : UInt8) : (bitsOfByte byte).length = 8 := by
  simp [bitsOfByte]

@[simp] theorem bitsOfBytes_append (a b : List UInt8) :
    bitsOfBytes (a ++ b) = bitsOfBytes a ++ bitsOfBytes b := by
  simp [bitsOfBytes]

@[simp] theorem bitsOfBytes_singleton (byte : UInt8) : bitsOfBytes [byte] = bitsOfByte byte := by
  simp [bitsOfBytes]

@[simp] theorem length_bitsOfBytes (bytes : List UInt8) :
    (bitsOfBytes bytes).length = 8 * bytes.length := by
  induction bytes with
  | nil => rfl
  | cons byte bytes ih =>
    rw [bitsOfBytes, List.flatMap_cons, ← bitsOfBytes, List.length_append, ih,
      length_bitsOfByte, List.length_cons]
    omega

/-- The bit at a position is that of the byte around it. -/
theorem getElem?_bitsOfBytes (bytes : List UInt8) (position : Nat) :
    (bitsOfBytes bytes)[position]? =
      bytes[position / 8]?.map (BitReader.bitOfByte · (position % 8)) := by
  induction bytes generalizing position with
  | nil => simp
  | cons byte bytes ih =>
    unfold bitsOfBytes
    rw [List.flatMap_cons, ← bitsOfBytes]
    by_cases h : position < 8
    · rw [List.getElem?_append_left (by simpa using h), Nat.div_eq_of_lt h, Nat.mod_eq_of_lt h]
      simp [bitsOfByte, h]
    · have hdiv : position / 8 = (position - 8) / 8 + 1 := by omega
      have hmod : position % 8 = (position - 8) % 8 := by omega
      rw [List.getElem?_append_right (by simpa using h), length_bitsOfByte, ih, hdiv, hmod,
        List.getElem?_cons_succ]

/-! ## Writing -/

namespace BitWriter

/-- The writer has been given these bits: they come first in its bytes, and what
is left of the last byte is zero. -/
structure Holds (w : BitWriter) (bits : List Bool) : Prop where
  length : w.bitLength = bits.length
  spelled : bitsOfBytes w.bytes.toList = bits ++ List.replicate (7 - (bits.length + 7) % 8) false

theorem ofCapacity_holds (capacity : Nat) : (ofCapacity capacity).Holds [] :=
  ⟨rfl, rfl⟩

/-- The bytes in use are as few as the bits allow. -/
theorem Holds.size {w : BitWriter} {bits : List Bool} (h : w.Holds bits) :
    w.size = (bits.length + 7) / 8 := by
  have hlen := congrArg List.length h.spelled
  simp only [length_bitsOfBytes, List.length_append, List.length_replicate,
    Array.length_toList] at hlen
  unfold BitWriter.size
  omega

/-- Writing a bit into a byte changes that bit and no other. -/
theorem bitOfByte_or_mask (byte : UInt8) (bit : Bool) {offset i : Nat} (ho : offset < 8)
    (hi : i < 8) :
    BitReader.bitOfByte (byte ||| if bit then mask offset else 0) i =
      (BitReader.bitOfByte byte i || (bit && decide (i = offset))) := by
  have hmask : ∀ o : Fin 8, ∀ j : Fin 8,
      (mask o.val).toBitVec.getLsbD (7 - j.val) = decide (j.val = o.val) := by decide
  have hm := hmask ⟨offset, ho⟩ ⟨i, hi⟩
  cases bit with
  | false => simp [BitReader.bitOfByte]
  | true => simpa [BitReader.bitOfByte] using congrArg (byte.toBitVec.getLsbD (7 - i) || ·) hm

/-- A byte that shows some bits and zeros behind them shows one bit more once it
is written. -/
theorem bitsOfByte_or_mask {byte : UInt8} {shown : List Bool} (bit : Bool)
    (hlen : shown.length < 8)
    (h : bitsOfByte byte = shown ++ List.replicate (8 - shown.length) false) :
    bitsOfByte (byte ||| if bit then mask shown.length else 0) =
      shown ++ bit :: List.replicate (7 - shown.length) false := by
  apply List.ext_getElem?
  intro i
  by_cases hi : i < 8
  · have hold : (bitsOfByte byte)[i]? = some (BitReader.bitOfByte byte i) := by
      simp [bitsOfByte, hi]
    have hnew : (bitsOfByte (byte ||| if bit then mask shown.length else 0))[i]? =
        some (BitReader.bitOfByte byte i || (bit && decide (i = shown.length))) := by
      simp [bitsOfByte, hi, bitOfByte_or_mask byte bit hlen hi]
    rw [hnew]
    rw [h] at hold
    rcases Nat.lt_trichotomy i shown.length with hlt | heq | hgt
    · rw [List.getElem?_append_left hlt] at hold ⊢
      rw [hold]
      simp [Nat.ne_of_lt hlt]
    · subst heq
      rw [List.getElem?_append_right (Nat.le_refl _), Nat.sub_self, List.getElem?_replicate,
        if_pos (by omega)] at hold
      rw [List.getElem?_append_right (Nat.le_refl _), Nat.sub_self, List.getElem?_cons_zero]
      rw [← Option.some.inj hold]
      simp
    · rw [List.getElem?_append_right (by omega), List.getElem?_replicate,
        if_pos (by omega)] at hold
      have hsucc : i - shown.length = (i - shown.length - 1) + 1 := by omega
      rw [List.getElem?_append_right (by omega), hsucc, List.getElem?_cons_succ,
        List.getElem?_replicate, if_pos (by omega), ← Option.some.inj hold]
      simp [Nat.ne_of_gt hgt]
  · rw [List.getElem?_eq_none (by simpa using hi), List.getElem?_eq_none (by simp; omega)]

theorem exists_last {bytes : Array UInt8} {n : Nat} (h : bytes.size = n + 1) :
    ∃ front last, front.length = n ∧ bytes.toList = front ++ [last] := by
  rcases List.eq_nil_or_concat bytes.toList with h0 | ⟨front, last, h0⟩
  · simp_all
  · rw [List.concat_eq_append] at h0
    have hlen := congrArg List.length h0
    rw [Array.length_toList, List.length_append, List.length_singleton] at hlen
    exact ⟨front, last, by omega, h0⟩

theorem modify_last {α : Type} (front : List α) (last : α) (f : α → α) :
    (front ++ [last]).modify front.length f = front ++ [f last] := by
  induction front with
  | nil => rfl
  | cons a front ih => simp [ih]

theorem writeBit_holds {w : BitWriter} {bits : List Bool} (h : w.Holds bits) (bit : Bool) :
    (w.writeBit bit).Holds (bits ++ [bit]) := by
  obtain ⟨bytes, bitLength, capacity⟩ := w
  obtain ⟨hlen, hspell⟩ := h
  simp only at hlen hspell
  subst hlen
  constructor
  · simp only [writeBit]
    split <;> simp
  · unfold writeBit
    simp only [List.length_append, List.length_singleton]
    split
    · next hoff =>
      -- The bits so far fill their bytes, so the new bit is alone in its byte.
      have hpad : 7 - (bits.length + 7) % 8 = 0 := by omega
      have hfull : bitsOfBytes bytes.toList = bits := by
        rw [hspell, hpad, List.replicate_zero, List.append_nil]
      have hone : bitsOfByte (if bit then mask 0 else 0) = bit :: List.replicate 7 false := by
        cases bit <;> decide
      have hnext : 7 - (bits.length + 1 + 7) % 8 = 7 := by omega
      simp only [Array.toList_push, bitsOfBytes_append, bitsOfBytes_singleton, hfull, hoff, hone,
        hnext, List.append_assoc, List.singleton_append]
    · next hoff =>
      have hsize : bytes.size = bits.length / 8 + 1 := by
        have hlen := congrArg List.length hspell
        simp only [length_bitsOfBytes, List.length_append, List.length_replicate,
          Array.length_toList] at hlen
        omega
      obtain ⟨front, last, hfront, hbytes⟩ := exists_last hsize
      -- The last byte shows the bits behind those of the full bytes.
      have hparts : bitsOfBytes front ++ bitsOfByte last =
          bits.take (8 * front.length) ++ (bits.drop (8 * front.length) ++
            List.replicate (7 - (bits.length + 7) % 8) false) := by
        rw [← List.append_assoc, List.take_append_drop, ← hspell, hbytes, bitsOfBytes_append,
          bitsOfBytes_singleton]
      have hlens : (bitsOfBytes front).length = (bits.take (8 * front.length)).length := by
        rw [length_bitsOfBytes, List.length_take]
        omega
      obtain ⟨hfrontBits, hlastBits⟩ := List.append_inj hparts hlens
      have hshown : (bits.drop (8 * front.length)).length = bits.length % 8 := by
        rw [List.length_drop]
        omega
      have hpad : 7 - (bits.length + 7) % 8 = 8 - (bits.drop (8 * front.length)).length := by
        omega
      rw [hpad] at hlastBits
      have hwritten := bitsOfByte_or_mask bit (by omega) hlastBits
      rw [hshown] at hwritten
      have hindex : bytes.size - 1 = front.length := by omega
      have hnext : 7 - (bits.length + 1 + 7) % 8 = 7 - bits.length % 8 := by omega
      rw [Array.toList_modify, hbytes, hindex, modify_last, bitsOfBytes_append,
        bitsOfBytes_singleton, hwritten, hfrontBits, hnext, ← List.append_assoc,
        List.take_append_drop, List.append_assoc, List.singleton_append]

theorem writeBits_holds {w : BitWriter} {bits : List Bool} (h : w.Holds bits) (word : UInt64)
    (width : Nat) : (w.writeBits word width).Holds (bits ++ bitsOf word width) := by
  induction width generalizing w bits with
  | zero => simpa [writeBits, bitsOf] using h
  | succ width ih =>
    have hstep := ih (writeBit_holds h (bitAt word width))
    simpa [writeBits, bitsOf] using hstep

theorem writeCode_holds {w : BitWriter} {bits : List Bool} (h : w.Holds bits)
    (code : List Field) : (w.writeCode code).Holds (bits ++ Field.bitsOfCode code) := by
  induction code generalizing w bits with
  | nil => simpa [writeCode, Field.bitsOfCode] using h
  | cons f code ih =>
    have hstep := ih (writeBits_holds h f.value f.width)
    simpa [writeCode, Field.bitsOfCode, Field.bits] using hstep

/-! ### The buffer -/

theorem capacity_writeBit {w : BitWriter} {bits : List Bool} (h : w.Holds bits) (bit : Bool)
    (hroom : (bits.length + 8) / 8 ≤ w.capacity) : (w.writeBit bit).capacity = w.capacity := by
  have hsize := h.size
  have hlen := h.length
  obtain ⟨bytes, bitLength, capacity⟩ := w
  simp only [BitWriter.size] at hsize hlen hroom
  unfold writeBit
  dsimp only
  split
  · -- A new byte is opened only where all bytes are full, and there is room for it.
    have hfree : bytes.size ≠ capacity := by omega
    exact if_neg hfree
  · rfl

theorem capacity_writeBits {w : BitWriter} {bits : List Bool} (h : w.Holds bits) (word : UInt64)
    (width : Nat) (hroom : (bits.length + width + 7) / 8 ≤ w.capacity) :
    (w.writeBits word width).capacity = w.capacity := by
  induction width generalizing w bits with
  | zero => rfl
  | succ width ih =>
    have hbit := capacity_writeBit h (bitAt word width) (by omega)
    have hrest := ih (writeBit_holds h (bitAt word width)) (by
      rw [hbit, List.length_append, List.length_singleton]
      omega)
    rw [writeBits, hrest, hbit]

/-- A buffer with room for all bytes of a code is not outgrown by it. -/
theorem capacity_writeCode {w : BitWriter} {bits : List Bool} (h : w.Holds bits)
    (code : List Field)
    (hroom : (bits.length + (Field.bitsOfCode code).length + 7) / 8 ≤ w.capacity) :
    (w.writeCode code).capacity = w.capacity := by
  induction code generalizing w bits with
  | nil => rfl
  | cons f code ih =>
    have hlen : (Field.bitsOfCode (f :: code)).length =
        f.width + (Field.bitsOfCode code).length := by
      rw [Field.bitsOfCode, List.flatMap_cons, List.length_append, Field.bits, length_bitsOf]
      rfl
    have hfield := capacity_writeBits h f.value f.width (by omega)
    have hrest := ih (writeBits_holds h f.value f.width) (by
      rw [hfield, List.length_append, length_bitsOf]
      omega)
    exact hrest.trans hfield

end BitWriter

/-! ## Reading -/

namespace BitReader

/-- The bits that have not been read yet. -/
def ahead (r : BitReader) : List Bool := (bitsOfBytes r.data.toList).drop r.position

/-- The reader once some more bits have been consumed. -/
def skip (r : BitReader) (n : Nat) : BitReader := { r with position := r.position + n }

@[simp] theorem skip_zero (r : BitReader) : r.skip 0 = r := rfl

@[simp] theorem skip_skip (r : BitReader) (m n : Nat) : (r.skip m).skip n = r.skip (m + n) := by
  simp [skip, Nat.add_assoc]

@[simp] theorem ahead_skip (r : BitReader) (n : Nat) : (r.skip n).ahead = r.ahead.drop n := by
  simp [ahead, skip]

/-- A bit is read off the front of what lies ahead. -/
theorem readBit_eq (r : BitReader) : r.readBit = r.ahead.head?.map fun bit => (bit, r.skip 1) := by
  have hbit : r.ahead.head? = r.data[r.position / 8]?.map (bitOfByte · (r.position % 8)) := by
    unfold ahead
    rw [List.head?_drop, getElem?_bitsOfBytes, Array.getElem?_toList]
  unfold readBit
  rw [hbit]
  cases r.data[r.position / 8]? <;> rfl

theorem readBelow_of_ahead {r : BitReader} {bits rest : List Bool} (acc : UInt64)
    (h : r.ahead = bits ++ rest) :
    readBelow acc bits.length r = (some (bits.foldl pushLow acc), r.skip bits.length) := by
  induction bits generalizing r acc with
  | nil => rfl
  | cons bit bits ih =>
    have hbit : r.readBit = some (bit, r.skip 1) := by rw [readBit_eq, h]; rfl
    have hrest : (r.skip 1).ahead = bits ++ rest := by rw [ahead_skip, h]; rfl
    rw [List.length_cons, readBelow, hbit]
    simp only [ih (pushLow acc bit) hrest, skip_skip, List.foldl_cons, Nat.add_comm 1]

/-- A word is read off the front of what lies ahead. -/
theorem readBits_of_ahead {r : BitReader} {bits rest : List Bool} (h : r.ahead = bits ++ rest) :
    r.readBits bits.length = (some (wordOf bits), r.skip bits.length) :=
  readBelow_of_ahead 0 h

end BitReader

end SeriesStore
