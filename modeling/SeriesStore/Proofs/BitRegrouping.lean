import Mathlib.Data.List.SplitLengths
import SeriesStore.Proofs.BitStreams

/-!
# Bits written in some widths and read in others

A stream keeps no widths: it is one string of bits, which a reader may cut up as it was written or
in any other way. The bytes are those of the string at any time, also while the last one is filled
in part, so nothing changes for a reader that is opened between two writes.

Results:
1. `writeAll_eq`: calls on a writer write the code of their fields.
2. `answers_of_room`: calls on a reader cut up the bits ahead of it.
3. `answers_reading`: calls in the widths of what has been written give it back.
4. `perform_of_short`: a read of more bits than are left consumes them and answers nothing.
5. `regrouped_run`: all this of the bytes of a writer, after any calls.
-/

namespace SeriesStore

/-! ## Calls -/

/-- A call on a writer: one bit, or the low bits of a word. -/
inductive BitWriter.Call
  | bit (b : Bool)
  | word (value : UInt64) (width : Fin 65)

/-- A call on a reader: one bit, or a word of some width. -/
inductive BitReader.Call
  | bit
  | word (width : Fin 65)

namespace BitWriter

/-- What a call writes, as a field. -/
def Call.field : Call → Field
  | bit b => .flag b
  | word value width => ⟨width, value⟩

/-- The call that reads what a call has written. -/
def Call.reading : Call → BitReader.Call
  | bit _ => .bit
  | word _ width => .word width

def Call.perform (w : BitWriter) : Call → BitWriter
  | bit b => w.writeBit b
  | word value width => w.writeBits value width

/-- The writer after some calls. -/
def writeAll (w : BitWriter) (calls : List Call) : BitWriter := calls.foldl Call.perform w

end BitWriter

namespace BitReader

/-- How many bits a call reads. -/
def Call.width : Call → Nat
  | bit => 1
  | word width => width

/-- What a call reads, if the data goes on for so long; a bit is read as the word 0 or 1. -/
def Call.perform (r : BitReader) : Call → Option UInt64 × BitReader
  | bit =>
    match r.readBit with
    | none => (none, r)
    | some (b, r) => (some b.toUInt64, r)
  | word width => r.readBits width

/-- What some calls read, one after the other. -/
def answers (r : BitReader) : List Call → List (Option UInt64)
  | [] => []
  | call :: calls => (call.perform r).1 :: (call.perform r).2.answers calls

/-- The reader after some calls. -/
def readAll (r : BitReader) (calls : List Call) : BitReader :=
  calls.foldl (fun r call => (call.perform r).2) r

end BitReader

/-! ## Writing -/

namespace BitWriter

theorem Call.width_reading (call : Call) : call.reading.width = call.field.width := by
  cases call <;> rfl

/-- A call writes its field. -/
theorem Call.perform_eq (w : BitWriter) (call : Call) :
    call.perform w = w.writeBits call.field.value call.field.width := by
  cases call with
  | bit b =>
    have hbit : bitAt b.toUInt64 0 = b := by cases b <;> rfl
    simp [perform, field, Field.flag, writeBits, hbit]
  | word value width => rfl

/-- Calls write the code of their fields. -/
theorem writeAll_eq (w : BitWriter) (calls : List Call) :
    w.writeAll calls = w.writeCode (calls.map Call.field) := by
  unfold writeAll writeCode
  rw [List.foldl_map]
  congr 1
  funext w call
  exact call.perform_eq w

/-- The bits of the last byte that have not been written are zero. -/
theorem Holds.last {w : BitWriter} {bits : List Bool} (h : w.Holds bits) {byte : UInt8}
    (hbyte : w.bytes.back? = some byte) : byte.toNat % 2 ^ (8 * w.size - bits.length) = 0 := by
  have hsize := h.size
  apply Nat.eq_of_testBit_eq
  intro i
  rw [Nat.testBit_mod_two_pow, Nat.zero_testBit]
  by_cases hi : i < 8 * w.size - bits.length
  · -- Bit `i` of the last byte stands `i` places before the end of the string.
    have hplace := getElem?_bitsOfBytes w.bytes.toList (8 * w.size - 1 - i)
    have hdiv : (8 * w.size - 1 - i) / 8 = w.bytes.size - 1 := by
      unfold BitWriter.size at *
      omega
    have hmod : (8 * w.size - 1 - i) % 8 = 7 - i := by omega
    rw [Array.back?_eq_getElem?] at hbyte
    rw [h.spelled, List.getElem?_append_right (by omega), List.getElem?_replicate,
      if_pos (by omega), hdiv, hmod, Array.getElem?_toList, hbyte] at hplace
    have hbit := Option.some.inj hplace
    have hback : 7 - (7 - i) = i := by omega
    unfold BitReader.bitOfByte at hbit
    rw [hback] at hbit
    rw [Bool.and_eq_false_iff]
    exact .inr hbit.symm
  · simp [hi]

end BitWriter

/-! ## Reading -/

namespace BitReader

variable {r : BitReader}

/-- A call reads a word of its width. -/
theorem Call.perform_eq (r : BitReader) (call : Call) :
    call.perform r = r.readBits call.width := by
  cases call with
  | bit =>
    have hbit (b : Bool) : pushLow 0 b = b.toUInt64 := by cases b <;> rfl
    unfold perform readBits width readBelow
    cases r.readBit with
    | none => rfl
    | some p => simp [readBelow, hbit]
  | word width => rfl

/-- The reader is still in these data. -/
structure Inside (bytes : Array UInt8) (r : BitReader) : Prop where
  data : r.data = bytes
  position : r.position ≤ 8 * bytes.size

theorem length_ahead (r : BitReader) : r.ahead.length = 8 * r.data.size - r.position := by
  simp [ahead]

theorem readBelow_of_short {width : Nat} (acc : UInt64) (h : r.ahead.length < width) :
    readBelow acc width r = (none, r.skip r.ahead.length) := by
  induction width generalizing acc r with
  | zero => exact absurd h (Nat.not_lt_zero _)
  | succ width ih =>
    have hread := readBit_eq r
    have hrest := ahead_skip r 1
    unfold readBelow
    cases hahead : r.ahead with
    | nil =>
      rw [hahead] at hread
      rw [hread]
      rfl
    | cons b bits =>
      rw [hahead] at hread hrest
      rw [hahead, List.length_cons] at h
      have hlen : (r.skip 1).ahead.length = bits.length := congrArg List.length hrest
      rw [hread]
      simp only [List.head?_cons, Option.map_some]
      rw [ih _ (by omega), hlen, skip_skip, List.length_cons, Nat.add_comm 1]

/-- A read of more bits than are left consumes them and answers nothing. -/
theorem perform_of_short {call : Call} (h : r.ahead.length < call.width) :
    call.perform r = (none, r.skip r.ahead.length) := by
  rw [Call.perform_eq]
  exact readBelow_of_short 0 h

/-- A read of bits that are there answers the number that they spell. -/
theorem perform_of_room {call : Call} (h : call.width ≤ r.ahead.length) :
    call.perform r = (some (wordOf (r.ahead.take call.width)), r.skip call.width) := by
  have hlen : (r.ahead.take call.width).length = call.width := List.length_take_of_le h
  have hread := readBits_of_ahead (List.take_append_drop call.width r.ahead).symm
  rw [hlen] at hread
  rw [Call.perform_eq, hread]

theorem Inside.perform {bytes : Array UInt8} (h : Inside bytes r) (call : Call) :
    Inside bytes (call.perform r).2 := by
  have hlen := r.length_ahead
  have hposition := h.position
  rw [h.data] at hlen
  rcases Nat.lt_or_ge r.ahead.length call.width with hshort | hroom
  · rw [perform_of_short hshort]
    exact ⟨h.data, by simp only [skip]; omega⟩
  · rw [perform_of_room hroom]
    exact ⟨h.data, by simp only [skip]; omega⟩

theorem Inside.readAll {bytes : Array UInt8} (h : Inside bytes r) (calls : List Call) :
    Inside bytes (r.readAll calls) := by
  induction calls generalizing r with
  | nil => exact h
  | cons call calls ih => exact ih (h.perform call)

/-- At the end of its data a reader has nothing ahead. -/
theorem Inside.skip_ahead {bytes : Array UInt8} (h : Inside bytes r) :
    r.skip r.ahead.length = { data := bytes, position := 8 * bytes.size } := by
  have hposition := h.position
  obtain ⟨rdata, position⟩ := r
  obtain rfl := h.data
  rw [length_ahead]
  simp only [skip, mk.injEq, true_and] at hposition ⊢
  omega

/-- Calls cut up the bits that are ahead into parts of their widths. -/
theorem answers_of_room {calls : List Call} (h : (calls.map Call.width).sum ≤ r.ahead.length) :
    r.answers calls =
        ((calls.map Call.width).splitLengths r.ahead).map (fun part => some (wordOf part)) ∧
      r.readAll calls = r.skip (calls.map Call.width).sum := by
  induction calls generalizing r with
  | nil => exact ⟨rfl, rfl⟩
  | cons call calls ih =>
    rw [List.map_cons, List.sum_cons] at h
    have hroom : call.width ≤ r.ahead.length := by omega
    have hleft : (calls.map Call.width).sum ≤ (r.skip call.width).ahead.length := by
      rw [ahead_skip, List.length_drop]
      omega
    have hcall := perform_of_room hroom
    have hrest := ih hleft
    rw [ahead_skip] at hrest
    constructor
    · rw [answers, hcall, hrest.1, List.map_cons, List.splitLengths_cons, List.map_cons]
    · show (call.perform r).2.readAll calls = _
      rw [hcall, hrest.2, skip_skip, List.map_cons, List.sum_cons]

end BitReader

/-! ## Reading what has been written -/

/-- A string is cut up into the parts that it was put together from. -/
theorem splitLengths_bitsOfCode (code : List Field) (rest : List Bool) :
    (code.map (·.width)).splitLengths (Field.bitsOfCode code ++ rest) = code.map Field.bits := by
  induction code with
  | nil => rfl
  | cons f code ih =>
    have hlen : f.bits.length = f.width := length_bitsOf _ _
    rw [List.map_cons, List.splitLengths_cons, Field.bitsOfCode_cons, List.append_assoc, ← hlen,
      List.take_left, List.drop_left, ih, List.map_cons]

/-- Parts that end before the rest of a string are those of its front. -/
theorem splitLengths_append {α : Type} {sizes : List Nat} {front : List α} (rest : List α)
    (h : sizes.sum ≤ front.length) :
    sizes.splitLengths (front ++ rest) = sizes.splitLengths front := by
  induction sizes generalizing front with
  | nil => rfl
  | cons n sizes ih =>
    rw [List.sum_cons] at h
    rw [List.splitLengths_cons, List.splitLengths_cons, List.take_append_of_le_length (by omega),
      List.drop_append_of_le_length (by omega), ih (by rw [List.length_drop]; omega)]

/-- What a call has written is read as the number that its field shows. -/
theorem BitWriter.Call.toNat_wordOf (call : BitWriter.Call) :
    (wordOf call.field.bits).toNat = call.field.value.toNat % 2 ^ call.field.width := by
  refine wordOf_bitsOf _ ?_
  cases call with
  | bit b => exact Nat.le_of_ble_eq_true rfl
  | word value width => exact Nat.le_of_lt_succ width.isLt

/-- A reader that is asked for the widths of what has been written answers the numbers that the
fields show. -/
theorem BitReader.answers_reading {r : BitReader} {calls : List BitWriter.Call} {rest : List Bool}
    (h : r.ahead = Field.bitsOfCode (calls.map (·.field)) ++ rest) :
    (r.answers (calls.map (·.reading))).map (·.map UInt64.toNat) =
        calls.map (fun call => some (call.field.value.toNat % 2 ^ call.field.width)) ∧
      r.readAll (calls.map (·.reading)) = r.skip (calls.map (·.field.width)).sum := by
  have hwidths : (calls.map (·.reading)).map Call.width =
      (calls.map (·.field)).map (·.width) := by
    rw [List.map_map, List.map_map]
    exact List.map_congr_left fun call _ => call.width_reading
  have hroom : ((calls.map (·.reading)).map Call.width).sum ≤ r.ahead.length := by
    rw [hwidths, ← Field.length_bitsOfCode, h, List.length_append]
    exact Nat.le_add_right _ _
  obtain ⟨hanswers, hread⟩ := answers_of_room hroom
  rw [hwidths, h, splitLengths_bitsOfCode] at hanswers
  constructor
  · rw [hanswers, List.map_map, List.map_map, List.map_map]
    exact List.map_congr_left fun call _ => congrArg some call.toNat_wordOf
  · rw [hread, hwidths, List.map_map]
    rfl

/-- Whatever bits and fields have been written, and whenever the bytes are looked at, the writer
counts their widths and uses as few bytes as they need, with zeros behind the last bit. A reader of
the bytes that asks for the same widths is answered the numbers that the fields show. One that asks
for other widths is answered the same string of bits, cut up by its widths. Each has then consumed
as many bits as it has asked for. A read that goes beyond the last byte is answered nothing and
leaves the reader at the end of the bytes. -/
theorem regrouped_run (capacity : Nat) (writes : List BitWriter.Call) :
    let w := (BitWriter.ofCapacity capacity).writeAll writes
    let bits := Field.bitsOfCode (writes.map (·.field))
    let total := (writes.map (·.field.width)).sum
    let r : BitReader := { data := w.bytes }
    w.bitLength = total ∧ w.size = (total + 7) / 8 ∧
      (∀ byte, w.bytes.back? = some byte → byte.toNat % 2 ^ (8 * w.size - total) = 0) ∧
      (∀ n, let front := writes.take n
        (r.answers (front.map (·.reading))).map (·.map UInt64.toNat) =
            front.map (fun call => some (call.field.value.toNat % 2 ^ call.field.width)) ∧
          (r.readAll (front.map (·.reading))).position = (front.map (·.field.width)).sum) ∧
      (∀ reads : List BitReader.Call, (reads.map BitReader.Call.width).sum ≤ total →
        r.answers reads =
            ((reads.map BitReader.Call.width).splitLengths bits).map
              (fun part => some (wordOf part)) ∧
          (r.readAll reads).position = (reads.map BitReader.Call.width).sum) ∧
      ∀ (reads : List BitReader.Call) (read : BitReader.Call),
        8 * w.size < (r.readAll reads).position + read.width →
          read.perform (r.readAll reads) = (none, { data := w.bytes, position := 8 * w.size }) := by
  intro w bits total r
  have hholds : w.Holds bits := by
    have hcode := BitWriter.writeCode_holds (BitWriter.ofCapacity_holds capacity)
      (writes.map (·.field))
    rwa [← BitWriter.writeAll_eq] at hcode
  have htotal : bits.length = total := by
    rw [Field.length_bitsOfCode, List.map_map]
    rfl
  have hahead : r.ahead = bits ++ List.replicate (7 - (bits.length + 7) % 8) false := hholds.spelled
  have hinside : BitReader.Inside w.bytes r := ⟨rfl, Nat.zero_le _⟩
  have hlong : bits.length ≤ r.ahead.length := by
    rw [hahead, List.length_append]
    exact Nat.le_add_right _ _
  refine ⟨htotal ▸ hholds.length, htotal ▸ hholds.size,
    fun byte hbyte => htotal ▸ hholds.last hbyte, fun n => ?_, fun reads hreads => ?_, fun reads read hshort => ?_⟩
  · have hfront : r.ahead = Field.bitsOfCode ((writes.take n).map (·.field)) ++
        (Field.bitsOfCode ((writes.drop n).map (·.field)) ++
          List.replicate (7 - (bits.length + 7) % 8) false) := by
      rw [hahead, ← List.append_assoc, ← Field.bitsOfCode_append, ← List.map_append,
        List.take_append_drop]
    obtain ⟨hanswers, hread⟩ := BitReader.answers_reading hfront
    exact ⟨hanswers, by rw [hread]; exact Nat.zero_add _⟩
  · have hroom : (reads.map BitReader.Call.width).sum ≤ r.ahead.length := by omega
    obtain ⟨hanswers, hread⟩ := BitReader.answers_of_room hroom
    rw [hahead, splitLengths_append _ (by omega)] at hanswers
    exact ⟨hanswers, by rw [hread]; exact Nat.zero_add _⟩
  · have hend := hinside.readAll reads
    have hlen := (r.readAll reads).length_ahead
    have hposition := hend.position
    rw [hend.data] at hlen
    have hleft : (r.readAll reads).ahead.length < read.width := by
      unfold BitWriter.size at hshort
      omega
    rw [BitReader.perform_of_short hleft, hend.skip_ahead]
    rfl

end SeriesStore
