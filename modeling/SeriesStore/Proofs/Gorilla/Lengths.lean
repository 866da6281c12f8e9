import SeriesStore.Proofs.Gorilla.RoundTrip

/-!
# The lengths of codes

A code is as long as its fields are wide. The parts of the code of a sample have fields enough to
bound it from both sides, whatever the history, and so each sample lengthens a stream by a bounded
number of bits.

Results:
1. `length_changeCode`, `length_differenceCode`, `History.length_code`: the code of a sample.
2. `Encoder.bitLength_encode_first`, `Encoder.bitLength_encode_later`: what a sample adds to a
   stream.
3. `Encoder.capacity_encode`: a buffer that has room for a longer stream is not outgrown by it.
-/

namespace SeriesStore.Gorilla

open SeriesStore.Field

/-! ## Codes -/

theorem length_codeIn_le {classes : List DeltaClass} (hc : ∀ c ∈ classes, c.width ≤ 64)
    (change : UInt64) :
    (bitsOfCode (DeltaClass.codeIn classes change)).length ≤ classes.length + 64 := by
  induction classes with
  | nil => exact Nat.le_of_eq (length_bitsOfCode _)
  | cons c classes ih =>
    have hwidth := hc c List.mem_cons_self
    have hrest := ih fun c hm => hc c (List.mem_cons_of_mem _ hm)
    rw [length_bitsOfCode] at hrest ⊢
    unfold DeltaClass.codeIn
    split
    · simp only [List.map_cons, List.map_nil, List.sum_cons, List.sum_nil, List.length_cons, flag]
      omega
    · simp only [List.map_cons, List.sum_cons, List.length_cons, flag]
      omega

/-- A change of the step takes a flag at least, and four flags and a word at most. -/
theorem length_changeCode (change : UInt64) :
    1 ≤ (bitsOfCode (changeCode change)).length ∧
      (bitsOfCode (changeCode change)).length ≤ 4 + 64 := by
  have hin : (bitsOfCode (DeltaClass.codeIn DeltaClass.all change)).length ≤ 3 + 64 :=
    length_codeIn_le (by decide) change
  unfold changeCode
  split
  · exact ⟨Nat.le_refl 1, by decide⟩
  · rw [bitsOfCode_cons, bits_flag, List.length_append, List.length_singleton]
    omega

/-- A difference takes a flag at least, and two flags, the bounds of a window and a word at
most. -/
theorem length_differenceCode (w : Window) (difference : UInt64) :
    1 ≤ (bitsOfCode (differenceCode w difference)).length ∧
      (bitsOfCode (differenceCode w difference)).length ≤ 2 + 5 + 6 + 64 := by
  have hwidth := w.width_le
  have htight := (Window.tight difference).width_le
  rw [length_bitsOfCode]
  unfold differenceCode
  split
  · decide
  · split <;> simp only [List.map_cons, List.map_nil, List.sum_cons, List.sum_nil, flag] <;> omega

/-- A sample after the first takes two bits at least, and never more than the longest code. -/
theorem History.length_code (h : History) (s : Sample) :
    2 ≤ (bitsOfCode (h.code s)).length ∧ (bitsOfCode (h.code s)).length ≤ maxSampleBits := by
  have hchange := length_changeCode (s.timestamp - h.timestamp - h.step)
  have hdifference := length_differenceCode h.window (s.value.bits ^^^ h.value.bits)
  rw [History.code, bitsOfCode_append, List.length_append]
  unfold maxSampleBits
  omega

theorem History.length_firstCode (s : Sample) : (bitsOfCode (firstCode s)).length = 128 :=
  length_bitsOfCode _

/-! ## Streams -/

namespace Encoder

variable {e : Encoder} {bits : List Bool}

theorem size_eq (h : e.writer.Holds bits) : e.size = (e.bitLength + 7) / 8 := by
  unfold bitLength
  rw [h.length]
  exact h.size

theorem bitLength_encode (h : e.writer.Holds bits) (s : Sample) :
    (e.encode s).bitLength = e.bitLength + (bitsOfCode (e.codeOf s)).length := by
  unfold bitLength
  rw [(encode_holds h s).length, List.length_append, h.length]

/-- A buffer with room for the longer stream is not outgrown. -/
theorem capacity_encode (h : e.writer.Holds bits) (s : Sample)
    (hroom : ((e.encode s).bitLength + 7) / 8 ≤ e.capacity) :
    (e.encode s).capacity = e.capacity := by
  rw [bitLength_encode h, show e.bitLength = bits.length from h.length] at hroom
  exact BitWriter.capacity_writeCode h _ hroom

/-- The first sample of a stream is written in full. -/
theorem bitLength_encode_first (h : e.writer.Holds bits) (hempty : e.count = 0) (s : Sample) :
    (e.encode s).bitLength = e.bitLength + 128 := by
  rw [bitLength_encode h, codeOf, if_pos hempty, History.length_firstCode]

/-- A later sample lengthens a stream by two bits at least, and never by more than the longest
code. -/
theorem bitLength_encode_later (h : e.writer.Holds bits) (hstarted : e.count ≠ 0) (s : Sample) :
    e.bitLength + 2 ≤ (e.encode s).bitLength ∧
      (e.encode s).bitLength ≤ e.bitLength + maxSampleBits := by
  obtain ⟨hleast, hmost⟩ := e.history.length_code s
  rw [bitLength_encode h, codeOf, if_neg hstarted]
  exact ⟨Nat.add_le_add_left hleast _, Nat.add_le_add_left hmost _⟩

end Encoder

end SeriesStore.Gorilla
