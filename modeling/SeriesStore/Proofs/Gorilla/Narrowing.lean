import SeriesStore.Proofs.Gorilla.RoundTrip

/-!
# Windows that are never narrowed

The code of a difference has a form that narrows the window to the bits that are set, and a form
that uses the window of an earlier difference again where that shows all of them. An encoder begins
with the window that shows the whole word. That one shows every difference, so it is used from the
first one on, and no other window ever takes its place.

Results:
1. `window_ofSamples`: every encoder knows the window of a whole word and no other.
2. `valueBits_ofSamples`: a value that has changed is written with two flags and a full word.
3. `narrows_iff`: windows are narrowed as a first use asks only in streams whose value never
   changes.
-/

namespace SeriesStore.Gorilla

open SeriesStore.Field

/-- The window of a whole word shows every word. -/
theorem Window.covers_whole (word : UInt64) : ({} : Window).covers word = true := by
  simp [covers]

theorem windowAfter_whole (difference : UInt64) : windowAfter {} difference = {} := by
  simp [windowAfter, Window.covers_whole]

/-- In the window of a whole word a difference is written with all its bits. -/
theorem bits_differenceCode_whole {difference : UInt64} (h : difference ≠ 0) :
    bitsOfCode (differenceCode {} difference) = true :: false :: bitsOf difference 64 := by
  have hword : Field.bits ⟨({} : Window).width, ({} : Window).cut difference⟩ =
      bitsOf difference 64 := by
    simp [Field.bits, Window.cut, Window.width]
  simp [differenceCode, h, Window.covers_whole, hword]

namespace Encoder

/-- The bits that the value of a sample gets behind the samples so far. -/
def valueBits (e : Encoder) (s : Sample) : List Bool :=
  bitsOfCode (differenceCode e.history.window (s.value.bits ^^^ e.history.value.bits))

/-- They are written behind the code of the timestamp. -/
theorem encode_holds_later {e : Encoder} {bits : List Bool} (hstarted : e.count ≠ 0)
    (h : e.writer.Holds bits) (s : Sample) :
    (e.encode s).writer.Holds (bits ++
      bitsOfCode (changeCode (s.timestamp - e.history.timestamp - e.history.step)) ++
        e.valueBits s) := by
  have hlater : e.codeOf s = e.history.code s := if_neg hstarted
  have hwritten := encode_holds h s
  rwa [hlater, History.code, bitsOfCode_append, ← List.append_assoc] at hwritten

/-! ## What an encoder remembers -/

theorem window_encode {e : Encoder} (h : e.history.window = {}) (s : Sample) :
    (e.encode s).history.window = {} := by
  unfold encode
  split
  · rfl
  · show windowAfter e.history.window _ = {}
    rw [h, windowAfter_whole]

/-- No encoder ever knows a window but that of a whole word. -/
theorem window_ofSamples (samples : List Sample) (capacity : Nat) :
    (ofSamples samples capacity).history.window = {} := by
  have hrun : ∀ e : Encoder, e.history.window = {} →
      (samples.foldl encode e).history.window = {} := by
    induction samples with
    | nil => exact fun e h => h
    | cons s samples ih => exact fun e h => ih _ (window_encode h s)
  exact hrun _ rfl

theorem value_encode (e : Encoder) (s : Sample) : (e.encode s).history.value = s.value := by
  unfold encode
  split <;> rfl

theorem value_ofSamples (front : List Sample) (last : Sample) (capacity : Nat) :
    (ofSamples (front ++ [last]) capacity).history.value = last.value := by
  unfold ofSamples
  rw [List.foldl_append]
  exact value_encode _ last

/-! ## What is written -/

/-- A value is one bit where it has not changed, and two bits and a full word where it has. -/
theorem valueBits_ofSamples (front : List Sample) (last s : Sample) (capacity : Nat) :
    (ofSamples (front ++ [last]) capacity).valueBits s =
      if s.value = last.value then [false]
      else true :: false :: bitsOf (s.value.bits ^^^ last.value.bits) 64 := by
  unfold valueBits
  rw [window_ofSamples, value_ofSamples]
  split
  · next hsame => simp [hsame, differenceCode]
  · next hchanged =>
    refine bits_differenceCode_whole fun hzero => hchanged ?_
    have hback := Decoder.xor_xor_self s.value.bits last.value.bits
    rw [hzero, UInt64.xor_zero, ← Value.mk.injEq] at hback
    exact hback.symm

end Encoder

/-- Windows are narrowed from their first use on. -/
structure Narrows (samples : List Sample) (capacity : Nat) : Prop where
  -- The window of an earlier sample is used again only where an earlier sample has written one.
  again : ∀ front last s behind, samples = front ++ last :: s :: behind →
    [true, false] <+: (Encoder.ofSamples (front ++ [last]) capacity).valueBits s →
      ∃ front' last' t behind', front ++ [last] = front' ++ last' :: t :: behind' ∧
        [true, true] <+: (Encoder.ofSamples (front' ++ [last']) capacity).valueBits t
  -- The first value that differs from the one before it is written in its tightest window.
  first : ∀ front last s behind, samples = front ++ last :: s :: behind →
    (∀ t ∈ front, t.value = last.value) → s.value ≠ last.value →
      ((Encoder.ofSamples (front ++ [last]) capacity).valueBits s).length =
        13 + (64 - min (leadingZeros (s.value.bits ^^^ last.value.bits)) 31 -
          trailingZeros (s.value.bits ^^^ last.value.bits))

/-- Every value that differs from the one before it is written with the flags that use an earlier
window again, and with all 64 bits of the difference, also the first such value of a stream, when
no window has been written yet. No window is ever written: windows are narrowed as their first use
asks exactly in the streams whose value never changes. -/
theorem narrows_iff (samples : List Sample) (capacity : Nat) :
    (∀ front last s behind, samples = front ++ last :: s :: behind →
      let e := Encoder.ofSamples (front ++ [last]) capacity
      (e.encode s).writer.Holds (bitsOfCode (streamCode (front ++ [last])) ++
        bitsOfCode (changeCode (s.timestamp - e.history.timestamp - e.history.step)) ++
          e.valueBits s) ∧
      e.valueBits s = if s.value = last.value then [false]
        else true :: false :: bitsOf (s.value.bits ^^^ last.value.bits) 64) ∧
    (Narrows samples capacity ↔
      ∀ front last s behind, samples = front ++ last :: s :: behind → s.value = last.value) := by
  refine ⟨fun front last s behind _ => ⟨?_, Encoder.valueBits_ofSamples front last s capacity⟩,
    fun h front last s behind heq => ?_, fun h => ⟨?_, ?_⟩⟩
  · exact Encoder.encode_holds_later (by simp) (Encoder.ofSamples_holds _ capacity) s
  · by_contra hchanged
    have hwritten := Encoder.valueBits_ofSamples front last s capacity
    rw [if_neg hchanged] at hwritten
    obtain ⟨front', last', t, behind', -, hexplicit⟩ :=
      h.again front last s behind heq (hwritten ▸ ⟨_, rfl⟩)
    rw [Encoder.valueBits_ofSamples] at hexplicit
    split at hexplicit <;> simp at hexplicit
  · intro front last s behind heq hagain
    rw [Encoder.valueBits_ofSamples, if_pos (h front last s behind heq)] at hagain
    simp at hagain
  · exact fun front last s behind heq _ hchanged => absurd (h front last s behind heq) hchanged

/-- A first change whose ten bits get a word of 64. -/
theorem not_narrows_one :
    let samples : List Sample := [⟨0, ⟨0⟩⟩, ⟨0, ⟨0x3ff0000000000000⟩⟩]
    ((Encoder.ofSamples [⟨0, ⟨0⟩⟩] 0).valueBits ⟨0, ⟨0x3ff0000000000000⟩⟩).length = 66 ∧
      13 + (Window.tight 0x3ff0000000000000).width = 23 ∧ ¬ Narrows samples 0 := by
  intro samples
  obtain ⟨hwritten, hnarrows⟩ := narrows_iff samples 0
  refine ⟨?_, by decide +kernel, fun h => ?_⟩
  · have hbits := (hwritten [] ⟨0, ⟨0⟩⟩ ⟨0, ⟨0x3ff0000000000000⟩⟩ [] rfl).2
    exact (congrArg List.length hbits).trans (by decide)
  · have hsame := hnarrows.mp h [] ⟨0, ⟨0⟩⟩ ⟨0, ⟨0x3ff0000000000000⟩⟩ [] rfl
    exact absurd hsame (by decide)

end SeriesStore.Gorilla
