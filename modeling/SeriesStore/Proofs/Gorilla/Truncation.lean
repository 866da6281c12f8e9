import SeriesStore.Proofs.Gorilla.RoundTrip

/-!
# Streams that are cut off

Of a stream that has lost its end, a decoder gives the samples whose codes are still whole. It
looks at no bit that it does not consume, so up to the cut it goes the way that it goes over the
whole stream, and the code that the cut has broken is reported and never taken for a sample.

Results:
1. `cut_next`: a sample is given, or the stream breaks off inside it.
2. `cut_codes`: the run over the codes behind a first sample.
3. `outputs_truncated`: from the front part of the bytes of a stream, a decoder gives the samples
   that end in it, one failure, and then nothing more.
-/

namespace SeriesStore.Gorilla

open SeriesStore.Field

/-! ## Where samples end -/

theorem History.codes_append (h : History) (front back : List Sample) :
    h.codes (front ++ back) = h.codes front ++ (front.foldl History.push h).codes back := by
  induction front generalizing h with
  | nil => rfl
  | cons s front ih => simp [History.codes, ih]

/-- The code of a stream begins with that of its first samples. -/
theorem streamCode_append (front back : List Sample) :
    ∃ code, streamCode (front ++ back) = streamCode front ++ code := by
  cases front with
  | nil => exact ⟨_, rfl⟩
  | cons s front =>
    refine ⟨(front.foldl History.push (.start s)).codes back, ?_⟩
    simp [streamCode, History.codes_append]

namespace Encoder

theorem bitLength_ofSamples (samples : List Sample) (capacity : Nat) :
    (ofSamples samples capacity).bitLength = (bitsOfCode (streamCode samples)).length :=
  (ofSamples_holds samples capacity).length

theorem bitLength_ofSamples_append (front back : List Sample) (capacity : Nat) :
    (ofSamples front capacity).bitLength ≤ (ofSamples (front ++ back) capacity).bitLength := by
  obtain ⟨code, hcode⟩ := streamCode_append front back
  rw [bitLength_ofSamples, bitLength_ofSamples, hcode, bitsOfCode_append, List.length_append]
  exact Nat.le_add_right _ _

/-- More samples of a stream do not end before fewer of them. -/
theorem bitLength_ofSamples_take (samples : List Sample) (capacity : Nat) {i j : Nat}
    (h : i ≤ j) :
    (ofSamples (samples.take i) capacity).bitLength ≤
      (ofSamples (samples.take j) capacity).bitLength := by
  obtain ⟨n, rfl⟩ := Nat.exists_eq_add_of_le h
  rw [List.take_add]
  exact bitLength_ofSamples_append _ _ capacity

end Encoder

namespace Decoder

/-! ## Reading up to a cut -/

/-- The decoder gives these samples, then fails because the data ends, and then gives nothing more,
however often it is asked. -/
def BreaksOff (d : Decoder) (samples : List Sample) : Prop :=
  ∀ n, d.outputs (samples.length + 1 + n) =
    samples.map (fun s => .ok (some s)) ++ .error .unexpectedEnd :: List.replicate n (.ok none)

/-- Where the first `j` of the samples end at the bit `ends j`, the decoder gives those that end in
the first `size` bytes of its data, and breaks off. -/
def BreaksOffWithin (d : Decoder) (size : Nat) (ends : Nat → Nat) (samples : List Sample) : Prop :=
  ∃ m < samples.length, ends m ≤ 8 * size ∧ 8 * size < ends (m + 1) ∧
    (d.cut size).BreaksOff (samples.take m)

variable {d d' : Decoder} {s : Sample} {samples : List Sample} {size : Nat}

theorem breaksOff_nil (h : decodeNext d = .error .unexpectedEnd d') : d.BreaksOff [] := by
  intro n
  have hdone := outputs_of_done (d := { d' with decoded := d'.count }) rfl n
  rw [List.length_nil, Nat.zero_add, Nat.add_comm, outputs, next_of_error h]
  simp only [hdone, List.map_nil, List.nil_append]

theorem breaksOff_cons (h : decodeNext d = .ok (some s) d') (hrest : d'.BreaksOff samples) :
    d.BreaksOff (s :: samples) := by
  intro n
  have hlen : (s :: samples).length + 1 + n = samples.length + 1 + n + 1 := by
    rw [List.length_cons]
    omega
  rw [hlen, outputs, next_of_ok h]
  simp only [hrest n, List.map_cons, List.cons_append]

/-- One sample more, which ends before the cut or behind it. -/
theorem cut_next {ends : Nat → Nat} (h : decodeNext d = .ok (some s) d')
    (hstart : d.reader.position ≤ 8 * size) (hzero : ends 0 = d.reader.position)
    (hone : ends 1 = d'.reader.position)
    (hrest : d'.reader.position ≤ 8 * size →
      d'.BreaksOffWithin size (fun j => ends (j + 1)) samples) :
    d.BreaksOffWithin size ends (s :: samples) := by
  by_cases hin : d'.reader.position ≤ 8 * size
  · obtain ⟨m, hm, hbefore, hbehind, hbreaks⟩ := hrest hin
    refine ⟨m + 1, Nat.succ_lt_succ hm, hbefore, hbehind, ?_⟩
    rw [List.take_succ_cons]
    exact breaksOff_cons (decodeNext_within h hin) hbreaks
  · obtain ⟨d'', hcut⟩ := decodeNext_beyond h hstart (Nat.lt_of_not_le hin)
    exact ⟨0, Nat.succ_pos _, by omega, hone ▸ Nat.lt_of_not_le hin, breaksOff_nil hcut⟩

/-- Behind the first sample of a stream the decoder follows the encoder up to the cut. -/
theorem cut_codes {rest : List Bool} (hstarted : d.decoded ≠ 0)
    (hcount : d.count = d.decoded + samples.length) (hw : d.history.window.Proper)
    (h : d.reader.ahead = bitsOfCode (d.history.codes samples) ++ rest)
    (hstart : d.reader.position ≤ 8 * size)
    (hend : 8 * size < d.reader.position + (bitsOfCode (d.history.codes samples)).length) :
    d.BreaksOffWithin size
      (fun j => d.reader.position + (bitsOfCode (d.history.codes (samples.take j))).length)
      samples := by
  induction samples generalizing d with
  | nil =>
    simp only [History.codes, bitsOfCode_nil, List.length_nil] at hend
    omega
  | cons s samples ih =>
    unfold History.codes at h hend
    rw [bitsOfCode_append, List.append_assoc] at h
    rw [bitsOfCode_append, List.length_append] at hend
    rw [List.length_cons] at hcount
    refine cut_next (decodeNext_later (by omega) hstarted hw h) hstart
      (by simp [History.codes]) (by simp [History.codes, BitReader.skip]) fun hin => ?_
    have hlater := ih (d := { d.skip (bitsOfCode (d.history.code s)).length with
        decoded := d.decoded + 1
        history := d.history.push s })
      (Nat.succ_ne_zero _) (by simp; omega) (History.push_proper hw s)
      (show _ = bitsOfCode ((d.history.push s).codes samples) ++ rest by simp [h]) hin
      (by simp [BitReader.skip]; omega)
    simpa [History.codes, BitReader.skip, Nat.add_assoc] using hlater

/-- A decoder at the start of a stream gives the samples before the cut. -/
theorem cut_streamCode {data : Array UInt8} {rest : List Bool}
    (h : bitsOfBytes data.toList = bitsOfCode (streamCode samples) ++ rest)
    (hend : 8 * size < (bitsOfCode (streamCode samples)).length) :
    (ofBytes data samples.length).BreaksOffWithin size
      (fun j => (bitsOfCode (streamCode (samples.take j))).length) samples := by
  cases samples with
  | nil =>
    simp only [streamCode, bitsOfCode_nil, List.length_nil] at hend
    omega
  | cons s samples =>
    unfold streamCode at h hend
    rw [bitsOfCode_append, List.append_assoc] at h
    rw [bitsOfCode_append, List.length_append] at hend
    have hahead : (ofBytes data (s :: samples).length).reader.ahead =
        bitsOfCode (History.firstCode s) ++
          (bitsOfCode ((History.start s).codes samples) ++ rest) := by
      rw [← h]
      rfl
    have hfirst := decodeNext_first (Nat.succ_pos _) rfl rfl hahead
    refine cut_next hfirst (Nat.zero_le _) rfl
      (by simp [streamCode, History.codes, BitReader.skip, ofBytes]) fun hin => ?_
    have hbehind : ((ofBytes data (s :: samples).length).skip
        (bitsOfCode (History.firstCode s)).length).reader.ahead =
          bitsOfCode ((History.start s).codes samples) ++ rest := by
      rw [reader_skip, BitReader.ahead_skip, hahead, List.drop_left]
    have hcount : (s :: samples).length = 1 + samples.length := Nat.add_comm _ _
    have hlater := cut_codes
      (d := { (ofBytes data (s :: samples).length).skip
          (bitsOfCode (History.firstCode s)).length with
        decoded := 1
        history := History.start s })
      Nat.one_ne_zero hcount (History.start_proper s) hbehind hin
      (by simpa [BitReader.skip, ofBytes] using hend)
    simpa [streamCode, BitReader.skip, ofBytes] using hlater

end Decoder

/-- A stream that is cut off never yields a wrong sample. Of the first `size` bytes of a stream that
has more of them, a decoder that expects all its samples gives exactly those, bit for bit, whose
codes end in these bytes; then it reports once that the data has ended; and after that it gives
nothing, however often it is asked. At least the last sample is lost. -/
theorem outputs_truncated (samples : List Sample) (capacity : Nat) {size : Nat}
    (h : size < (Encoder.ofSamples samples capacity).size) :
    ∃ m < samples.length,
      (∀ j ≤ samples.length,
        (Encoder.ofSamples (samples.take j) capacity).bitLength ≤ 8 * size ↔ j ≤ m) ∧
      ∀ n, (Decoder.ofBytes ((Encoder.ofSamples samples capacity).bytes.take size)
          samples.length).outputs (m + 1 + n) =
        (samples.take m).map (fun s => .ok (some s)) ++
          .error .unexpectedEnd :: List.replicate n (.ok none) := by
  have hsize := (Encoder.ofSamples_holds samples capacity).size
  change (Encoder.ofSamples samples capacity).size = _ at hsize
  obtain ⟨rest, hbits⟩ := bitsOfBytes_ofSamples samples capacity #[]
  rw [Array.append_empty] at hbits
  have hend : 8 * size < (bitsOfCode (streamCode samples)).length := by omega
  obtain ⟨m, hm, hbefore, hbehind, hbreaks⟩ := Decoder.cut_streamCode hbits hend
  simp only [← Encoder.bitLength_ofSamples _ capacity] at hbefore hbehind
  have hlen : (samples.take m).length = m := List.length_take_of_le (Nat.le_of_lt hm)
  refine ⟨m, hm, fun j _ => ⟨fun hj => ?_, fun hj => ?_⟩, fun n => ?_⟩
  · refine Nat.le_of_not_lt fun hlt => ?_
    exact Nat.not_lt_of_le hj
      (Nat.lt_of_lt_of_le hbehind (Encoder.bitLength_ofSamples_take samples capacity hlt))
  · exact Nat.le_trans (Encoder.bitLength_ofSamples_take samples capacity hj) hbefore
  · have hout := hbreaks n
    rwa [hlen] at hout

/-- Two samples whose stream is cut inside the value of the second one. -/
theorem outputs_truncated_value :
    let samples : List Sample := [⟨1000, ⟨1⟩⟩, ⟨1010, ⟨0x7ff8000000000001⟩⟩]
    20 < (Encoder.ofSamples samples 0).size ∧
      (Decoder.ofBytes ((Encoder.ofSamples samples 0).bytes.take 20) 2).outputs 4 =
        [.ok (some ⟨1000, ⟨1⟩⟩), .error .unexpectedEnd, .ok none, .ok none] := by
  intro samples
  have hsize : 20 < (Encoder.ofSamples samples 0).size := by decide +kernel
  have hfirst : (Encoder.ofSamples (samples.take 1) 0).bitLength ≤ 8 * 20 := by decide +kernel
  obtain ⟨m, hm, hends, houtputs⟩ := outputs_truncated samples 0 hsize
  obtain rfl : m = 1 := Nat.le_antisymm (Nat.le_of_lt_succ hm) ((hends 1 (by decide)).mp hfirst)
  exact ⟨hsize, houtputs 2⟩

end SeriesStore.Gorilla
