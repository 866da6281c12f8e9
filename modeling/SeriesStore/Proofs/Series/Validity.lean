import SeriesStore.Proofs.Series.Appending
import SeriesStore.Proofs.Series.Reading

/-!
# Valid series

A series is valid where its directory is laid out and its counters tell the
length and the end of its run. New series are valid, and so is a valid series
after an append, a write at any time, or a trim.

Results:
1. `new_valid`, `add_ok`, `settle_valid`, `trim_valid`: validity is kept.
2. `Valid.range`, `Valid.firstTimestamp`, `Valid.lastSample`: what is read off a
   valid series is read off its run.
-/

namespace SeriesStore.Series

/-- The directory is laid out, and the counters agree with the run it holds. -/
structure Valid (s : Series) : Prop where
  laid : Laid s.chunks.entries
  total : s.totalSamples = s.toList.length
  last : ⟨s.lastTimestamp, s.lastValue⟩ = s.toList.getLastD ⟨0, ⟨0⟩⟩
  roomy : 16 ≤ s.chunkSize.toNat

variable {s : Series}

/-! ## Reading -/

theorem Valid.ascending (h : s.Valid) : Run.Ascending s.toList := h.laid.ascending

theorem Valid.isEmpty_iff (h : s.Valid) : s.isEmpty = true ↔ s.toList = [] := by
  unfold isEmpty
  rw [beq_iff_eq, h.total, List.length_eq_zero_iff]

theorem Valid.isEmpty_eq_false (h : s.Valid) : s.isEmpty = false ↔ s.toList ≠ [] := by
  rw [Bool.eq_false_iff, ne_eq, h.isEmpty_iff]

theorem Valid.lastTimestamp_eq (h : s.Valid) : s.lastTimestamp = Run.lastTimestamp s.toList := by
  rw [Run.lastTimestamp_eq_getLastD _ ⟨0⟩, ← h.last]

theorem Valid.getLast? (h : s.Valid) (hne : s.toList ≠ []) :
    s.toList.getLast? = some ⟨s.lastTimestamp, s.lastValue⟩ := by
  obtain ⟨front, x, hlist⟩ := (List.eq_nil_or_concat s.toList).resolve_left hne
  rw [h.last, hlist, List.concat_eq_append, List.getLastD_concat]
  simp

/-- The sample that a series knows as its last one is stored. -/
theorem Valid.last_mem (h : s.Valid) (hne : s.toList ≠ []) :
    ⟨s.lastTimestamp, s.lastValue⟩ ∈ s.toList :=
  List.mem_of_getLast? (h.getLast? hne)

theorem Valid.le_last (h : s.Valid) {x : Sample} (hx : x ∈ s.toList) :
    x.timestamp ≤ s.lastTimestamp := by
  rw [h.lastTimestamp_eq]
  exact h.ascending.le_lastTimestamp hx

/-- A time past the last sample is past all samples. -/
theorem Valid.past (h : s.Valid) {t : Timestamp}
    (hpast : s.isEmpty = true ∨ s.lastTimestamp < t) : ∀ x ∈ s.toList, x.timestamp < t := by
  intro x hx
  rcases hpast with hempty | hlt
  · rw [h.isEmpty_iff.mp hempty] at hx
    cases hx
  · exact UInt64.lt_of_le_of_lt (h.le_last hx) hlt

theorem Valid.range (h : s.Valid) (low high : Timestamp) :
    s.range low high = .ok (s.toList.filter (({ low, high } : Span).holds ·.timestamp)) :=
  range_ok h.laid low high

/-- All samples are read in their order. -/
theorem Valid.range_all (h : s.Valid) : s.range 0 Timestamp.latest = .ok s.toList := by
  rw [h.range, List.filter_eq_self.mpr]
  intro x _
  rw [Span.holds_latest]
  exact decide_eq_true UInt64.zero_le

theorem Valid.firstTimestamp (h : s.Valid) :
    s.firstTimestamp? = s.toList.head?.map (·.timestamp) := by
  unfold firstTimestamp?
  by_cases hnil : s.toList = []
  · rw [if_pos (h.isEmpty_iff.mpr hnil), hnil]
    rfl
  · rw [if_neg (mt h.isEmpty_iff.mp hnil), firstTimestamp_entries h.laid hnil]
    obtain ⟨x, run, hlist⟩ := List.exists_cons_of_ne_nil hnil
    rw [show runOf s.chunks.entries = _ from hlist, hlist]
    rfl

theorem Valid.lastSample (h : s.Valid) : s.lastSample? = s.toList.getLast? := by
  unfold lastSample?
  by_cases hnil : s.toList = []
  · rw [if_pos (h.isEmpty_iff.mpr hnil), hnil]
    rfl
  · rw [if_neg (mt h.isEmpty_iff.mp hnil), h.getLast? hnil]

/-! ## New series -/

theorem le_chunkSize (size : UInt64) : 16 ≤ (max size leastChunkSize).toNat := by
  rw [show max size leastChunkSize =
    if size ≤ leastChunkSize then leastChunkSize else size from rfl]
  split
  · decide
  · rename_i hlt
    have hle := UInt64.le_of_lt (UInt64.not_le.mp hlt)
    exact UInt64.le_iff_toNat_le.mp hle

theorem new_valid (key : String) (options : SeriesOptions) : (new key options).Valid := by
  have hhold := Chunk.empty_holds options.encoding (max options.chunkSize leastChunkSize).toNat
  have hnil := hhold.toList
  have hentries : (new key options).chunks.entries = [(seedKey, _)] := rfl
  have hlist : (new key options).toList = [] := by rw [toList, hentries]; simpa using hnil
  refine ⟨⟨fun e he => ?_, ?_, ?_⟩, ?_, ?_, le_chunkSize _⟩
  · rw [hentries, List.mem_singleton] at he
    rw [he]
    exact hnil.symm ▸ hhold
  · rw [show runOf _ = [] from hlist]
    exact .nil
  · rw [hentries]
    exact .blank _ hnil
  · rw [hlist]
    rfl
  · rw [hlist]
    rfl

/-! ## Appending -/

/-- A sample past the last one ends the run; what is dropped of the run lies before
the retention window. -/
theorem add_ok {sample : Sample} (h : s.Valid)
    (hpast : s.isEmpty = true ∨ s.lastTimestamp < sample.timestamp) :
    ∃ d n gone kept, add sample s = .ok () { s with
        chunks := d
        totalSamples := n
        lastTimestamp := sample.timestamp
        lastValue := sample.value } ∧
      Valid { s with
        chunks := d
        totalSamples := n
        lastTimestamp := sample.timestamp
        lastValue := sample.value } ∧
      s.toList = gone ++ kept ∧ runOf d.entries = kept ++ [sample] ∧
      ∀ x ∈ gone, x.timestamp < s.oldest := by
  obtain ⟨d, gone, kept, hplace, hlaid, happend, hrun, hkeep⟩ :=
    place_ok h.laid h.lastTimestamp_eq (h.past hpast)
  refine ⟨d, s.totalSamples - gone.length + 1, gone, kept, ?_, ⟨hlaid, ?_, ?_, h.roomy⟩, happend,
    hrun, hkeep⟩
  · unfold add
    rw [bind_of_ok hplace]
    rfl
  · have htotal := h.total
    rw [happend, List.length_append] at htotal
    unfold toList
    simp only [hrun, List.length_append, List.length_singleton]
    omega
  · unfold toList
    simp only [hrun, List.getLastD_concat]

/-! ## Dropping chunks -/

theorem trim_valid (h : s.Valid) : s.trim.1.Valid := by
  obtain ⟨d, gone, htrim, hlaid, happend, hkept, -⟩ := trim_ok h.laid h.lastTimestamp_eq
  rw [htrim]
  refine ⟨hlaid, ?_, ?_, h.roomy⟩
  · have htotal := h.total
    rw [happend, List.length_append] at htotal
    simp only [toList]
    omega
  · rw [h.last, happend]
    by_cases hnil : runOf d.entries = []
    · have hall : s.toList = [] := Classical.byContradiction fun hne => hkept hne hnil
      rw [← happend, hall]
      simp [toList, hnil]
    · obtain ⟨front, x, hx⟩ := (List.eq_nil_or_concat (runOf d.entries)).resolve_left hnil
      rw [toList, hx, List.concat_eq_append, ← List.append_assoc, List.getLastD_concat,
        List.getLastD_concat]

/-! ## Settling a write -/

/-- A write past the last sample is settled as an append. -/
theorem settle_past {t : Timestamp} {done : Upserted}
    (h : s.isEmpty = true ∨ s.lastTimestamp < t) :
    s.settle t done = ({ s with
      totalSamples := s.totalSamples + done.gained
      lastTimestamp := t
      lastValue := done.value } : Series).appended ⟨t, done.value⟩ := by
  have hadv : (s.isEmpty || t > s.lastTimestamp) = true := by simpa using h
  unfold settle
  simp only [hadv, if_true]

/-- Any other write leaves the last timestamp where it is. -/
theorem settle_inside {t : Timestamp} {done : Upserted}
    (h : ¬ (s.isEmpty = true ∨ s.lastTimestamp < t)) :
    s.settle t done = ({ s with
      totalSamples := s.totalSamples + done.gained
      lastValue :=
        if t = s.lastTimestamp then done.value else s.lastValue } : Series).revised t := by
  have hadv : (s.isEmpty || t > s.lastTimestamp) = false := by simpa using h
  unfold settle
  simp only [hadv, Bool.false_eq_true, if_false]
  split <;> rfl

/-- A step of the rules keeps the samples and the counters. -/
theorem Valid.stepRules (h : s.Valid) (step : Rule → Rule × Option BucketWrite) :
    (s.stepRules step).1.Valid :=
  ⟨h.laid, h.total, h.last, h.roomy⟩

@[simp] theorem toList_appended (s : Series) (sample : Sample) :
    (s.appended sample).1.toList = s.toList :=
  rfl

@[simp] theorem toList_revised (s : Series) (t : Timestamp) :
    (s.revised t).1.toList = s.toList :=
  rfl

theorem Valid.appended (h : s.Valid) (sample : Sample) : (s.appended sample).1.Valid :=
  h.stepRules _

theorem Valid.revised (h : s.Valid) (t : Timestamp) : (s.revised t).1.Valid := h.stepRules _

/-- A write that was filed leaves a valid series once it is settled. -/
theorem settle_valid {d : Directory Chunk} {sample : Sample} {done : Upserted} (h : s.Valid)
    (hlaid : Laid d.entries) (hw : Run.Written sample s.toList (runOf d.entries) done) :
    (({ s with chunks := d } : Series).settle sample.timestamp done).1.Valid := by
  have htotal : s.totalSamples + done.gained = (runOf d.entries).length := by
    rw [hw.length, h.total]
  -- Whichever sample is the last one, it is told by its timestamp.
  have hlast : ∀ x ∈ runOf d.entries, (∀ y ∈ runOf d.entries, y.timestamp ≤ x.timestamp) →
      x = (runOf d.entries).getLastD ⟨0, ⟨0⟩⟩ := by
    intro x hx hle
    rw [List.getLastD_eq_getLast?, hw.ascending.getLast?_eq hx hle]
    rfl
  by_cases hpast : s.isEmpty = true ∨ s.lastTimestamp < sample.timestamp
  · rw [settle_past (s := { s with chunks := d }) hpast]
    apply Valid.appended
    refine ⟨hlaid, htotal, hlast _ hw.stored fun y hy => ?_, h.roomy⟩
    rcases hw.mem hy with heq | hy
    · exact heq ▸ UInt64.le_refl _
    · exact UInt64.le_of_lt (h.past hpast y hy)
  · rw [settle_inside (s := { s with chunks := d }) hpast]
    obtain ⟨hfull, hle⟩ := not_or.mp hpast
    have hle := UInt64.not_lt.mp hle
    have hstored := h.last_mem (mt h.isEmpty_iff.mpr hfull)
    apply Valid.revised
    refine ⟨hlaid, htotal, hlast _ ?_ fun y hy => ?_, h.roomy⟩
    · by_cases heq : sample.timestamp = s.lastTimestamp
      · simpa [heq] using hw.stored
      · simpa [heq] using (hw.others _ (Ne.symm heq)).mpr hstored
    · rcases hw.mem hy with heq | hy
      · exact heq ▸ hle
      · exact h.le_last hy

/-- Settling keeps the chunks. -/
@[simp] theorem chunks_settle (s : Series) (t : Timestamp) (done : Upserted) :
    (s.settle t done).1.chunks = s.chunks := by
  by_cases hpast : s.isEmpty = true ∨ s.lastTimestamp < t
  · rw [settle_past hpast]
    rfl
  · rw [settle_inside hpast]
    rfl

@[simp] theorem toList_settle (s : Series) (t : Timestamp) (done : Upserted) :
    (s.settle t done).1.toList = s.toList := by
  rw [toList, toList, chunks_settle]

/-! ## What no write changes -/

/-- Two series with the same name, settings and source. -/
structure Alike (s s' : Series) : Prop where
  key : s'.key = s.key
  encoding : s'.encoding = s.encoding
  chunkSize : s'.chunkSize = s.chunkSize
  retention : s'.retention = s.retention
  policy : s'.policy = s.policy
  labels : s'.labels = s.labels
  source : s'.source = s.source

theorem Alike.refl (s : Series) : s.Alike s := ⟨rfl, rfl, rfl, rfl, rfl, rfl, rfl⟩

theorem Alike.trans {s s' s'' : Series} (h : s.Alike s') (h' : s'.Alike s'') : s.Alike s'' where
  key := h'.key.trans h.key
  encoding := h'.encoding.trans h.encoding
  chunkSize := h'.chunkSize.trans h.chunkSize
  retention := h'.retention.trans h.retention
  policy := h'.policy.trans h.policy
  labels := h'.labels.trans h.labels
  source := h'.source.trans h.source

theorem settle_alike (s : Series) (t : Timestamp) (done : Upserted) :
    s.Alike (s.settle t done).1 := by
  by_cases hpast : s.isEmpty = true ∨ s.lastTimestamp < t
  · rw [settle_past hpast]
    exact ⟨rfl, rfl, rfl, rfl, rfl, rfl, rfl⟩
  · rw [settle_inside hpast]
    exact ⟨rfl, rfl, rfl, rfl, rfl, rfl, rfl⟩

end SeriesStore.Series
