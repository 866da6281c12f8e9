import SeriesStore.Chunk
import SeriesStore.Proofs.Gorilla.RoundTrip
import SeriesStore.Proofs.Runs

/-!
# Chunks hold runs

A chunk of either encoding stands for the run of samples it lists. A plain chunk
keeps the run as it is; a compressed chunk is the stream of the run over a buffer
of its budget, after any appends, writes and cuts. A chunk that holds the run
moreover takes a first sample whenever it is empty.

Results:
1. `Lists.samples`, `Lists.count`, `Lists.firstTimestamp`, `Lists.lastTimestamp`:
   what a chunk tells of its samples is read off its run.
2. `Lists.add`, `Lists.upsert_ok`, `Lists.upsert_error`, `Lists.split_some`: each
   operation does to the run what its name says, and so for `Holds`.
3. `Holds.two_le_of_size`: a chunk larger than one sample can be cut.
-/

namespace SeriesStore

namespace Gorilla.Encoder

theorem firstTimestamp_foldl {e : Encoder} (h : e.count ≠ 0) (samples : List Sample) :
    (samples.foldl encode e).firstTimestamp = e.firstTimestamp := by
  induction samples generalizing e with
  | nil => rfl
  | cons s samples ih =>
    rw [List.foldl_cons, ih (Nat.succ_ne_zero e.count)]
    exact if_neg h

theorem firstTimestamp_ofSamples (samples : List Sample) (capacity : Nat) :
    (ofSamples samples capacity).firstTimestamp = Run.firstTimestamp samples := by
  cases samples with
  | nil => rfl
  | cons s samples =>
    unfold ofSamples
    rw [List.foldl_cons, firstTimestamp_foldl (Nat.succ_ne_zero _)]
    simp [encode, ofCapacity, Run.firstTimestamp]

theorem lastTimestamp_encode (e : Encoder) (s : Sample) :
    (e.encode s).lastTimestamp = s.timestamp := by
  unfold encode
  simp only [lastTimestamp]
  split <;> rfl

theorem ofSamples_concat (samples : List Sample) (s : Sample) (capacity : Nat) :
    ofSamples (samples ++ [s]) capacity = (ofSamples samples capacity).encode s := by
  unfold ofSamples
  rw [List.foldl_append]
  rfl

theorem lastTimestamp_ofSamples (samples : List Sample) (capacity : Nat) :
    (ofSamples samples capacity).lastTimestamp = Run.lastTimestamp samples := by
  rcases List.eq_nil_or_concat samples with rfl | ⟨front, last, h⟩
  · rfl
  · rw [h, List.concat_eq_append, ofSamples_concat, lastTimestamp_encode,
      Run.lastTimestamp_concat]

/-- A stream of at most one sample takes no more than a plain sample. -/
theorem size_ofSamples_le {samples : List Sample} (h : samples.length ≤ 1) (capacity : Nat) :
    (ofSamples samples capacity).size ≤ 16 := by
  have hbits : (Field.bitsOfCode (streamCode samples)).length ≤ 128 := by
    cases samples with
    | nil => simp [streamCode]
    | cons s rest =>
      have hrest : rest = [] := List.eq_nil_of_length_eq_zero (by simpa using h)
      simp [hrest, streamCode, History.codes, History.firstCode, Field.bits]
  unfold size
  rw [(ofSamples_holds samples capacity).size]
  omega

end Gorilla.Encoder

namespace Chunk

/-- The chunk holds the run. -/
def Holds : Chunk → List Sample → Prop
  | compressed c, run => c = .ofSamples run c.budget
  | plain c, run => c.samples = run ∧ 0 < c.capacity

/-- The chunk lists the run, whether or not it takes a sample at its end. -/
def Lists : Chunk → List Sample → Prop
  | compressed c, run => c = .ofSamples run c.budget
  | plain c, run => c.samples = run

/-- The chunk takes a sample once it is empty. -/
def Open : Chunk → Prop
  | compressed _ => True
  | plain c => 0 < c.capacity

variable {c : Chunk} {run : List Sample}

theorem holds_iff : c.Holds run ↔ c.Lists run ∧ c.Open := by
  cases c with
  | compressed c => exact (and_iff_left trivial).symm
  | plain c => exact Iff.rfl

theorem Holds.lists (h : c.Holds run) : c.Lists run := (holds_iff.mp h).1

theorem empty_holds (encoding : Encoding) (budget : Nat) : (empty encoding budget).Holds [] := by
  cases encoding with
  | compressed => rfl
  | plain => exact ⟨rfl, Nat.lt_of_lt_of_le Nat.one_pos (Nat.le_max_right _ _)⟩

/-! ## Reading -/

theorem Lists.samples (h : c.Lists run) : c.samples = .ok run := by
  cases c with
  | compressed c =>
    show c.encoder.samples = .ok run
    rw [h]
    exact Gorilla.samples_ofSamples run c.budget
  | plain c => exact congrArg Except.ok h

theorem Lists.count (h : c.Lists run) : c.count = run.length := by
  cases c with
  | compressed c =>
    show c.encoder.count = run.length
    rw [h]
    exact Gorilla.Encoder.count_ofSamples run c.budget
  | plain c => exact congrArg List.length h

theorem Lists.firstTimestamp (h : c.Lists run) : c.firstTimestamp = Run.firstTimestamp run := by
  cases c with
  | compressed c =>
    show c.encoder.firstTimestamp = _
    rw [h]
    exact Gorilla.Encoder.firstTimestamp_ofSamples run c.budget
  | plain c => exact congrArg Run.firstTimestamp h

theorem Lists.lastTimestamp (h : c.Lists run) : c.lastTimestamp = Run.lastTimestamp run := by
  cases c with
  | compressed c =>
    show c.encoder.lastTimestamp = _
    rw [h]
    exact Gorilla.Encoder.lastTimestamp_ofSamples run c.budget
  | plain c => exact congrArg Run.lastTimestamp h

theorem Holds.samples (h : c.Holds run) : c.samples = .ok run := h.lists.samples

theorem Holds.count (h : c.Holds run) : c.count = run.length := h.lists.count

theorem Holds.firstTimestamp (h : c.Holds run) : c.firstTimestamp = Run.firstTimestamp run :=
  h.lists.firstTimestamp

theorem Holds.lastTimestamp (h : c.Holds run) : c.lastTimestamp = Run.lastTimestamp run :=
  h.lists.lastTimestamp

theorem Holds.unique {run' : List Sample} (h : c.Holds run) (h' : c.Holds run') : run = run' :=
  Except.ok.inj (h.samples.symm.trans h'.samples)

/-- A chunk that is larger than a plain sample holds two samples at least. -/
theorem Holds.two_le_of_size (h : c.Holds run) (hsize : 16 < c.size) : 2 ≤ run.length := by
  cases c with
  | compressed c =>
    have hsize : 16 < c.encoder.size := hsize
    rw [h] at hsize
    apply Nat.lt_of_not_le
    intro hle
    exact Nat.not_le_of_lt hsize (Gorilla.Encoder.size_ofSamples_le hle c.budget)
  | plain c =>
    have hsize : 16 < 16 * c.samples.length := hsize
    rw [h.1] at hsize
    omega

/-! ## Encodings -/

/-- How the chunk keeps its samples. -/
def encoding : Chunk → Encoding
  | compressed _ => .compressed
  | plain _ => .plain

theorem encoding_empty (encoding : Encoding) (budget : Nat) :
    (empty encoding budget).encoding = encoding := by
  cases encoding <;> rfl

theorem encoding_add {c' : Chunk} {s : Sample} (h : c.add? s = some c') :
    c'.encoding = c.encoding := by
  cases c with
  | compressed c | plain c =>
    obtain ⟨_, _, rfl⟩ := Option.map_eq_some_iff.mp h
    rfl

theorem encoding_upsert {c' : Chunk} {s : Sample} {policy : DuplicatePolicy} {done : Upserted}
    (h : c.upsert s policy = .ok (c', done)) : c'.encoding = c.encoding := by
  cases c with
  | compressed c | plain c =>
    have h : (c.upsert s policy).map _ = _ := h
    cases hu : c.upsert s policy <;> rw [hu] at h <;> cases h
    rfl

theorem encoding_split {head tail : Chunk} (h : c.split? = some (head, tail)) :
    head.encoding = c.encoding ∧ tail.encoding = c.encoding := by
  cases c with
  | compressed c | plain c =>
    obtain ⟨_, _, hhalves⟩ := Option.map_eq_some_iff.mp h
    cases hhalves
    exact ⟨rfl, rfl⟩

/-- A plain chunk is read from its end. -/
theorem Holds.scan_reverse (h : c.Holds run) (hplain : c.encoding = .plain) :
    c.scan true = .ok run.reverse := by
  cases c with
  | compressed c => cases hplain
  | plain c => exact congrArg (Except.ok ·.reverse) h.lists

/-- A coded stream is not read from its end. -/
theorem scan_reverse_compressed (hcoded : c.encoding = .compressed) :
    c.scan true = .error (.unsupported "reverse iteration over compressed chunks") := by
  cases c with
  | compressed c => rfl
  | plain c => cases hcoded

/-! ## Writing -/

section Writing

variable {c' : Chunk} {run' : List Sample} {s : Sample} {policy : DuplicatePolicy}
  {done : Upserted} {e : StoreError}

theorem Lists.add (h : c.Lists run) (hadd : c.add? s = some c') : c'.Lists (run ++ [s]) := by
  cases c with
  | compressed c =>
    unfold add? at hadd
    simp only [CompressedChunk.add?] at hadd
    split at hadd
    · cases hadd
    · cases hadd
      have henc : c.encoder = .ofSamples run c.budget := congrArg CompressedChunk.encoder h
      rw [Lists, henc, CompressedChunk.ofSamples, Gorilla.Encoder.ofSamples_concat]
  | plain c =>
    unfold add? at hadd
    simp only [PlainChunk.add?] at hadd
    split at hadd
    · cases hadd
    · cases hadd
      exact congrArg (· ++ [s]) h

theorem Open.add (h : c.Open) (hadd : c.add? s = some c') : c'.Open := by
  cases c with
  | compressed c =>
    obtain ⟨_, _, rfl⟩ := Option.map_eq_some_iff.mp hadd
    trivial
  | plain c =>
    unfold add? at hadd
    simp only [PlainChunk.add?] at hadd
    split at hadd
    · cases hadd
    · cases hadd
      exact h

theorem Lists.upsert_ok (h : c.Lists run) (hu : Run.upsert policy s run = .ok (run', done)) :
    ∃ c', c.upsert s policy = .ok (c', done) ∧ c'.Lists run' ∧ (c.Open → c'.Open) := by
  cases c with
  | compressed c =>
    have hsamples : c.samples = .ok run := h.samples
    refine ⟨.compressed (.ofSamples run' c.budget), ?_, rfl, id⟩
    simp [upsert, CompressedChunk.upsert, hsamples, hu, bind, Except.bind, pure, Except.pure,
      Except.map]
  | plain c =>
    have hsamples : c.samples = run := h
    refine ⟨.plain { c with samples := run' }, ?_, rfl, id⟩
    simp [upsert, PlainChunk.upsert, hsamples, hu, bind, Except.bind, pure, Except.pure, Except.map]

theorem Lists.upsert_error (h : c.Lists run) (hu : Run.upsert policy s run = .error e) :
    c.upsert s policy = .error e := by
  cases c with
  | compressed c =>
    have hsamples : c.samples = .ok run := h.samples
    simp [upsert, CompressedChunk.upsert, hsamples, hu, bind, Except.bind, Except.map]
  | plain c =>
    have hsamples : c.samples = run := h
    simp [upsert, PlainChunk.upsert, hsamples, hu, bind, Except.bind, Except.map]

theorem Lists.split_none (h : c.Lists run) (hlen : run.length < 2) : c.split? = none := by
  have hhalves : Run.halves? run = none := if_pos hlen
  cases c with
  | compressed c =>
    have hsamples : c.samples = .ok run := h.samples
    simp [split?, CompressedChunk.split?, hsamples, hhalves]
  | plain c =>
    have hsamples : c.samples = run := h
    simp [split?, PlainChunk.split?, hsamples, hhalves]

/-- A chunk of two samples or more is cut before its later half. -/
theorem Lists.split_some (h : c.Lists run) (hlen : 2 ≤ run.length) :
    ∃ head tail, c.split? = some (head, tail) ∧
      head.Lists (run.take (run.length - run.length / 2)) ∧
      tail.Lists (run.drop (run.length - run.length / 2)) ∧ head.Open ∧ tail.Open := by
  have hhalves := Run.halves?_eq hlen
  obtain ⟨hfront, hback⟩ := Run.halves_ne_nil hlen
  generalize run.take (run.length - run.length / 2) = front at *
  generalize run.drop (run.length - run.length / 2) = back at *
  cases c with
  | compressed c =>
    have hsamples : c.samples = .ok run := h.samples
    refine ⟨.compressed (.ofSamples front c.budget), .compressed (.ofSamples back c.budget), ?_,
      rfl, rfl, trivial, trivial⟩
    simp [split?, CompressedChunk.split?, hsamples, hhalves]
  | plain c =>
    have hsamples : c.samples = run := h
    refine ⟨.plain ⟨front, front.length⟩, .plain ⟨back, back.length⟩, ?_, rfl, rfl,
      List.length_pos_iff.mpr hfront, List.length_pos_iff.mpr hback⟩
    simp [split?, PlainChunk.split?, hsamples, hhalves]

theorem Holds.add (h : c.Holds run) (hadd : c.add? s = some c') : c'.Holds (run ++ [s]) :=
  holds_iff.mpr ⟨h.lists.add hadd, (holds_iff.mp h).2.add hadd⟩

/-- The first sample always finds room. -/
theorem Holds.add_first (h : c.Holds []) (s : Sample) : ∃ c', c.add? s = some c' := by
  cases c with
  | compressed c =>
    have hcount : c.count = 0 := h.count
    exact ⟨_, by simp [add?, CompressedChunk.add?, hcount]; rfl⟩
  | plain c =>
    have hcount : ¬ c.count ≥ c.capacity := by
      unfold PlainChunk.count
      rw [h.1]
      exact Nat.not_le_of_lt h.2
    exact ⟨_, by rw [add?, PlainChunk.add?, if_neg hcount]; rfl⟩

theorem Holds.upsert_ok (h : c.Holds run) (hu : Run.upsert policy s run = .ok (run', done)) :
    ∃ c', c.upsert s policy = .ok (c', done) ∧ c'.Holds run' := by
  obtain ⟨hlists, hopen⟩ := holds_iff.mp h
  obtain ⟨c', hok, hlists', hopen'⟩ := hlists.upsert_ok hu
  exact ⟨c', hok, holds_iff.mpr ⟨hlists', hopen' hopen⟩⟩

theorem Holds.upsert_error (h : c.Holds run) (hu : Run.upsert policy s run = .error e) :
    c.upsert s policy = .error e :=
  h.lists.upsert_error hu

/-- A chunk of two samples or more is cut in two chunks that are not empty. -/
theorem Holds.split (h : c.Holds run) (hlen : 2 ≤ run.length) :
    ∃ head tail front back, c.split? = some (head, tail) ∧ head.Holds front ∧ tail.Holds back ∧
      run = front ++ back ∧ front ≠ [] ∧ back ≠ [] := by
  obtain ⟨head, tail, hcut, hhead, htail, hopen, hopen'⟩ := h.lists.split_some hlen
  obtain ⟨hfront, hback⟩ := Run.halves_ne_nil hlen
  exact ⟨head, tail, _, _, hcut, holds_iff.mpr ⟨hhead, hopen⟩, holds_iff.mpr ⟨htail, hopen'⟩,
    (List.take_append_drop _ run).symm, hfront, hback⟩

end Writing

end Chunk

end SeriesStore
