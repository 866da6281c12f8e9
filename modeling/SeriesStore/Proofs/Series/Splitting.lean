import SeriesStore.Proofs.Series.Changes
import SeriesStore.Proofs.Series.Uniformity

/-!
# Cutting chunks

A write at any time may put a sample into a chunk that is full, so nothing but the cuts
keeps chunks small. A chunk is cut when it has passed the split threshold, and as it grows
by one sample from one cut to the next, it passes it by one sample at most. A write cuts
one chunk at most, and the two halves of that chunk take its place.

Results:
1. `Call.run_bounded`: the bound on plain chunks, kept by each call.
2. `Entered.parts`: what a write leaves in place of the chunk that it goes to.
3. `cuts_run`: both, after any calls.
-/

namespace SeriesStore

/-! ## The bound on a chunk -/

namespace Chunk

variable {c c' head tail : Chunk} {limit : Nat} {s : Sample} {policy : DuplicatePolicy}
  {done : Upserted}

/-- The chunk is plain, takes no more appended samples than the limit, and exceeds it by
one sample at most. -/
def Bounded (limit : Nat) (c : Chunk) : Prop :=
  ∃ p, c = plain p ∧ p.count ≤ limit + 1 ∧ p.capacity ≤ limit

theorem Bounded.count_le (h : c.Bounded limit) : c.count ≤ limit + 1 := by
  obtain ⟨p, rfl, hcount, -⟩ := h
  exact hcount

theorem bounded_empty {budget : Nat} (hlimit : 1 ≤ limit) (h : budget / 16 ≤ limit) :
    (empty .plain budget).Bounded limit :=
  ⟨_, rfl, Nat.zero_le _, Nat.max_le.mpr ⟨h, hlimit⟩⟩

theorem Bounded.add (h : c.Bounded limit) (hadd : c.add? s = some c') : c'.Bounded limit := by
  obtain ⟨p, rfl, hcount, hcap⟩ := h
  obtain ⟨p', hplain, rfl⟩ := Option.map_eq_some_iff.mp hadd
  unfold PlainChunk.add? at hplain
  split at hplain
  · cases hplain
  · next hroom =>
    cases hplain
    refine ⟨_, rfl, ?_, hcap⟩
    rw [PlainChunk.count, List.length_append]
    exact Nat.succ_le_succ (Nat.le_trans (Nat.le_of_not_le hroom) hcap)

/-- A write into a chunk within the limit takes it over the limit by one sample at most. -/
theorem Bounded.upsert (h : c.Bounded limit) (hcount : c.count ≤ limit)
    (hu : c.upsert s policy = .ok (c', done)) : c'.Bounded limit := by
  obtain ⟨p, rfl, -, hcap⟩ := h
  have hu : (p.upsert s policy).map (fun r => (plain r.1, r.2)) = .ok (c', done) := hu
  unfold PlainChunk.upsert at hu
  cases hrun : Run.upsert policy s p.samples with
  | error e => rw [hrun] at hu; cases hu
  | ok r =>
    rw [hrun] at hu
    cases hu
    exact ⟨_, rfl, Nat.le_trans (Run.length_upsert_le hrun) (Nat.succ_le_succ hcount), hcap⟩

/-- Each half of a chunk over the limit is within it. -/
theorem Bounded.split (h : c.Bounded limit) (hcut : c.split? = some (head, tail)) :
    (head.Bounded limit ∧ head.count ≤ limit) ∧ tail.Bounded limit ∧ tail.count ≤ limit := by
  obtain ⟨p, rfl, hcount, -⟩ := h
  obtain ⟨⟨front, back⟩, hplain, heq⟩ := Option.map_eq_some_iff.mp hcut
  cases heq
  rcases Nat.lt_or_ge p.samples.length 2 with hlen | hlen
  · rw [PlainChunk.split?, Run.halves?, if_pos hlen] at hplain
    cases hplain
  · rw [PlainChunk.split?, Run.halves?_eq hlen] at hplain
    cases hplain
    -- The longer half has one sample less than the chunk at most.
    have hfront : (p.samples.take (p.samples.length - p.samples.length / 2)).length ≤ limit := by
      rw [List.length_take]
      unfold PlainChunk.count at hcount
      omega
    have hback : (p.samples.drop (p.samples.length - p.samples.length / 2)).length ≤ limit := by
      rw [List.length_drop]
      unfold PlainChunk.count at hcount
      omega
    exact ⟨⟨⟨_, rfl, Nat.le_succ_of_le hfront, hfront⟩, hfront⟩,
      ⟨_, rfl, Nat.le_succ_of_le hback, hback⟩, hback⟩

/-- A chunk that is not cut is within the limit. -/
theorem Bounded.of_size_le {threshold : Nat} (h : c.Bounded limit) (hsize : c.size ≤ threshold) :
    c.count ≤ threshold / 16 := by
  obtain ⟨p, rfl, -⟩ := h
  have hsize : 16 * p.count ≤ threshold := hsize
  show p.count ≤ threshold / 16
  omega

end Chunk

namespace Series

variable {s : Series} {d : Directory Chunk} {sample : Sample} {policy : DuplicatePolicy}
  {done : Upserted} {pre post pre₁ post₁ : List (ChunkKey × Chunk)} {k k₁ : ChunkKey} {c c₁ : Chunk}

/-! ## The bound on a series -/

/-- How many samples of a plain chunk fit the split threshold of the series. -/
def limit (s : Series) : Nat := splitThreshold s.chunkSize.toNat / 16

theorem Room.bounded {threshold : Nat} (hroom : Room threshold pre k c post pre₁ k₁ c₁ post₁)
    (h : ∀ e ∈ pre ++ (k, c) :: post, e.2.Bounded (threshold / 16)) :
    (c₁.Bounded (threshold / 16) ∧ c₁.count ≤ threshold / 16) ∧
      ∀ e ∈ pre₁ ++ post₁, e.2.Bounded (threshold / 16) := by
  obtain ⟨hc, hothers⟩ := forall_mem_between.mp h
  cases hroom with
  | whole hsmall => exact ⟨⟨hc, hc.of_size_le hsmall⟩, hothers⟩
  | earlier _ hcut =>
    obtain ⟨hhead, htail, -⟩ := hc.split hcut
    exact ⟨hhead, forall_mem_between.mpr ⟨htail, hothers⟩⟩
  | later _ hcut =>
    obtain ⟨⟨hhead, -⟩, htail⟩ := hc.split hcut
    rw [List.append_assoc, List.singleton_append]
    exact ⟨htail, forall_mem_between.mpr ⟨hhead, hothers⟩⟩

/-- A write keeps the bound, as the chunk that it goes into is within the limit. -/
theorem Entered.bounded (hentered : Entered s sample policy done d)
    (h : ∀ e ∈ s.chunks.entries, e.2.Bounded s.limit) : ∀ e ∈ d.entries, e.2.Bounded s.limit := by
  obtain ⟨pre, k, c, post, pre₁, k₁, c₁, post₁, k₂, c₂, hsplit, -, hroom, hwrite, hentries⟩ :=
    hentered
  obtain ⟨⟨hbounded, hcount⟩, hothers⟩ := hroom.bounded (hsplit ▸ h)
  rw [hentries]
  exact forall_mem_between.mpr ⟨hbounded.upsert hcount hwrite, hothers⟩

/-- No call changes the settings of a series. -/
theorem Call.perform_alike (h : s.Valid) {call : Call} (hcall : call.Admitted s) :
    s.Alike (stateAfter call.perform s) := by
  cases call with
  | add sample =>
    obtain ⟨base, hadd, hplaced⟩ := add_placed h hcall
    exact (stateAfter_of_ok hadd).symm ▸ hplaced.alike
  | upsert sample override fallback =>
    rcases upsert_cases h sample override fallback with ⟨e, -, hup⟩ | ⟨_, _, s', _, -, hup, hchange⟩
    · exact (stateAfter_of_error (map_of_error _ hup)).symm ▸ Alike.refl s
    · exact (stateAfter_of_ok (map_of_ok _ hup)).symm ▸ hchange.alike
  | trim => exact ⟨rfl, rfl, rfl, rfl, rfl, rfl, rfl⟩

theorem Call.run_alike (h : s.Valid) {calls : List Call} (hcalls : Admits calls s) :
    s.Alike (runAll perform calls s) := by
  induction calls generalizing s with
  | nil => exact Alike.refl s
  | cons call calls ih =>
    exact (perform_alike h hcalls.1).trans (ih (perform_valid h hcalls.1).1 hcalls.2)

theorem Call.perform_bounded (h : s.Valid) (hbounded : s.Uniform (·.Bounded s.limit))
    (call : Call) : (stateAfter call.perform s).Uniform (·.Bounded s.limit) := by
  cases call with
  | add sample => exact hbounded.add fun hc hadd => hc.add hadd
  | trim => exact hbounded.trim
  | upsert sample override fallback =>
    cases hu : Run.upsert (.resolve override s.policy fallback) sample s.toList with
    | error e =>
      have hup := map_of_error (fun _ => ()) (upsert_error h.laid hu)
      exact (stateAfter_of_error hup).symm ▸ hbounded
    | ok r =>
      obtain ⟨d, hup, -, -, hentered⟩ := upsert_entered h.laid h.roomy hu
      have hput : Uniform (·.Bounded s.limit) { s with chunks := d } :=
        ⟨hbounded.fresh, hentered.bounded hbounded.chunks⟩
      have hup := map_of_ok (fun _ => ()) hup
      exact (stateAfter_of_ok hup).symm ▸ hput.settle sample.timestamp r.2

/-- Every chunk of a plain series keeps the bound, whatever calls are made. -/
theorem Call.run_bounded (h : s.Valid) (hbounded : s.Uniform (·.Bounded s.limit))
    {calls : List Call} (hcalls : Admits calls s) :
    (runAll perform calls s).Uniform (·.Bounded s.limit) := by
  induction calls generalizing s with
  | nil => exact hbounded
  | cons call calls ih =>
    have hlimit : (stateAfter call.perform s).limit = s.limit := by
      unfold limit
      rw [(perform_alike h hcalls.1).chunkSize]
    have hnext := perform_bounded h hbounded call
    rw [← hlimit] at hnext ⊢
    exact ih (perform_valid h hcalls.1).1 hnext hcalls.2

theorem new_bounded (key : String) {options : SeriesOptions} (hplain : options.encoding = .plain) :
    (new key options).Uniform (·.Bounded (new key options).limit) := by
  have hleast := le_chunkSize options.chunkSize
  have hbudget := budget_le_splitThreshold (new key options).chunkSize.toNat_lt
  have hlimit : (max options.chunkSize leastChunkSize).toNat / 16 ≤ (new key options).limit :=
    Nat.div_le_div_right hbudget
  refine new_uniform key options ?_
  rw [hplain]
  exact Chunk.bounded_empty (by omega) hlimit

/-! ## Cuts -/

/-- The chunk becomes another one by taking the sample. -/
def Takes (sample : Sample) (policy : DuplicatePolicy) (c c' : Chunk) : Prop :=
  ∃ done, c.upsert sample policy = .ok (c', done)

/-- Two entries in place of the chunk `c`, which was filed under `k`: its halves, of which
one has taken the sample. -/
structure Halves (sample : Sample) (policy : DuplicatePolicy) (k : ChunkKey) (c : Chunk)
    (earlier later : ChunkKey × Chunk) : Prop where
  halved : ∃ head tail, c.split? = some (head, tail) ∧ c.toList = head.toList ++ tail.toList ∧
    0 < head.count ∧ 0 < tail.count ∧ head.lastTimestamp < tail.firstTimestamp ∧
    (Takes sample policy head earlier.2 ∧ later = (.ofTimestamp tail.firstTimestamp, tail) ∨
      earlier = (k, head) ∧ Takes sample policy tail later.2)
  filled : 0 < earlier.2.count ∧ 0 < later.2.count
  apart : earlier.2.lastTimestamp < later.2.firstTimestamp

/-- Neighbours in a directory hold samples and lie apart. -/
theorem WellFormed.neighbours (h : s.WellFormed) {e e' : ChunkKey × Chunk}
    (hsplit : s.chunks.entries = pre ++ e :: e' :: post) :
    (0 < e.2.count ∧ 0 < e'.2.count) ∧ e.2.lastTimestamp < e'.2.firstTimestamp := by
  have hfilled : ∀ x ∈ s.chunks.entries, 0 < x.2.count := by
    intro x hx
    refine Nat.pos_of_ne_zero fun hcount => ?_
    have hlen := congrArg List.length (h.filled x hx hcount).1
    rw [hsplit, List.length_append, List.length_cons, List.length_cons, List.length_singleton]
      at hlen
    omega
  exact ⟨⟨hfilled e (by simp [hsplit]), hfilled e' (by simp [hsplit])⟩,
    h.apart pre e e' post hsplit⟩

/-- A write leaves one entry in place of the chunk that it goes to, or two where it cuts
this chunk. -/
theorem Entered.parts {s' : Series} (hentered : Entered s sample policy done s'.chunks)
    (h : s.Valid) (h' : s'.WellFormed) :
    ∃ pre k c post, s.chunks.entries = pre ++ (k, c) :: post ∧ target sample.timestamp s = .ok k s ∧
      (c.size ≤ splitThreshold s.chunkSize.toNat → ∃ k' c', Takes sample policy c c' ∧
        s'.chunks.entries = pre ++ (k', c') :: post) ∧
      (splitThreshold s.chunkSize.toNat < c.size → ∃ earlier later,
        Halves sample policy k c earlier later ∧
        s'.chunks.entries = pre ++ earlier :: later :: post) := by
  obtain ⟨pre, k, c, post, pre₁, k₁, c₁, post₁, k₂, c₂, hsplit, htarget, hroom, hwrite, hentries⟩ :=
    hentered
  have hasc : Run.Ascending c.toList := h.laid.ascending_of_mem (e := (k, c)) (by simp [hsplit])
  refine ⟨pre, k, c, post, hsplit, htarget, ?_⟩
  cases hroom with
  | whole hsmall =>
    exact ⟨fun _ => ⟨k₂, c₂, ⟨done, hwrite⟩, hentries⟩,
      fun hlarge => absurd hsmall (Nat.not_le.mpr hlarge)⟩
  | earlier hlarge hcut hhalved =>
    refine ⟨fun hsmall => absurd hsmall (Nat.not_le.mpr hlarge), fun _ => ?_⟩
    obtain ⟨hfilled, hapart⟩ := h'.neighbours hentries
    obtain ⟨hhead, htail⟩ := hhalved.filled
    exact ⟨_, _, ⟨⟨_, _, hcut, hhalved.append, hhead, htail, hhalved.apart hasc,
      .inl ⟨⟨done, hwrite⟩, rfl⟩⟩, hfilled, hapart⟩, hentries⟩
  | later hlarge hcut hhalved =>
    refine ⟨fun hsmall => absurd hsmall (Nat.not_le.mpr hlarge), fun _ => ?_⟩
    rw [List.append_assoc, List.singleton_append] at hentries
    obtain ⟨hfilled, hapart⟩ := h'.neighbours hentries
    obtain ⟨hhead, htail⟩ := hhalved.filled
    exact ⟨_, _, ⟨⟨_, _, hcut, hhalved.append, hhead, htail, hhalved.apart hasc,
      .inr ⟨rfl, ⟨done, hwrite⟩⟩⟩, hfilled, hapart⟩, hentries⟩

/-- A write that succeeds has gone into the chunk that was chosen for it. -/
theorem entered_of_ok (h : s.Valid) {override fallback : DuplicatePolicy} {s' : Series}
    {writes : List BucketWrite} (hok : upsert sample override fallback s = .ok writes s') :
    ∃ done, Entered s sample (.resolve override s.policy fallback) done s'.chunks := by
  cases hu : Run.upsert (.resolve override s.policy fallback) sample s.toList with
  | error e =>
    rw [upsert_error h.laid hu] at hok
    cases hok
  | ok r =>
    obtain ⟨d, hup, -, -, hentered⟩ := upsert_entered h.laid h.roomy hu
    rw [hup] at hok
    cases hok
    rw [chunks_settle]
    exact ⟨r.2, hentered⟩

/-- Whatever calls are made on a new series, a plain chunk exceeds the split threshold by one
sample at most. A write that succeeds then adds one entry to the directory where the chunk that
was chosen for it has passed the threshold, and none otherwise: the halves of that chunk take its
place, both with samples, and the later one starts behind the end of the earlier one. -/
theorem cuts_run (key : String) (options : SeriesOptions) (calls : List Call)
    (h : Call.Admits calls (new key options)) :
    let threshold := splitThreshold (new key options).chunkSize.toNat
    let s := runAll Call.perform calls (new key options)
    (new key options).chunkSize.toNat ≤ threshold ∧ 19 ≤ threshold ∧
      (options.encoding = .plain → ∀ n,
        ∀ c ∈ (runAll Call.perform (calls.take n) (new key options)).chunks.values,
          c.count ≤ threshold / 16 + 1) ∧
      ∀ sample override fallback writes s', upsert sample override fallback s = .ok writes s' →
        let policy := DuplicatePolicy.resolve override s.policy fallback
        ∃ pre k c post, s.chunks.entries = pre ++ (k, c) :: post ∧
          outcome (target sample.timestamp) s = .ok k ∧
          (c.size ≤ threshold → s'.chunks.size = s.chunks.size ∧ ∃ k' c',
            Takes sample policy c c' ∧ s'.chunks.entries = pre ++ (k', c') :: post) ∧
          (threshold < c.size → s'.chunks.size = s.chunks.size + 1 ∧ ∃ earlier later,
            Halves sample policy k c earlier later ∧
            s'.chunks.entries = pre ++ earlier :: later :: post) := by
  intro threshold s
  have hnew := new_valid key options
  have hvalid : s.Valid := Call.run_valid hnew h
  have hsize : s.chunkSize = (new key options).chunkSize := (Call.run_alike hnew h).chunkSize
  refine ⟨budget_le_splitThreshold (new key options).chunkSize.toNat_lt,
    nineteen_le_splitThreshold hnew.roomy, fun hplain n c hc => ?_,
    fun sample override fallback writes s' hok => ?_⟩
  · obtain ⟨e, he, rfl⟩ := List.mem_map.mp hc
    exact ((Call.run_bounded hnew (new_bounded key hplain) (h.take n)).chunks e he).count_le
  · intro policy
    have hcall : stateAfter (Call.upsert sample override fallback).perform s = s' :=
      stateAfter_of_ok (map_of_ok (fun _ => ()) hok)
    have hadmitted : (Call.upsert sample override fallback).Admitted s := trivial
    have hvalid' : s'.Valid := hcall ▸ (Call.perform_valid hvalid hadmitted).1
    obtain ⟨done, hentered⟩ := entered_of_ok hvalid hok
    obtain ⟨pre, k, c, post, hsplit, htarget, hsmall, hlarge⟩ :=
      hentered.parts hvalid hvalid'.wellFormed
    rw [hsize] at hsmall hlarge
    refine ⟨pre, k, c, post, hsplit, outcome_of_ok htarget, fun hle => ?_, fun hlt => ?_⟩
    · obtain ⟨k', c', htakes, hentries⟩ := hsmall hle
      refine ⟨?_, k', c', htakes, hentries⟩
      simp [SortedMap.size, hsplit, hentries]
    · obtain ⟨earlier, later, hhalves, hentries⟩ := hlarge hlt
      refine ⟨?_, earlier, later, hhalves, hentries⟩
      simp [SortedMap.size, hsplit, hentries, Nat.add_assoc]

/-- A write between the two samples of a chunk that has passed the threshold. -/
theorem cuts_run_between :
    let calls : List Call := [.add ⟨10, ⟨1⟩⟩, .upsert ⟨20, ⟨2⟩⟩ .unset .block]
    let options : SeriesOptions := { chunkSize := 16, encoding := .plain }
    let s := runAll Call.perform calls (new "s" options)
    Call.Admits calls (new "s" options) ∧
      outcome (upsert ⟨15, ⟨3⟩⟩ .unset .block) s = .ok [] ∧
      (stateAfter (upsert ⟨15, ⟨3⟩⟩ .unset .block) s).chunks.size = s.chunks.size + 1 := by
  intro calls options s
  have hcalls : Call.Admits calls (new "s" options) := by decide +kernel
  have hok : outcome (upsert ⟨15, ⟨3⟩⟩ .unset .block) s = .ok [] := by decide +kernel
  have hlarge : ∀ e ∈ s.chunks.entries,
      splitThreshold (new "s" options).chunkSize.toNat < e.2.size := by decide +kernel
  obtain ⟨pre, k, c, post, hsplit, -, -, hcut⟩ :=
    (cuts_run "s" options calls hcalls).2.2.2 _ _ _ _ _ (of_outcome_ok hok)
  have hc : (k, c) ∈ s.chunks.entries := by
    rw [hsplit]
    simp
  exact ⟨hcalls, hok, (hcut (hlarge _ hc)).1⟩

end Series

end SeriesStore
