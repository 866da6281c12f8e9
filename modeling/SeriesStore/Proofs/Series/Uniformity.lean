import SeriesStore.Proofs.Series.Invariant

/-!
# What holds of every chunk

A series is uniform in a property where all its chunks have it and a chunk that it
opens has it too. Whether it stays so is told by what is done to one chunk at a time:
dropping chunks and filing them anew does not matter.

Results:
1. `Uniform.add`, `Uniform.trim`: appends and trims, for what appended samples keep.
2. `Uniform.run`: any calls, for what every change of a chunk keeps.
-/

namespace SeriesStore.Series

variable {p : Chunk → Prop} {s : Series} {c : Chunk} {k : ChunkKey}

/-- All chunks have the property, and so does a chunk that the series opens. -/
structure Uniform (p : Chunk → Prop) (s : Series) : Prop where
  fresh : p (.empty s.encoding s.chunkSize.toNat)
  chunks : ∀ e ∈ s.chunks.entries, p e.2

theorem new_uniform (key : String) (options : SeriesOptions)
    (h : p (.empty options.encoding (max options.chunkSize leastChunkSize).toNat)) :
    (new key options).Uniform p where
  fresh := h
  chunks e he := by
    have hentries : (new key options).chunks.entries = [(seedKey, _)] := rfl
    rw [hentries, List.mem_singleton] at he
    rw [he]
    exact h

namespace Uniform

theorem of_get? (h : s.Uniform p) (hk : s.chunks.get? k = some c) : p c :=
  h.chunks (k, c) (SortedMap.mem_entries_iff.mpr hk)

theorem insert (h : s.Uniform p) (k : ChunkKey) (hc : p c) :
    Uniform p { s with chunks := s.chunks.insert k c } where
  fresh := h.fresh
  chunks e he := by
    rcases SortedMap.mem_entries_insert.mp he with rfl | ⟨-, he⟩
    · exact hc
    · exact h.chunks e he

theorem erase (h : s.Uniform p) (k : ChunkKey) :
    Uniform p { s with chunks := s.chunks.erase k } where
  fresh := h.fresh
  chunks e he := h.chunks e (List.mem_of_mem_filter he)

theorem trim (h : s.Uniform p) : s.trim.1.Uniform p where
  fresh := h.fresh
  chunks e he := h.chunks e ((List.dropWhile_sublist _).mem he)

/-! ### Appending -/

section Appending

variable {sample : Sample} (hadd : ∀ {c c' : Chunk}, p c → c.add? sample = some c' → p c')
include hadd

theorem openChunk (h : s.Uniform p) : (stateAfter (openChunk sample) s).Uniform p := by
  unfold Series.openChunk
  rw [stateAfter_get_bind]
  dsimp only
  split
  · exact h
  split
  · exact h
  · next hopen => exact h.insert _ (hadd h.fresh hopen)

theorem place (h : s.Uniform p) : (stateAfter (place sample) s).Uniform p := by
  unfold Series.place
  rw [stateAfter_get_bind]
  split
  · exact h
  next key chunk hlast =>
    have hmem : (key, chunk) ∈ s.chunks.entries := List.mem_of_getLast? hlast
    split
    · next hroom => exact h.insert key (hadd (h.chunks _ hmem) hroom)
    · exact h.trim.openChunk hadd

/-- An append keeps what appended samples keep of a chunk. -/
theorem add (h : s.Uniform p) : (stateAfter (add sample) s).Uniform p :=
  stateAfter_bind (h.place hadd) fun _ _ _ h' => ⟨h'.fresh, h'.chunks⟩

end Appending

/-! ### Writing at any time -/

theorem chunkAt_reads (s : Series) (k : ChunkKey) (t : Timestamp) :
    stateAfter (chunkAt k t) s = s ∧ ∀ c, chunkAt k t s = .ok c s → s.chunks.get? k = some c := by
  cases hget : s.chunks.get? k with
  | none =>
    have hfail : chunkAt k t s = .error (.chunkNotFound t s.key) s := by
      unfold chunkAt
      rw [bind_of_ok (get_apply s)]
      simp only [hget]
      rfl
    rw [hfail]
    exact ⟨stateAfter_of_error hfail, fun c hc => by cases hc⟩
  | some c =>
    have hok := chunkAt_ok hget t
    rw [hok]
    exact ⟨stateAfter_of_ok hok, fun c' hc => by cases hc; rfl⟩

theorem target_reads (s : Series) (t : Timestamp) : stateAfter (target t) s = s := by
  unfold target
  rw [stateAfter_get_bind]
  split
  · rfl
  split
  · split <;> rfl
  · rfl

theorem makeRoom (h : s.Uniform p)
    (hcut : ∀ {c head tail : Chunk}, p c → c.split? = some (head, tail) → p head ∧ p tail)
    (k : ChunkKey) (t : Timestamp) (policy : DuplicatePolicy) :
    (stateAfter (makeRoom k t policy) s).Uniform p := by
  unfold Series.makeRoom
  rw [stateAfter_get_bind]
  refine stateAfter_bind_of_reads (chunkAt_reads s k t).1 h fun c hc => ?_
  have hc := h.of_get? ((chunkAt_reads s k t).2 c hc)
  -- Whether or not the write was looked at first, the chunk is cut in the same way.
  have hhalves : ∀ head tail, c.split? = some (head, tail) → Uniform p
      { s with
        chunks := (s.chunks.insert k head).insert (.ofTimestamp tail.firstTimestamp) tail } := by
    intro head tail hsplit
    obtain ⟨hhead, htail⟩ := hcut hc hsplit
    exact (h.insert k hhead).insert _ htail
  split
  · exact h
  dsimp only
  split
  · refine stateAfter_bind_of_reads (stateAfter_ofExcept _ s) h fun run _ => ?_
    split
    · exact h
    split
    · exact h
    · next hsplit =>
      refine stateAfter_bind (hhalves _ _ hsplit) fun _ s' _ hs' => ?_
      split <;> exact hs'
  · split
    · exact h
    · next hsplit =>
      refine stateAfter_bind (hhalves _ _ hsplit) fun _ s' _ hs' => ?_
      split <;> exact hs'

theorem refile (h : s.Uniform p) (k : ChunkKey) (old new : Timestamp) :
    (stateAfter (refile k old new) s).Uniform p := by
  unfold Series.refile
  rw [stateAfter_get_bind]
  dsimp only
  split
  · exact h
  split
  · exact h
  · next hget =>
    have hnew := (h.erase k).insert (.ofTimestamp new) (h.of_get? hget)
    refine stateAfter_bind hnew fun _ s' _ hs' => ?_
    split <;> exact hs'

theorem writeInto (h : s.Uniform p) {sample : Sample} {policy : DuplicatePolicy}
    (hwrite : ∀ {c c' : Chunk} {done : Upserted}, p c →
      c.upsert sample policy = .ok (c', done) → p c') (k : ChunkKey) :
    (stateAfter (writeInto k sample policy) s).Uniform p := by
  unfold Series.writeInto
  refine stateAfter_bind_of_reads (chunkAt_reads s k _).1 h fun c hc => ?_
  have hc := h.of_get? ((chunkAt_reads s k _).2 c hc)
  refine stateAfter_bind_of_reads (stateAfter_ofExcept _ s) h fun ⟨changed, done⟩ hu => ?_
  have hput := h.insert k (hwrite hc (ofExcept_eq_ok hu))
  refine stateAfter_bind hput fun _ s' _ hs' => ?_
  dsimp only
  split
  · exact stateAfter_bind (hs'.refile _ _ _) fun _ _ _ h' => h'
  · exact hs'

theorem settle (h : s.Uniform p) (t : Timestamp) (done : Upserted) :
    (s.settle t done).1.Uniform p := by
  have halike := settle_alike s t done
  refine ⟨?_, fun e he => h.chunks e (chunks_settle s t done ▸ he)⟩
  rw [halike.encoding, halike.chunkSize]
  exact h.fresh

end Uniform

/-! ## Calls -/

/-- Whatever is done to a chunk that has the property, what comes of it has it too. -/
structure Kept (p : Chunk → Prop) : Prop where
  add : ∀ {c c' : Chunk} {sample : Sample}, p c → c.add? sample = some c' → p c'
  upsert : ∀ {c c' : Chunk} {sample : Sample} {policy : DuplicatePolicy} {done : Upserted},
    p c → c.upsert sample policy = .ok (c', done) → p c'
  split : ∀ {c head tail : Chunk}, p c → c.split? = some (head, tail) → p head ∧ p tail

theorem Uniform.upsert (h : s.Uniform p) (hp : Kept p) (sample : Sample)
    (override fallback : DuplicatePolicy) :
    (stateAfter (upsert sample override fallback) s).Uniform p := by
  unfold Series.upsert
  rw [stateAfter_get_bind]
  refine stateAfter_bind_of_reads (target_reads s _) h fun key _ => ?_
  refine stateAfter_bind (h.makeRoom hp.split key _ _) fun key s₁ _ h₁ => ?_
  refine stateAfter_bind (h₁.writeInto hp.upsert key) fun done s₂ _ h₂ => ?_
  exact h₂.settle _ _

theorem Uniform.perform (h : s.Uniform p) (hp : Kept p) (call : Call) :
    (stateAfter call.perform s).Uniform p := by
  cases call with
  | add sample => exact h.add hp.add
  | upsert sample override fallback =>
    exact stateAfter_bind (h.upsert hp sample override fallback) fun _ _ _ h' => h'
  | trim => exact h.trim

theorem Uniform.run (h : s.Uniform p) (hp : Kept p) (calls : List Call) :
    (runAll Call.perform calls s).Uniform p := by
  induction calls generalizing s with
  | nil => exact h
  | cons call calls ih => exact ih (h.perform hp call)

end SeriesStore.Series
