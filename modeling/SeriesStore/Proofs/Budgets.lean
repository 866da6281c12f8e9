import SeriesStore.Proofs.Encodings
import SeriesStore.Proofs.Gorilla.Lengths

/-!
# Appending within a budget

A compressed chunk takes a sample as long as the longest code of one still fits its budget of
bytes. So it stays within the budget whatever it is given, but for a first sample that is larger
than the budget by itself, and a buffer that had room for the whole budget is never outgrown. Once
there is no room there will be none any more, as a refusal changes nothing.

Results:
1. `Within.add`: what one more sample does to a chunk that is within its budget.
2. `offers_within_budget`: any number of samples, each of which may be refused.
-/

namespace SeriesStore.Chunk

/-! ## One sample -/

/-- The stream of the chunk stays within the budget, and so does its buffer. -/
structure Within (budget : Nat) (c : CompressedChunk) : Prop where
  budget_eq : c.budget = budget
  written : ∃ bits, c.encoder.writer.Holds bits
  unwritten : c.count = 0 → c.encoder.bitLength = 0
  bounded : c.size ≤ max 16 budget
  reserved : 16 ≤ budget → c.encoder.capacity = budget

variable {budget : Nat} {c c' : CompressedChunk} {s : Sample}

theorem Within.new (budget : Nat) : Within budget (.ofSamples [] budget) where
  budget_eq := rfl
  written := ⟨[], BitWriter.ofCapacity_holds budget⟩
  unwritten _ := rfl
  bounded := Nat.zero_le _
  reserved _ := rfl

/-- A chunk with samples in it takes another one where the longest code fits. -/
theorem add?_eq_some (h : c.add? s = some c') :
    c' = { c with encoder := c.encoder.encode s } ∧
      (c.count ≠ 0 → (c.encoder.bitLength + Gorilla.maxSampleBits + 7) / 8 ≤ c.budget) := by
  unfold CompressedChunk.add? at h
  split at h
  · cases h
  next hroom =>
    refine ⟨(Option.some.inj h).symm, fun hstarted => ?_⟩
    simpa [CompressedChunk.hasRoom, Nat.pos_of_ne_zero hstarted] using hroom

/-- A chunk refuses a sample where it has some, and not because of the sample. -/
theorem add?_eq_none (h : c.add? s = none) : c.count ≠ 0 ∧ ∀ s', c.add? s' = none := by
  unfold CompressedChunk.add? at h
  split at h
  next hfull =>
    refine ⟨fun hzero => by simp [hzero] at hfull, fun s' => ?_⟩
    rw [CompressedChunk.add?, if_pos hfull]
  · cases h

/-- A sample that is taken keeps a chunk within its budget. -/
theorem Within.add (h : Within budget c) (hadd : c.add? s = some c') :
    Within budget c' ∧ c'.count ≠ 0 ∧
      (c.count ≠ 0 → c.encoder.bitLength + 2 ≤ c'.encoder.bitLength ∧
        c'.encoder.bitLength ≤ c.encoder.bitLength + Gorilla.maxSampleBits) := by
  obtain ⟨bits, hbits⟩ := h.written
  obtain ⟨rfl, hroom⟩ := add?_eq_some hadd
  have hwritten := Gorilla.Encoder.encode_holds hbits s
  have hlonger (hstarted : c.count ≠ 0) :=
    Gorilla.Encoder.bitLength_encode_later hbits hstarted s
  -- The bytes of the longer stream: those of a full sample, or no more than the budget.
  have hbytes : ((c.encoder.encode s).bitLength + 7) / 8 ≤ max 16 budget := by
    by_cases hempty : c.count = 0
    · rw [Gorilla.Encoder.bitLength_encode_first hbits hempty, h.unwritten hempty]
      exact Nat.le_max_left 16 budget
    · have hfits := hroom hempty
      have hmost := (hlonger hempty).2
      rw [h.budget_eq] at hfits
      omega
  refine ⟨⟨h.budget_eq, ⟨_, hwritten⟩, fun hzero => absurd hzero (Nat.succ_ne_zero _), ?_,
    fun hleast => ?_⟩, Nat.succ_ne_zero _, hlonger⟩
  · show (c.encoder.encode s).size ≤ _
    rw [Gorilla.Encoder.size_eq hwritten]
    exact hbytes
  · have hcapacity := h.reserved hleast
    rw [Nat.max_eq_right hleast, ← hcapacity] at hbytes
    exact (Gorilla.Encoder.capacity_encode hbits s hbytes).trans hcapacity

/-! ## Any samples -/

theorem perform_add_some (h : c.add? s = some c') :
    (Call.add s).perform (compressed c) = .ok (.added true) (compressed c') := by
  have hadd : (compressed c).add? s = some (compressed c') := congrArg (·.map compressed) h
  rw [Call.perform, bind_of_ok (get_apply _), hadd]
  rfl

theorem perform_add_none (h : c.add? s = none) :
    (Call.add s).perform (compressed c) = .ok (.added false) (compressed c) := by
  have hadd : (compressed c).add? s = none := congrArg (·.map compressed) h
  rw [Call.perform, bind_of_ok (get_apply _), hadd]
  rfl

/-- The chunk refuses all samples that are offered to it from now on, and stays as it is. -/
def Closed (c : Chunk) : Prop :=
  ∀ later : List Sample, runAll Call.perform (later.map .add) c = c ∧
    ∀ answer ∈ outcomes Call.perform (later.map .add) c, answer = .ok (.added false)

theorem closed_of_full (h : c.add? s = none) : Closed (compressed c) := by
  intro later
  induction later with
  | nil => exact ⟨rfl, by simp [outcomes]⟩
  | cons s' later ih =>
    have hfull := perform_add_none ((add?_eq_none h).2 s')
    rw [List.map_cons, outcomes, outcome_of_ok hfull, stateAfter_of_ok hfull]
    refine ⟨?_, by simpa using ih.2⟩
    show runAll Call.perform (later.map .add) (stateAfter _ _) = _
    rw [stateAfter_of_ok hfull]
    exact ih.1

/-- A sample that is offered leaves a chunk that is within its budget and not empty. -/
theorem Within.offer (h : Within budget c) (s : Sample) :
    ∃ c', stateAfter (Call.add s).perform (compressed c) = compressed c' ∧ Within budget c' ∧
      c'.count ≠ 0 := by
  cases hadd : c.add? s with
  | none => exact ⟨c, stateAfter_of_ok (perform_add_none hadd), h, (add?_eq_none hadd).1⟩
  | some c' =>
    obtain ⟨hwithin, hsome, -⟩ := h.add hadd
    exact ⟨c', stateAfter_of_ok (perform_add_some hadd), hwithin, hsome⟩

theorem Within.offers (h : Within budget c) (offered : List Sample) :
    ∃ c', runAll Call.perform (offered.map .add) (compressed c) = compressed c' ∧
      Within budget c' ∧ (c.count ≠ 0 ∨ offered ≠ [] → c'.count ≠ 0) := by
  induction offered generalizing c with
  | nil => exact ⟨c, rfl, h, fun hsome => hsome.resolve_right fun hne => hne rfl⟩
  | cons s offered ih =>
    obtain ⟨c₁, hstep, hwithin, hsome⟩ := h.offer s
    obtain ⟨c', hrun, hwithin', hsome'⟩ := ih hwithin
    refine ⟨c', ?_, hwithin', fun _ => hsome' (.inl hsome)⟩
    show runAll Call.perform (offered.map .add) (stateAfter _ (compressed c)) = _
    rw [hstep, hrun]

/-- However many samples have been offered to a new compressed chunk, its stream is within the
budget, or that of a single sample, and has not outgrown a buffer for the budget. The next sample
is taken and, unless it is the first, lengthens the stream by two bits at least and by no more than
the longest code; or it is refused, but never the first one, and from then on all are. -/
theorem offers_within_budget (budget : Nat) (offered : List Sample) :
    ∃ c, runAll Call.perform (offered.map .add) (empty .compressed budget) = compressed c ∧
      c.size ≤ max 16 budget ∧ (16 ≤ budget → c.encoder.capacity = budget) ∧
      ∀ s, (∃ c', (Call.add s).perform (compressed c) = .ok (.added true) (compressed c') ∧
          (offered ≠ [] → c.encoder.bitLength + 2 ≤ c'.encoder.bitLength ∧
            c'.encoder.bitLength ≤ c.encoder.bitLength + Gorilla.maxSampleBits)) ∨
        offered ≠ [] ∧ (Call.add s).perform (compressed c) = .ok (.added false) (compressed c) ∧
          Closed (compressed c) := by
  obtain ⟨c, hrun, hwithin, hsome⟩ := (Within.new budget).offers offered
  refine ⟨c, hrun, hwithin.bounded, hwithin.reserved, fun s => ?_⟩
  cases hadd : c.add? s with
  | some c' =>
    exact .inl ⟨c', perform_add_some hadd, fun hne => (hwithin.add hadd).2.2 (hsome (.inr hne))⟩
  | none =>
    refine .inr ⟨fun hnil => ?_, perform_add_none hadd, closed_of_full hadd⟩
    subst hnil
    cases hrun
    exact (add?_eq_none hadd).1 rfl

end SeriesStore.Chunk
