import SeriesStore.Proofs.Gorilla.Steps

/-!
# Decoding any bytes

A decoder can be asked in three ways for samples, and asked again after a failure, which leaves it
where the stream stood, in the middle of a sample. Whatever the bytes are, it stays inside them and
keeps a window that exists, and the samples it gives are paid for by bits that it has consumed.

The count is not paid for. Reading all samples at once asks for their room before the first one is
read, and stops the program where no block of memory is so long, whatever the bytes are; the other
ways fail at the end of the bytes. Any shorter room is taken as given.

Results:
1. `Safe.decodeNext`: one more sample, over any bytes.
2. `Safe.perform_cases`, `Safe.perform`: each call leaves a decoder safe; it gives samples, or says
   that the stream is no code, or stops the program where the room overflows.
3. `safe_run`: so does every run of calls on a new decoder.
4. `safe_run_overflow`: a count that stops the program over no bytes at all.
-/

namespace SeriesStore.Gorilla.Decoder

/-! ## Calls -/

/-- A call on a decoder. -/
inductive Call
  | next
  | decodeNext
  | decodeAll
  deriving DecidableEq

/-- What a call does; it answers with the samples that it gives. -/
def Call.perform : Call → EStateM Failure Decoder (List Sample)
  | next => (Option.toList <$> Decoder.next).adaptExcept .error
  | decodeNext => (Option.toList <$> Decoder.decodeNext).adaptExcept .error
  | decodeAll => Decoder.decodeAll

/-- The call asks for more room than one block of memory can have. -/
def Call.Overflows (d : Decoder) (call : Call) : Prop :=
  call = .decodeAll ∧ blockLimit < Sample.sizeBytes * (d.count - d.decoded)

/-- The samples that some calls have given. -/
def returned (answers : List (Except Failure (List Sample))) : List Sample :=
  answers.flatMap fun
    | .ok samples => samples
    | .error _ => []

/-! ## The invariant -/

/-- What holds of a decoder over the bytes that was told to expect so many samples, once calls have
given `n` of them. -/
structure Safe (bytes : Array UInt8) (expected n : Nat) (d : Decoder) : Prop where
  data : d.reader.data = bytes
  count : d.count = expected
  inside : d.reader.position ≤ 8 * bytes.size
  window : d.history.window.Proper
  -- No more samples are given than are read. Those that a failed `decodeAll` has read are lost.
  given : n ≤ d.decoded
  decoded : d.decoded ≤ expected
  -- The first sample takes two words, and each later one two bits at least.
  paid : 1 ≤ n → 128 + 2 * (n - 1) ≤ d.reader.position
  -- The same for the samples read, unless a failure has ended the stream before its time.
  underway : 1 ≤ d.decoded → d.decoded < expected → 128 + 2 * (d.decoded - 1) ≤ d.reader.position

/-- What comes of asking for more: the decoder is safe with the samples that are given now, and
where it fails, the stream is no code. -/
def Answered (data : Array UInt8) (count n : Nat) :
    EStateM.Result StoreError Decoder (List Sample) → Prop
  | .ok samples d => Safe data count (n + samples.length) d
  | .error e d => Safe data count n d ∧ ∃ why, e = .compression why

variable {data : Array UInt8} {count n : Nat} {d : Decoder}

theorem Answered.adapt {x : Decoding (List Sample)} (h : Answered data count n (x d)) :
    (∃ samples d', x.adaptExcept Failure.error d = .ok samples d' ∧
        Safe data count (n + samples.length) d') ∨
      ∃ why d', x.adaptExcept Failure.error d = .error (.error (.compression why)) d' ∧
        Safe data count n d' := by
  cases hx : x d with
  | ok samples d' =>
    rw [hx] at h
    exact .inl ⟨samples, d', adaptExcept_of_ok _ hx, h⟩
  | error e d' =>
    rw [hx] at h
    obtain ⟨hsafe, why, rfl⟩ := h
    exact .inr ⟨why, d', adaptExcept_of_error _ hx, hsafe⟩

namespace Safe

theorem ofBytes (data : Array UInt8) (count : Nat) : Safe data count 0 (ofBytes data count) where
  data := rfl
  count := rfl
  inside := Nat.zero_le _
  window := by simp [Decoder.ofBytes, Window.Proper]
  given := Nat.le_refl 0
  decoded := Nat.zero_le count
  paid h := absurd h (by decide)
  underway h := absurd h (Nat.not_succ_le_zero 0)

theorem fewer {m : Nat} (h : Safe data count n d) (hle : m ≤ n) : Safe data count m d :=
  { h with
    given := Nat.le_trans hle h.given
    paid := fun hm => by
      have := h.paid (Nat.le_trans hm hle)
      omega }

/-- A decoder that has read no sample moves on. -/
theorem moved {d' : Decoder} (h : Safe data count n d) (hmoved : Moved 0 d d')
    (hdecoded : d'.decoded = d.decoded) : Safe data count n d' where
  data := hmoved.data.trans h.data
  count := hmoved.count.trans h.count
  inside := by
    have := hmoved.inside (h.data.symm ▸ h.inside)
    rwa [h.data] at this
  window := hmoved.window h.window
  given := hdecoded.symm ▸ h.given
  decoded := hdecoded.symm ▸ h.decoded
  paid hn := Nat.le_trans (h.paid hn) hmoved.forward
  underway := by
    rw [hdecoded]
    exact fun hpos hlt => Nat.le_trans (h.underway hpos hlt) hmoved.forward

/-- A decoder gives the sample that it has read. -/
theorem read {d' : Decoder} (h : Safe data count n d) (hmore : d.decoded < d.count)
    (hmoved : Moved d.leastBits d d') (hdecoded : d'.decoded = d.decoded + 1) :
    Safe data count (n + 1) d' := by
  have hpaid : 128 + 2 * d.decoded ≤ d'.reader.position := by
    have hforward := hmoved.forward
    unfold leastBits at hforward
    split at hforward
    · omega
    · have := h.underway (by omega) (h.count ▸ hmore)
      omega
  have hgiven := h.given
  have hcount := h.count
  exact
    { data := hmoved.data.trans h.data
      count := hmoved.count.trans h.count
      inside := by
        have := hmoved.inside (h.data.symm ▸ h.inside)
        rwa [h.data] at this
      window := hmoved.window h.window
      given := by omega
      decoded := by omega
      paid := fun _ => by omega
      underway := fun _ _ => by omega }

/-- A decoder that takes a failure for the end of the stream. -/
theorem ended (h : Safe data count n d) : Safe data count n { d with decoded := d.count } :=
  { h with
    given := Nat.le_trans h.given (h.count.symm ▸ h.decoded)
    decoded := Nat.le_of_eq h.count
    underway := fun _ hlt => absurd hlt (Nat.not_lt.mpr (Nat.le_of_eq h.count.symm)) }

/-! ## One call -/

/-- One more sample, over any bytes. -/
theorem decodeNext (h : Safe data count n d) :
    Answered data count n ((Option.toList <$> Decoder.decodeNext) d) := by
  rcases d.decodeNext_cases with ⟨-, hnone⟩ | ⟨hmore, s, d', hread, hmoved, hdecoded⟩ |
    ⟨-, why, d', hfail, hmoved, hdecoded⟩
  · rw [map_of_ok _ hnone]
    exact h
  · rw [map_of_ok _ hread]
    exact h.read hmore hmoved hdecoded
  · rw [map_of_error _ hfail]
    exact ⟨h.moved hmoved hdecoded, why, rfl⟩

theorem next (h : Safe data count n d) :
    Answered data count n ((Option.toList <$> Decoder.next) d) := by
  have hnext := h.decodeNext
  cases hread : Decoder.decodeNext d with
  | ok s d' =>
    rw [map_of_ok _ hread] at hnext
    rwa [map_of_ok _ (next_of_ok hread)]
  | error e d' =>
    rw [map_of_error _ hread] at hnext
    rw [map_of_error _ (next_of_error hread)]
    exact ⟨hnext.1.ended, hnext.2⟩

/-- Reading on: the samples read are given with those before them, or they are all lost. -/
theorem decodeOnto (acc : List Sample) (limit : Nat) (h : Safe data count (n + acc.length) d) :
    Answered data count n (Decoder.decodeOnto acc limit d) := by
  induction limit generalizing d acc with
  | zero => exact h
  | succ limit ih =>
    have hnext := h.decodeNext
    unfold Decoder.decodeOnto
    cases hread : Decoder.decodeNext d with
    | ok s d' =>
      rw [map_of_ok _ hread] at hnext
      rw [bind_of_ok hread]
      cases s with
      | none => exact hnext
      | some s => exact ih (s :: acc) hnext
    | error e d' =>
      rw [map_of_error _ hread] at hnext
      rw [bind_of_error hread]
      exact ⟨hnext.1.fewer (Nat.le_add_right _ _), hnext.2⟩

theorem decodeRest (h : Safe data count n d) : Answered data count n (Decoder.decodeRest d) := by
  have hall := decodeOnto [] (d.count - d.decoded) h
  unfold Decoder.decodeRest
  rw [bind_of_ok (get_apply d)]
  cases hread : Decoder.decodeOnto [] (d.count - d.decoded) d with
  | ok samples d' =>
    rw [hread] at hall
    rw [bind_of_ok hread]
    simpa [Answered] using hall
  | error e d' =>
    rw [hread] at hall
    rwa [bind_of_error hread]

/-- Each call leaves a decoder safe. It gives samples, or says that the stream is no code, unless it
asks for more room than one block of memory can have. -/
theorem perform_cases (h : Safe data count n d) (call : Call) :
    (¬call.Overflows d ∧ ((∃ samples d', call.perform d = .ok samples d' ∧
          Safe data count (n + samples.length) d') ∨
        ∃ why d', call.perform d = .error (.error (.compression why)) d' ∧
          Safe data count n d')) ∨
      (call.Overflows d ∧ call.perform d = .error .overflow d) := by
  cases call with
  | next => exact .inl ⟨fun hover => Call.noConfusion hover.1, h.next.adapt⟩
  | decodeNext => exact .inl ⟨fun hover => Call.noConfusion hover.1, h.decodeNext.adapt⟩
  | decodeAll =>
    rcases Nat.lt_or_ge blockLimit (Sample.sizeBytes * (d.count - d.decoded)) with hover | hroom
    · exact .inr ⟨⟨rfl, hover⟩, decodeAll_of_overflow hover⟩
    · have hrest := h.decodeRest.adapt
      rw [← decodeAll_of_room hroom] at hrest
      exact .inl ⟨fun hover => Nat.not_lt.mpr hroom hover.2, hrest⟩

theorem answers (h : Safe data count n d) (call : Call) :
    if call = .decodeAll ∧ blockLimit < Sample.sizeBytes * (count - d.decoded) then
      call.perform d = .error .overflow d
    else
      (∃ samples, outcome call.perform d = .ok samples) ∨
        ∃ why, outcome call.perform d = .error (.error (.compression why)) := by
  have hcases := h.perform_cases call
  unfold Call.Overflows at hcases
  rw [h.count] at hcases
  rcases hcases with ⟨hroom, ⟨samples, d', hans, -⟩ | ⟨why, d', hans, -⟩⟩ | ⟨hover, hans⟩
  · rw [if_neg hroom]
    exact .inl ⟨samples, outcome_of_ok hans⟩
  · rw [if_neg hroom]
    exact .inr ⟨why, outcome_of_error hans⟩
  · rw [if_pos hover]
    exact hans

/-! ## Runs -/

/-- One call leaves a decoder safe with the samples that it gives. -/
theorem perform (h : Safe data count n d) (call : Call) :
    Safe data count (n + (returned [outcome call.perform d]).length)
      (stateAfter call.perform d) := by
  rcases h.perform_cases call with ⟨-, ⟨samples, d', hans, hsafe⟩ | ⟨why, d', hans, hsafe⟩⟩ |
    ⟨-, hans⟩
  · rw [outcome_of_ok hans, stateAfter_of_ok hans]
    simpa [returned] using hsafe
  · rw [outcome_of_error hans, stateAfter_of_error hans]
    exact hsafe
  · rw [outcome_of_error hans, stateAfter_of_error hans]
    exact h

theorem run (h : Safe data count n d) (calls : List Call) :
    Safe data count (n + (returned (outcomes Call.perform calls d)).length)
      (runAll Call.perform calls d) := by
  induction calls generalizing n d with
  | nil => exact h
  | cons call calls ih =>
    have hrest := ih (h.perform call)
    rw [Nat.add_assoc, ← List.length_append] at hrest
    simpa [runAll, outcomes, returned] using hrest

end Safe

end SeriesStore.Gorilla.Decoder
