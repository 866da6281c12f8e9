import SeriesStore.Proofs.Series.Refinement
import SeriesStore.Proofs.Store.Reachable

/-!
# Refused writes

A write is refused where its series does not exist, where its sample has outlived the
retention of the series, and where a sample is stored at its time and the policy
rejects duplicates. It is refused for no other reason, and a refused write changes
nothing: no chunk is cut, no rule moves on, nothing is trimmed.

Results:
1. `add_answers`, `upsert_answers`: the two kinds of writes to a sound store.
2. `writes_answer`: both, in every store that calls reach.
-/

namespace SeriesStore

namespace Series

variable {s : Series} {t : Timestamp} {sample : Sample} {override fallback : DuplicatePolicy}

/-- The time lies further before the last sample than samples are kept. -/
def Outlived (s : Series) (t : Timestamp) : Prop :=
  0 < s.retention.toNat ∧ t.toNat + s.retention.toNat < s.lastTimestamp.toNat

/-- A sample is stored at this time, and the policy that decides rejects duplicates. -/
def Rejects (s : Series) (t : Timestamp) (override fallback : DuplicatePolicy) : Prop :=
  (∃ x ∈ s.toList, x.timestamp = t) ∧
    (SampleMap.deciding override s.policy fallback = .unset ∨
      SampleMap.deciding override s.policy fallback = .block)

instance : Decidable (s.Outlived t) :=
  inferInstanceAs (Decidable (0 < s.retention.toNat ∧
    t.toNat + s.retention.toNat < s.lastTimestamp.toNat))

instance : Decidable (s.Rejects t override fallback) :=
  inferInstanceAs (Decidable ((∃ x ∈ s.toList, x.timestamp = t) ∧
    (SampleMap.deciding override s.policy fallback = .unset ∨
      SampleMap.deciding override s.policy fallback = .block)))

/-- The window begins where samples are outlived before it. -/
theorem lt_oldest_iff : t < s.oldest ↔ s.Outlived t := by
  unfold Outlived
  rw [UInt64.lt_iff_toNat_lt]
  by_cases hforever : s.retention = 0
  · rw [oldest_of_forever hforever, hforever]
    simp
  · have hpos := pos_of_ne_zero hforever
    rw [toNat_oldest hforever]
    omega

/-- Where a time is outlived, the window does not reach back to the beginning of time. -/
theorem Outlived.oldest_eq (h : s.Outlived t) : s.oldest = s.lastTimestamp - s.retention :=
  (sub_retention_eq (lt_oldest_iff.mpr h)).symm

/-- The run of a series fails only by a write that the series rejects. -/
theorem Valid.rejects (h : s.Valid) {e : StoreError}
    (hu : Run.upsert (.resolve override s.policy fallback) sample s.toList = .error e) :
    s.Rejects sample.timestamp override fallback ∧ e = .blocked sample.timestamp := by
  obtain ⟨hblocks, he, hheld⟩ := Run.upsert_error h.ascending hu
  rw [← SampleMap.deciding_eq] at hblocks
  exact ⟨⟨hheld, SampleMap.blocks_iff.mp hblocks⟩, he⟩

/-- The run of a series takes no write that the series rejects. -/
theorem Valid.not_rejects (h : s.Valid) {r : List Sample × Upserted}
    (hu : Run.upsert (.resolve override s.policy fallback) sample s.toList = .ok r) :
    ¬ s.Rejects sample.timestamp override fallback := by
  rintro ⟨hheld, hrejects⟩
  have hblocks := SampleMap.blocks_iff.mpr hrejects
  rw [SampleMap.deciding_eq] at hblocks
  rw [Run.upsert_rejected h.ascending hblocks hheld] at hu
  cases hu

end Series

namespace Store

/-! ## Answers -/

/-- The answer to a sample that is added to a series, if there is one under the key. -/
def addAnswer (fallback : DuplicatePolicy) (key : String) (t : Timestamp)
    (override : DuplicatePolicy) : Option Series → Except StoreError Timestamp
  | none => .error (.seriesNotFound key)
  | some s =>
    if s.Outlived t then .error (.tooOld t (s.lastTimestamp - s.retention))
    else if s.Rejects t override fallback then .error (.blocked t)
    else .ok t

/-- The answer to a sample that is written at any time, which is never too old. -/
def upsertAnswer (fallback : DuplicatePolicy) (key : String) (t : Timestamp)
    (override : DuplicatePolicy) : Option Series → Except StoreError Unit
  | none => .error (.seriesNotFound key)
  | some s => if s.Rejects t override fallback then .error (.blocked t) else .ok ()

/-- The change gives this answer, and where that is an error, it changes nothing. -/
structure Answers {α : Type} (change : Update α) (st : Store) (answer : Except StoreError α) :
    Prop where
  outcome_eq : outcome change st = answer
  unchanged : ∀ e, answer = .error e → stateAfter change st = st

section Answers

variable {α : Type} {change : Update α} {st st' : Store}

theorem Answers.of_error {e : StoreError} (h : change st = .error e st) :
    Answers change st (.error e) :=
  ⟨outcome_of_error h, fun _ _ => stateAfter_of_error h⟩

theorem Answers.of_ok {a : α} (h : change st = .ok a st') : Answers change st (.ok a) :=
  ⟨outcome_of_ok h, fun _ he => by cases he⟩

end Answers

/-! ## Writes -/

variable {st : Store}

theorem upsert_answers (h : st.Sound) (key : String) (sample : Sample)
    (override : DuplicatePolicy) :
    Answers (upsert key sample override) st
      (upsertAnswer st.config.policy key sample.timestamp override (st.get? key)) := by
  cases hs : st.get? key with
  | none => exact .of_error (upsert_missing hs sample override)
  | some s =>
    unfold upsertAnswer
    rcases upsert_cases h hs sample override with
      ⟨e, hu, hfail⟩ | ⟨run, done, s', writes, hu, -, -, hok⟩
    · obtain ⟨hrejects, rfl⟩ := (h.valid hs).rejects hu
      simp only [if_pos hrejects]
      exact .of_error hfail
    · simp only [if_neg ((h.valid hs).not_rejects hu)]
      exact .of_ok hok

theorem add_answers (h : st.Sound) (key : String) (sample : Sample)
    (override : DuplicatePolicy) :
    Answers (add key sample override) st
      (addAnswer st.config.policy key sample.timestamp override (st.get? key)) := by
  cases hs : st.get? key with
  | none => exact .of_error (add_missing hs sample override)
  | some s =>
    unfold addAnswer
    by_cases hold : s.Outlived sample.timestamp
    · simp only [if_pos hold]
      rw [← hold.oldest_eq]
      exact .of_error (add_tooOld hs override (Series.lt_oldest_iff.mpr hold))
    have hwindow := mt Series.lt_oldest_iff.mp hold
    simp only [if_neg hold]
    rcases add_cases h hs override hwindow with
      ⟨e, hu, hfail⟩ | ⟨run, done, s', writes, hu, -, -, hok⟩
    · obtain ⟨hrejects, rfl⟩ := (h.valid hs).rejects hu
      simp only [if_pos hrejects]
      exact .of_error hfail
    · simp only [if_neg ((h.valid hs).not_rejects hu)]
      exact .of_ok hok

/-- Whatever calls were made before, a write is refused exactly where it should be, and
a refused write leaves the whole store as it was. -/
theorem writes_answer (config : StoreConfig) (calls : List Call) (key : String)
    (sample : Sample) (override : DuplicatePolicy) :
    let st := runAll Call.perform calls { config }
    Answers (add key sample override) st
        (addAnswer st.config.policy key sample.timestamp override (st.get? key)) ∧
      Answers (upsert key sample override) st
        (upsertAnswer st.config.policy key sample.timestamp override (st.get? key)) := by
  have hst : Sound (runAll Call.perform calls { config }) := Reachable.sound ⟨config, calls, rfl⟩
  exact ⟨add_answers hst key sample override, upsert_answers hst key sample override⟩

end Store

end SeriesStore
