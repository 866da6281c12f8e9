import Mathlib.Data.List.Sort
import SeriesStore.Proofs.Series.Validity

/-!
# What a write changes

However a sample reaches a series, one of two things happens to the series before
its rules take the sample: it is placed past the end of the run, or it is put
where it belongs in the run. Everything else of the series stays as it is.

Results:
1. `append_cases`, `upsert_cases`, `receive_cases`: each kind of write is a change,
   or fails and changes nothing.
2. `Change.valid`, `Change.others`, `Change.stored`: what holds after a change.
-/

namespace SeriesStore

namespace Run

/-- Ascending runs with the same samples are equal. -/
theorem Ascending.ext {run run' : List Sample} (h : Ascending run) (h' : Ascending run')
    (hmem : ∀ x, x ∈ run ↔ x ∈ run') : run = run' := by
  let earlier : Sample → Sample → Prop := fun a b => a.timestamp < b.timestamp
  have : Std.Irrefl earlier := ⟨fun a => UInt64.lt_irrefl a.timestamp⟩
  have : Std.Antisymm earlier := ⟨fun a b hab hba => absurd hba (UInt64.lt_asymm hab)⟩
  exact List.Pairwise.eq_of_mem_iff (r := earlier) h h' hmem

/-- A part that is chosen alike of two runs is the same where both hold the same samples
of it. -/
theorem Ascending.filter_eq {run run' : List Sample} (h : Ascending run) (h' : Ascending run')
    {p : Sample → Bool} (hsame : ∀ x, p x = true → (x ∈ run' ↔ x ∈ run)) :
    run'.filter p = run.filter p := by
  refine Ascending.ext (h'.filter p) (h.filter p) fun x => ?_
  simp only [List.mem_filter]
  exact and_congr_left (hsame x)

/-- The last policy lets every write through. -/
theorem upsert_last {run : List Sample} (h : Ascending run) (s : Sample) :
    ∃ run' gained, upsert .last s run = .ok (run', ⟨gained, s.value⟩) := by
  cases h.located s.timestamp with
  | absent lo hi hlo hhi => exact ⟨_, _, upsert_absent .last hlo hhi⟩
  | present lo x hi hlo hx hhi => exact ⟨_, _, upsert_present .last hlo hx⟩

end Run

namespace Series

/-- The sample is placed past the end of what is kept of the run. -/
structure Placed (s : Series) (x : Sample) (base : Series) : Prop where
  valid : base.Valid
  alike : s.Alike base
  rules : base.rules = s.rules
  kept : ∃ gone kept, s.toList = gone ++ kept ∧ base.toList = kept ++ [x] ∧
    ∀ y ∈ gone, y.timestamp < s.oldest
  past : ∀ y ∈ s.toList, y.timestamp < x.timestamp

/-- The sample is put where it belongs in the run, and not past the end. -/
structure Put (s : Series) (x : Sample) (base : Series) : Prop where
  valid : base.Valid
  alike : s.Alike base
  rules : base.rules = s.rules
  stored : x ∈ base.toList
  others : ∀ y : Sample, y.timestamp ≠ x.timestamp → (y ∈ base.toList ↔ y ∈ s.toList)
  nonempty : s.toList ≠ []
  last : base.lastTimestamp = s.lastTimestamp
  inside : x.timestamp ≤ s.lastTimestamp

/-- What a write of a sample does to a series; `x` is what is stored of it. -/
inductive Change (s : Series) (x : Sample) : Series → List BucketWrite → Prop
  | placed {base : Series} : Placed s x base →
      Change s x (base.appended x).1 (base.appended x).2
  | put {base : Series} : Put s x base →
      Change s x (base.revised x.timestamp).1 (base.revised x.timestamp).2

variable {s : Series} {sample : Sample}

/-! ## Writes -/

theorem add_placed (h : s.Valid) (hpast : s.isEmpty = true ∨ s.lastTimestamp < sample.timestamp) :
    ∃ base, add sample s = .ok () base ∧ Placed s sample base := by
  obtain ⟨d, n, gone, kept, hadd, hvalid, happend, hrun, hgone⟩ := add_ok h hpast
  exact ⟨_, hadd, hvalid, ⟨rfl, rfl, rfl, rfl, rfl, rfl, rfl⟩, rfl,
    ⟨gone, kept, happend, hrun, hgone⟩, h.past hpast⟩

theorem append_cases (h : s.Valid) (hpast : s.isEmpty = true ∨ s.lastTimestamp < sample.timestamp) :
    ∃ s' writes, append sample s = .ok writes s' ∧ Change s sample s' writes := by
  obtain ⟨base, hadd, hplaced⟩ := add_placed h hpast
  refine ⟨_, _, ?_, .placed hplaced⟩
  unfold append
  rw [bind_of_ok hadd]
  rfl

/-- A write that the run takes is settled as a change. -/
theorem settle_change {d : Directory Chunk} {done : Upserted} {policy : DuplicatePolicy}
    (h : s.Valid) (hlaid : Laid d.entries)
    (hu : Run.upsert policy sample s.toList = .ok (runOf d.entries, done)) :
    Change s ⟨sample.timestamp, done.value⟩
      (({ s with chunks := d } : Series).settle sample.timestamp done).1
      (({ s with chunks := d } : Series).settle sample.timestamp done).2 := by
  have hw := Run.upsert_written h.ascending hu
  have hvalid := settle_valid h hlaid hw
  by_cases hpast : s.isEmpty = true ∨ s.lastTimestamp < sample.timestamp
  · have hall := h.past hpast
    rw [settle_past (s := { s with chunks := d }) hpast] at hvalid ⊢
    refine .placed ⟨⟨hvalid.laid, hvalid.total, hvalid.last, hvalid.roomy⟩,
      ⟨rfl, rfl, rfl, rfl, rfl, rfl, rfl⟩, rfl, ⟨[], s.toList, rfl, ?_, by simp⟩, hall⟩
    have hend := Run.upsert_past policy hall
    rw [hu] at hend
    obtain ⟨hrun, hdone⟩ := Prod.mk.inj (Except.ok.inj hend)
    rw [hdone]
    exact hrun
  · rw [settle_inside (s := { s with chunks := d }) hpast] at hvalid ⊢
    obtain ⟨hfull, hle⟩ := not_or.mp hpast
    exact .put ⟨⟨hvalid.laid, hvalid.total, hvalid.last, hvalid.roomy⟩,
      ⟨rfl, rfl, rfl, rfl, rfl, rfl, rfl⟩, rfl, hw.stored, hw.others, mt h.isEmpty_iff.mpr hfull,
      rfl, UInt64.not_lt.mp hle⟩

/-- A write at any time is a change, or the run rejects it and the series stays as it
is. -/
theorem upsert_cases (h : s.Valid) (sample : Sample) (override fallback : DuplicatePolicy) :
    (∃ e, Run.upsert (.resolve override s.policy fallback) sample s.toList = .error e ∧
        upsert sample override fallback s = .error e s) ∨
      ∃ run done s' writes,
        Run.upsert (.resolve override s.policy fallback) sample s.toList = .ok (run, done) ∧
        upsert sample override fallback s = .ok writes s' ∧
        Change s ⟨sample.timestamp, done.value⟩ s' writes := by
  cases hu : Run.upsert (.resolve override s.policy fallback) sample s.toList with
  | error e => exact .inl ⟨e, rfl, upsert_error h.laid hu⟩
  | ok r =>
    obtain ⟨run, done⟩ := r
    obtain ⟨d, hup, hlaid, rfl⟩ := upsert_ok h.laid h.roomy hu
    exact .inr ⟨_, done, _, _, rfl, hup, settle_change h hlaid hu⟩

/-- A series takes every sample that a rule of another series owes to it. -/
theorem receive_cases (h : s.Valid) (sample : Sample) :
    ∃ s' writes, receive sample s = .ok writes s' ∧ Change s sample s' writes := by
  have hreceive : receive sample s =
      (if s.isEmpty || sample.timestamp > s.lastTimestamp then append sample
        else upsert sample .last .last) s := rfl
  by_cases hpast : s.isEmpty = true ∨ s.lastTimestamp < sample.timestamp
  · rw [hreceive, if_pos (by simpa using hpast)]
    exact append_cases h hpast
  · obtain ⟨run, gained, hu⟩ := Run.upsert_last h.ascending sample
    have hresolved : Run.upsert (.resolve .last s.policy .last) sample s.toList =
        .ok (run, ⟨gained, sample.value⟩) := hu
    obtain ⟨d, hup, hlaid, rfl⟩ := upsert_ok h.laid h.roomy hresolved
    rw [hreceive, if_neg (by simpa using hpast)]
    exact ⟨_, _, hup, settle_change h hlaid hu⟩

/-- What becomes of a series that takes an owed sample. -/
def received (sample : Sample) (s : Series) : Series := stateAfter (receive sample) s

theorem received_change (h : s.Valid) (sample : Sample) :
    ∃ writes, Change s sample (received sample s) writes := by
  obtain ⟨s', writes, hreceive, hchange⟩ := receive_cases h sample
  refine ⟨writes, ?_⟩
  rwa [received, stateAfter_of_ok hreceive]

/-! ## After a change -/

section After

variable {s' base : Series} {x : Sample} {writes : List BucketWrite}

/-- The sample that was placed is the last one. -/
theorem Placed.last (h : Placed s x base) : base.lastTimestamp = x.timestamp := by
  obtain ⟨gone, kept, -, hlist, -⟩ := h.kept
  rw [h.valid.lastTimestamp_eq, hlist, Run.lastTimestamp_concat]

/-- A sample is placed behind the last one, if there is one. -/
theorem Placed.behind (h : Placed s x base) (hvalid : s.Valid) (hne : s.toList ≠ []) :
    s.lastTimestamp < x.timestamp :=
  h.past _ (hvalid.last_mem hne)

/-- Where a sample is placed, the samples in the retention window are kept. -/
theorem Placed.mem_iff (h : Placed s x base) {y : Sample} (hy : s.oldest ≤ y.timestamp) :
    y ∈ base.toList ↔ y ∈ s.toList ∨ y = x := by
  obtain ⟨gone, kept, happend, hlist, hgone⟩ := h.kept
  have hkept : y ∉ gone := fun hmem => absurd (hgone y hmem) (UInt64.not_lt.mpr hy)
  rw [hlist, happend]
  simp [hkept]

/-- Where a sample is put, it replaces the one at its timestamp. -/
theorem Put.mem_iff (h : Put s x base) {y : Sample} :
    y ∈ base.toList ↔ y = x ∨ y.timestamp ≠ x.timestamp ∧ y ∈ s.toList := by
  by_cases heq : y.timestamp = x.timestamp
  · constructor
    · exact fun hy => .inl (h.valid.ascending.eq_of_timestamp hy h.stored heq)
    · rintro (rfl | ⟨hne, -⟩)
      · exact h.stored
      · exact absurd heq hne
  · have hne : y ≠ x := fun h => heq (h ▸ rfl)
    rw [h.others y heq]
    simp [heq, hne]

theorem Change.valid (h : Change s x s' writes) : s'.Valid := by
  cases h with
  | placed h => exact h.valid.appended x
  | put h => exact h.valid.revised x.timestamp

theorem Change.alike (h : Change s x s' writes) : s.Alike s' := by
  cases h with
  | placed h =>
    obtain ⟨h₁, h₂, h₃, h₄, h₅, h₆, h₇⟩ := h.alike
    exact ⟨h₁, h₂, h₃, h₄, h₅, h₆, h₇⟩
  | put h =>
    obtain ⟨h₁, h₂, h₃, h₄, h₅, h₆, h₇⟩ := h.alike
    exact ⟨h₁, h₂, h₃, h₄, h₅, h₆, h₇⟩

/-- The sample is stored. -/
theorem Change.stored (h : Change s x s' writes) : x ∈ s'.toList := by
  cases h with
  | placed h =>
    obtain ⟨gone, kept, -, hlist, -⟩ := h.kept
    exact hlist ▸ List.mem_append_right _ List.mem_cons_self
  | put h => exact h.stored

/-- A series that keeps its samples for ever keeps all others. -/
theorem Change.others (h : Change s x s' writes) (hforever : s.retention = 0) {y : Sample}
    (hy : y.timestamp ≠ x.timestamp) : y ∈ s'.toList ↔ y ∈ s.toList := by
  cases h with
  | placed h =>
    have hne : y ≠ x := fun heq => hy (heq ▸ rfl)
    rw [toList_appended, h.mem_iff (by rw [oldest_of_forever hforever]; exact UInt64.zero_le)]
    simp [hne]
  | put h => exact h.others y hy

end After

end Series

end SeriesStore
