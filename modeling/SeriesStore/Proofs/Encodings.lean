import SeriesStore.Proofs.Chunks
import SeriesStore.Proofs.Effects

/-!
# Both encodings are one list machine

A chunk does to its samples what its calls do to a plain list, and it answers as the list does.
The two encodings differ only in when they refuse to append. As long as both take what is
appended, the same calls therefore leave the same samples in both and get the same answers.

The list machine says what a write does by the times of the stored samples alone. The walk
along the run, which the chunks share, is shown to come to that.

Results:
1. `SampleList.upsert_eq`: a write into an ascending run, told by what is stored.
2. `Chunk.Lists.agree`, `Chunk.Lists.run`: one call and any calls, by a chunk and by the list.
3. `Chunk.encodings_agree`: any calls on empty chunks of both encodings.
-/

namespace SeriesStore

/-! ## Calls -/

namespace Chunk

/-- A call on a chunk. -/
inductive Call
  | add (s : Sample)
  | upsert (s : Sample) (policy : DuplicatePolicy)
  -- Cuts the chunk in two; the later or the earlier half takes the calls that follow.
  | split (later : Bool)

/-- What a call answers. -/
inductive Answer
  -- Whether there was room for the sample.
  | added (room : Bool)
  | upserted (done : Upserted)
  -- What is read from the two halves, if the chunk was cut.
  | halves (cut : Option (Except StoreError (List Sample) × Except StoreError (List Sample)))
  deriving DecidableEq

/-- What a call does to a chunk. -/
def Call.perform : Call → EStateM StoreError Chunk Answer
  | add s => do
    match (← get).add? s with
    | none => return .added false
    | some chunk =>
      set chunk
      return .added true
  | upsert s policy => do
    let (chunk, done) ← MonadExcept.ofExcept ((← get).upsert s policy)
    set chunk
    return .upserted done
  | split later => do
    match (← get).split? with
    | none => return .halves none
    | some (head, tail) =>
      set (if later then tail else head)
      return .halves (some (head.scan false, tail.scan false))

end Chunk

namespace SampleList

/-- Writes a sample into a list. At a new time it is put between the earlier and the later
samples; at a time that is taken the policy decides. -/
def upsert (policy : DuplicatePolicy) (s : Sample) (samples : List Sample) :
    Except StoreError (List Sample × Upserted) :=
  let earlier := samples.filter (·.timestamp < s.timestamp)
  let later := samples.filter (s.timestamp < ·.timestamp)
  match samples.find? (·.timestamp == s.timestamp) with
  | none => .ok (earlier ++ s :: later, ⟨1, s.value⟩)
  | some old =>
    if policy = .unset ∨ policy = .block then .error (.blocked s.timestamp)
    else (policy.merge old s).map fun value =>
      (earlier ++ ⟨s.timestamp, value⟩ :: later, ⟨0, value⟩)

/-- What a call does to a list of samples, which always has room. -/
def perform : Chunk.Call → EStateM StoreError (List Sample) Chunk.Answer
  | .add s => do
    modify (· ++ [s])
    return .added true
  | .upsert s policy => do
    let (samples, done) ← MonadExcept.ofExcept (upsert policy s (← get))
    set samples
    return .upserted done
  | .split later => do
    let samples ← get
    if samples.length < 2 then return .halves none
    let moved := samples.length / 2
    let front := samples.take (samples.length - moved)
    let back := samples.drop (samples.length - moved)
    set (if later then back else front)
    return .halves (some (.ok front, .ok back))

/-! ## Writes into the list -/

variable {samples lo hi : List Sample} {t : Timestamp}

theorem filter_earlier (hlo : ∀ x ∈ lo, x.timestamp < t) (hhi : ∀ x ∈ hi, t ≤ x.timestamp) :
    (lo ++ hi).filter (·.timestamp < t) = lo := by
  have hnone : hi.filter (·.timestamp < t) = [] :=
    List.filter_eq_nil_iff.mpr fun x hx => by simpa using hhi x hx
  rw [List.filter_append, hnone, List.append_nil, List.filter_eq_self]
  exact fun x hx => decide_eq_true (hlo x hx)

theorem filter_later (hlo : ∀ x ∈ lo, x.timestamp ≤ t) (hhi : ∀ x ∈ hi, t < x.timestamp) :
    (lo ++ hi).filter (t < ·.timestamp) = hi := by
  have hnone : lo.filter (t < ·.timestamp) = [] :=
    List.filter_eq_nil_iff.mpr fun x hx => by simpa using hlo x hx
  rw [List.filter_append, hnone, List.nil_append, List.filter_eq_self]
  exact fun x hx => decide_eq_true (hhi x hx)

/-- The walk along an ascending run comes to what the list machine says. -/
theorem upsert_eq (h : Run.Ascending samples) (policy : DuplicatePolicy) (s : Sample) :
    upsert policy s samples = Run.upsert policy s samples := by
  cases h.located s.timestamp with
  | absent lo hi hlo hhi =>
    have hle : ∀ x ∈ lo, x.timestamp ≤ s.timestamp := fun x hx => UInt64.le_of_lt (hlo x hx)
    have hge : ∀ x ∈ hi, s.timestamp ≤ x.timestamp := fun x hx => UInt64.le_of_lt (hhi x hx)
    have hfree : (lo ++ hi).find? (·.timestamp == s.timestamp) = none := by
      rw [List.find?_eq_none]
      intro x hx
      rw [beq_iff_eq]
      rcases List.mem_append.mp hx with hx | hx
      · exact UInt64.ne_of_lt (hlo x hx)
      · exact (UInt64.ne_of_lt (hhi x hx)).symm
    unfold upsert
    simp only [hfree, filter_earlier hlo hge, filter_later hle hhi,
      Run.upsert_absent policy hlo hhi]
  | present lo x hi hlo hx hhi =>
    have hge : ∀ y ∈ x :: hi, s.timestamp ≤ y.timestamp := by
      intro y hy
      rcases List.mem_cons.mp hy with rfl | hy
      · exact hx ▸ UInt64.le_refl _
      · exact UInt64.le_of_lt (hhi y hy)
    have hle : ∀ y ∈ lo ++ [x], y.timestamp ≤ s.timestamp := by
      intro y hy
      rcases List.mem_append.mp hy with hy | hy
      · exact UInt64.le_of_lt (hlo y hy)
      · rw [List.mem_singleton.mp hy, hx]
        exact UInt64.le_refl _
    have hlater : (lo ++ x :: hi).filter (s.timestamp < ·.timestamp) = hi := by
      rw [← List.singleton_append, ← List.append_assoc]
      exact filter_later hle hhi
    have hheld : (lo ++ x :: hi).find? (·.timestamp == s.timestamp) = some x := by
      have hnone : lo.find? (·.timestamp == s.timestamp) = none :=
        List.find?_eq_none.mpr fun y hy => by simpa using UInt64.ne_of_lt (hlo y hy)
      rw [List.find?_append, hnone, Option.none_or, List.find?_cons, beq_iff_eq.mpr hx]
    have hmerged : ∀ value, ({ x with value } : Sample) = ⟨s.timestamp, value⟩ :=
      fun value => by rw [hx]
    rw [Run.upsert_present policy hlo hx]
    unfold upsert
    simp only [hheld, filter_earlier hlo hge, hlater, hmerged]
    cases policy <;> rfl

end SampleList

/-! ## Chunks and lists -/

namespace Chunk

/-- What is read from the chunk is read off the list, and a write that fails is blocked and
leaves the chunk as it was. -/
structure Mirrors (c : Chunk) (samples : List Sample) : Prop where
  scanned : c.scan false = .ok samples
  counted : c.count = samples.length
  first : c.firstTimestamp = Run.firstTimestamp samples
  last : c.lastTimestamp = Run.lastTimestamp samples
  refused : ∀ s policy e, outcome (Call.perform (.upsert s policy)) c = .error e →
    e = .blocked s.timestamp ∧ stateAfter (Call.perform (.upsert s policy)) c = c

/-- The call may be made on a chunk with these samples: what is appended lies past all of
them, and the chunk takes it. -/
def Admitted (c : Chunk) (samples : List Sample) : Call → Prop
  | .add s => (∀ x ∈ samples, x.timestamp < s.timestamp) ∧ (c.add? s).isSome = true
  | _ => True

instance (c : Chunk) (samples : List Sample) : (call : Call) → Decidable (c.Admitted samples call)
  | .add s => inferInstanceAs (Decidable ((∀ x ∈ samples, x.timestamp < s.timestamp) ∧
      (c.add? s).isSome = true))
  | .upsert .. => .isTrue trivial
  | .split .. => .isTrue trivial

/-- Each of some calls may be made when it is its turn. -/
def Admits : List Call → Chunk → List Sample → Prop
  | [], _, _ => True
  | call :: calls, c, samples => c.Admitted samples call ∧
    Admits calls (stateAfter call.perform c) (stateAfter (SampleList.perform call) samples)

instance decidableAdmits : (calls : List Call) → (c : Chunk) → (samples : List Sample) →
    Decidable (Admits calls c samples)
  | [], _, _ => .isTrue trivial
  | call :: calls, c, samples =>
    have := decidableAdmits calls (stateAfter call.perform c)
      (stateAfter (SampleList.perform call) samples)
    inferInstanceAs (Decidable (c.Admitted samples call ∧ Admits calls
      (stateAfter call.perform c) (stateAfter (SampleList.perform call) samples)))

theorem Admits.take {calls : List Call} {c : Chunk} {samples : List Sample}
    (h : Admits calls c samples) (n : Nat) : Admits (calls.take n) c samples := by
  induction calls generalizing c samples n with
  | nil => simpa using h
  | cons call calls ih =>
    cases n with
    | zero => exact trivial
    | succ n => exact ⟨h.1, ih h.2 n⟩

variable {c c' : Chunk} {samples samples' : List Sample} {s : Sample} {policy : DuplicatePolicy}
  {done : Upserted} {e : StoreError}

/-! ## One call -/

/-- Where the list refuses a call, the chunk does and stays as it was; otherwise both answer
the same and list the same samples afterwards. -/
def Agree (call : Call) (c : Chunk) (samples : List Sample) : Prop :=
  (∃ e, SampleList.perform call samples = .error e samples ∧ call.perform c = .error e c) ∨
    ∃ answer c' samples', SampleList.perform call samples = .ok answer samples' ∧
      call.perform c = .ok answer c' ∧ c'.Lists samples' ∧ Run.Ascending samples'

theorem Lists.agree_add (h : c.Lists samples) (hasc : Run.Ascending samples)
    (hpast : ∀ x ∈ samples, x.timestamp < s.timestamp) (hadd : c.add? s = some c') :
    Agree (.add s) c samples := by
  have hend : Run.Ascending (samples ++ [s]) :=
    Run.ascending_append.mpr ⟨hasc, by simp [Run.Ascending], by simpa using hpast⟩
  refine .inr ⟨.added true, c', _, rfl, ?_, h.add hadd, hend⟩
  rw [Call.perform, bind_of_ok (get_apply c), hadd]
  rfl

theorem Lists.perform_upsert_ok (h : c.Lists samples)
    (hu : Run.upsert policy s samples = .ok (samples', done)) :
    ∃ c', (Call.upsert s policy).perform c = .ok (.upserted done) c' ∧ c'.Lists samples' := by
  obtain ⟨c', hok, hlists, -⟩ := h.upsert_ok hu
  refine ⟨c', ?_, hlists⟩
  rw [Call.perform, bind_of_ok (get_apply c), hok]
  rfl

theorem Lists.perform_upsert_error (h : c.Lists samples)
    (hu : Run.upsert policy s samples = .error e) :
    (Call.upsert s policy).perform c = .error e c := by
  rw [Call.perform, bind_of_ok (get_apply c), h.upsert_error hu]
  rfl

theorem Lists.agree_upsert (h : c.Lists samples) (hasc : Run.Ascending samples) (s : Sample)
    (policy : DuplicatePolicy) : Agree (.upsert s policy) c samples := by
  have hlist := SampleList.upsert_eq hasc policy s
  cases hu : Run.upsert policy s samples with
  | error e =>
    refine .inl ⟨e, ?_, h.perform_upsert_error hu⟩
    rw [SampleList.perform, bind_of_ok (get_apply samples), hlist, hu]
    rfl
  | ok r =>
    obtain ⟨c', hchunk, hlists⟩ := h.perform_upsert_ok hu
    refine .inr ⟨.upserted r.2, c', r.1, ?_, hchunk, hlists, (Run.upsert_written hasc hu).ascending⟩
    rw [SampleList.perform, bind_of_ok (get_apply samples), hlist, hu]
    rfl

theorem Lists.agree_split (h : c.Lists samples) (hasc : Run.Ascending samples) (later : Bool) :
    Agree (.split later) c samples := by
  rcases Nat.lt_or_ge samples.length 2 with hlen | hlen
  · refine .inr ⟨.halves none, c, samples, ?_, ?_, h, hasc⟩
    · rw [SampleList.perform, bind_of_ok (get_apply samples), if_pos hlen]
      rfl
    · rw [Call.perform, bind_of_ok (get_apply c), h.split_none hlen]
      rfl
  · obtain ⟨head, tail, hcut, hhead, htail, -⟩ := h.split_some hlen
    have hread : (head.scan false, tail.scan false) = (.ok _, .ok _) :=
      Prod.ext hhead.samples htail.samples
    have hchunk : (Call.split later).perform c =
        .ok (.halves (some (head.scan false, tail.scan false))) (if later then tail else head) := by
      rw [Call.perform, bind_of_ok (get_apply c), hcut]
      rfl
    rw [hread] at hchunk
    refine .inr ⟨_, _, if later then samples.drop (samples.length - samples.length / 2)
      else samples.take (samples.length - samples.length / 2), ?_, hchunk, ?_, ?_⟩
    · rw [SampleList.perform, bind_of_ok (get_apply samples),
        if_neg (Nat.not_lt.mpr hlen)]
      rfl
    · cases later with
      | false => exact hhead
      | true => exact htail
    · cases later with
      | false => exact hasc.sublist (List.take_sublist _ _)
      | true => exact hasc.sublist (List.drop_sublist _ _)

/-- A call does to a chunk what it does to the list of its samples. -/
theorem Lists.agree (h : c.Lists samples) (hasc : Run.Ascending samples) {call : Call}
    (hcall : c.Admitted samples call) : Agree call c samples := by
  cases call with
  | add s =>
    obtain ⟨hpast, hroom⟩ := hcall
    obtain ⟨c', hadd⟩ := Option.isSome_iff_exists.mp hroom
    exact h.agree_add hasc hpast hadd
  | upsert s policy => exact h.agree_upsert hasc s policy
  | split later => exact h.agree_split hasc later

theorem Agree.outcome_eq {call : Call} (h : Agree call c samples) :
    outcome call.perform c = outcome (SampleList.perform call) samples := by
  rcases h with ⟨e, hlist, hchunk⟩ | ⟨answer, c', samples', hlist, hchunk, -⟩
  · rw [outcome_of_error hlist, outcome_of_error hchunk]
  · rw [outcome_of_ok hlist, outcome_of_ok hchunk]

theorem Agree.after {call : Call} (h : Agree call c samples) (hlists : c.Lists samples)
    (hasc : Run.Ascending samples) :
    (stateAfter call.perform c).Lists (stateAfter (SampleList.perform call) samples) ∧
      Run.Ascending (stateAfter (SampleList.perform call) samples) := by
  rcases h with ⟨e, hlist, hchunk⟩ | ⟨answer, c', samples', hlist, hchunk, hlists', hasc'⟩
  · rw [stateAfter_of_error hlist, stateAfter_of_error hchunk]
    exact ⟨hlists, hasc⟩
  · rw [stateAfter_of_ok hlist, stateAfter_of_ok hchunk]
    exact ⟨hlists', hasc'⟩

theorem Lists.run (h : c.Lists samples) (hasc : Run.Ascending samples) {calls : List Call}
    (hcalls : Admits calls c samples) :
    (runAll Call.perform calls c).Lists (runAll SampleList.perform calls samples) ∧
      Run.Ascending (runAll SampleList.perform calls samples) ∧
      outcomes Call.perform calls c = outcomes SampleList.perform calls samples := by
  induction calls generalizing c samples with
  | nil => exact ⟨h, hasc, rfl⟩
  | cons call calls ih =>
    have hagree := h.agree hasc hcalls.1
    obtain ⟨hnext, hnextasc⟩ := hagree.after h hasc
    obtain ⟨hend, hendasc, hanswers⟩ := ih hnext hnextasc hcalls.2
    refine ⟨hend, hendasc, ?_⟩
    rw [outcomes, outcomes, hagree.outcome_eq, hanswers]

/-! ## Both encodings -/

theorem Lists.mirrors (h : c.Lists samples) (hasc : Run.Ascending samples) :
    c.Mirrors samples where
  scanned := h.samples
  counted := h.count
  first := h.firstTimestamp
  last := h.lastTimestamp
  refused s policy e he := by
    cases hu : Run.upsert policy s samples with
    | error e' =>
      have hchunk := h.perform_upsert_error hu
      rw [outcome_of_error hchunk] at he
      cases he
      exact ⟨(Run.upsert_error hasc hu).2.1, stateAfter_of_error hchunk⟩
    | ok r =>
      obtain ⟨c', hchunk, -⟩ := h.perform_upsert_ok hu
      rw [outcome_of_ok hchunk] at he
      cases he

/-- Any calls on empty chunks of both encodings, each of which takes what is appended, leave
the same samples in both, in ascending order, and get the same answers: those that a plain list
of samples gives. -/
theorem encodings_agree (budget capacity : Nat) (calls : List Call)
    (hcoded : Admits calls (compressed (.ofSamples [] budget)) [])
    (hplain : Admits calls (plain ⟨[], capacity⟩) []) :
    outcomes Call.perform calls (compressed (.ofSamples [] budget)) =
        outcomes SampleList.perform calls [] ∧
      outcomes Call.perform calls (plain ⟨[], capacity⟩) = outcomes SampleList.perform calls [] ∧
      ∀ n, Run.Ascending (runAll SampleList.perform (calls.take n) []) ∧
        (runAll Call.perform (calls.take n) (compressed (.ofSamples [] budget))).Mirrors
          (runAll SampleList.perform (calls.take n) []) ∧
        (runAll Call.perform (calls.take n) (plain ⟨[], capacity⟩)).Mirrors
          (runAll SampleList.perform (calls.take n) []) := by
  have hnil : Run.Ascending [] := .nil
  have hlists₁ : (compressed (.ofSamples [] budget)).Lists [] := rfl
  have hlists₂ : (plain ⟨[], capacity⟩).Lists [] := rfl
  refine ⟨(hlists₁.run hnil hcoded).2.2, (hlists₂.run hnil hplain).2.2, fun n => ?_⟩
  obtain ⟨hend₁, hasc, -⟩ := hlists₁.run hnil (hcoded.take n)
  obtain ⟨hend₂, -, -⟩ := hlists₂.run hnil (hplain.take n)
  exact ⟨hasc, hend₁.mirrors hasc, hend₂.mirrors hasc⟩

/-- A run that writes between two samples, is refused, replaces a value and goes on with the
later half. -/
theorem encodings_agree_backfill :
    let calls : List Call := [.add ⟨10, ⟨1⟩⟩, .add ⟨30, ⟨3⟩⟩, .upsert ⟨20, ⟨2⟩⟩ .block,
      .upsert ⟨20, ⟨9⟩⟩ .block, .upsert ⟨20, ⟨5⟩⟩ .last, .split true, .upsert ⟨40, ⟨4⟩⟩ .block]
    let coded := compressed (.ofSamples [] 64)
    let plain := plain ⟨[], 2⟩
    Admits calls coded [] ∧ Admits calls plain [] ∧
      outcomes Call.perform calls coded = outcomes SampleList.perform calls [] ∧
      outcomes Call.perform calls plain = outcomes SampleList.perform calls [] :=
  have hcoded := by decide +kernel
  have hplain := by decide +kernel
  have h := encodings_agree 64 2 _ hcoded hplain
  ⟨hcoded, hplain, h.1, h.2.1⟩

end Chunk

end SeriesStore
