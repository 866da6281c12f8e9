import SeriesStore.Proofs.Series.Validity

/-!
# The representation invariant of a series

A run of calls begins with a new series and appends, writes and trims in any
order, where an append is made only on a series without samples or past the last
one. What is well formed about the directory and the counters holds after each
call, and no call fails but by a rejected duplicate.

Results:
1. `Call.perform_valid`: one call keeps a series valid.
2. `wellFormed_run`: every run of calls keeps a new series well formed.
-/

namespace SeriesStore.Series

/-! ## Calls -/

/-- A call on a series. -/
inductive Call
  | add (sample : Sample)
  | upsert (sample : Sample) (override fallback : DuplicatePolicy)
  | trim

namespace Call

/-- What a call does. -/
def perform : Call → Update Unit
  | add sample => Series.add sample
  | upsert sample override fallback => discard (Series.upsert sample override fallback)
  | trim => modify fun s => s.trim.1

/-- The call may be made: only samples past the last one are appended. -/
def Admitted (s : Series) : Call → Prop
  | add sample => s.isEmpty = true ∨ s.lastTimestamp < sample.timestamp
  | _ => True

instance (s : Series) : (call : Call) → Decidable (call.Admitted s)
  | add sample =>
    inferInstanceAs (Decidable (s.isEmpty = true ∨ s.lastTimestamp < sample.timestamp))
  | upsert .. => .isTrue trivial
  | trim => .isTrue trivial

/-- Each of some calls may be made when it is its turn. -/
def Admits : List Call → Series → Prop
  | [], _ => True
  | call :: calls, s => call.Admitted s ∧ Admits calls (stateAfter call.perform s)

instance decidableAdmits : (calls : List Call) → (s : Series) → Decidable (Admits calls s)
  | [], _ => .isTrue trivial
  | call :: calls, s =>
    have := decidableAdmits calls (stateAfter call.perform s)
    inferInstanceAs (Decidable (call.Admitted s ∧ Admits calls (stateAfter call.perform s)))

theorem Admits.take {calls : List Call} {s : Series} (h : Admits calls s) (n : Nat) :
    Admits (calls.take n) s := by
  induction calls generalizing s n with
  | nil => simpa using h
  | cons call calls ih =>
    cases n with
    | zero => exact trivial
    | succ n => exact ⟨h.1, ih h.2 n⟩

/-- A call keeps a series valid and fails by a rejected duplicate at most. -/
theorem perform_valid {s : Series} (h : s.Valid) {call : Call} (hcall : call.Admitted s) :
    (stateAfter call.perform s).Valid ∧
      (outcome call.perform s = .ok () ∨ ∃ t, outcome call.perform s = .error (.blocked t)) := by
  cases call with
  | add sample =>
    obtain ⟨d, n, gone, kept, hadd, hvalid, -⟩ := add_ok h hcall
    exact ⟨(stateAfter_of_ok hadd).symm ▸ hvalid, .inl (outcome_of_ok hadd)⟩
  | trim => exact ⟨trim_valid h, .inl rfl⟩
  | upsert sample override fallback =>
    cases hu : Run.upsert (.resolve override s.policy fallback) sample s.toList with
    | error e =>
      have hup := map_of_error (fun _ => ()) (upsert_error h.laid hu)
      obtain ⟨-, he, -⟩ := Run.upsert_error h.ascending hu
      exact ⟨(stateAfter_of_error hup).symm ▸ h, .inr ⟨_, he ▸ outcome_of_error hup⟩⟩
    | ok r =>
      obtain ⟨run, done⟩ := r
      obtain ⟨d, hup, hlaid, hrun⟩ := upsert_ok h.laid h.roomy hu
      have hup := map_of_ok (fun _ => ()) hup
      have hw := Run.upsert_written h.ascending hu
      exact ⟨(stateAfter_of_ok hup).symm ▸ settle_valid h hlaid (hrun ▸ hw),
        .inl (outcome_of_ok hup)⟩

theorem run_valid {s : Series} (h : s.Valid) {calls : List Call} (hcalls : Admits calls s) :
    (runAll perform calls s).Valid := by
  induction calls generalizing s with
  | nil => exact h
  | cons call calls ih => exact ih (perform_valid h hcalls.1).1 hcalls.2

theorem outcomes_valid {s : Series} (h : s.Valid) {calls : List Call} (hcalls : Admits calls s) :
    ∀ o ∈ outcomes perform calls s, o = .ok () ∨ ∃ t, o = .error (.blocked t) := by
  induction calls generalizing s with
  | nil => exact fun o ho => absurd ho List.not_mem_nil
  | cons call calls ih =>
    intro o ho
    obtain ⟨hvalid, hout⟩ := perform_valid h hcalls.1
    rcases List.mem_cons.mp ho with rfl | ho
    · exact hout
    · exact ih hvalid hcalls.2 o ho

end Call

/-! ## The invariant -/

/-- What is well formed about the directory and the counters of a series. -/
structure WellFormed (s : Series) : Prop where
  -- There is a chunk.
  nonempty : s.chunks.entries ≠ []
  -- The samples of each chunk ascend.
  ascending : ∀ e ∈ s.chunks.entries, ∃ run, e.2.samples = .ok run ∧ Run.Ascending run
  -- Each chunk ends before the next one begins.
  apart : ∀ pre e e' post, s.chunks.entries = pre ++ e :: e' :: post →
    e.2.lastTimestamp < e'.2.firstTimestamp
  -- Each chunk is filed under its first timestamp; the first one may be filed
  -- under zero.
  filed : ∀ pre e post, s.chunks.entries = pre ++ e :: post →
    e.1 = .ofTimestamp e.2.firstTimestamp ∨ pre = [] ∧ e.1 = .ofTimestamp 0
  -- Only the chunk of a series without samples is empty.
  filled : ∀ e ∈ s.chunks.entries, e.2.count = 0 → s.chunks.entries = [e] ∧ s.isEmpty = true
  -- The chunks hold as many samples as the series counts.
  total : s.totalSamples = (s.chunks.values.map (·.count)).sum
  -- The last sample of the last chunk is the one the series knows.
  last : s.isEmpty = false → ∃ k c run, s.chunks.last? = some (k, c) ∧ c.samples = .ok run ∧
    run.getLast? = some ⟨s.lastTimestamp, s.lastValue⟩

theorem Valid.wellFormed {s : Series} (h : s.Valid) : s.WellFormed where
  nonempty := h.laid.filed.ne_nil
  ascending e he := ⟨e.2.toList, (h.laid.holds e he).samples, h.laid.ascending_of_mem he⟩
  apart pre e e' post hsplit := by
    have hlaid := hsplit ▸ h.laid
    have hpair : pre ++ e :: e' :: post = (pre ++ [e]) ++ e' :: post := by simp
    have hne' := (hpair ▸ hlaid.filed).inner (by simp) |>.nonempty
    have hne : e.2.toList ≠ [] := by
      intro hnil
      have hpost := hlaid.filed.of_nil hnil |>.2.1
      cases hpost
    obtain ⟨x, hx, hlast⟩ := Run.lastTimestamp_mem hne
    obtain ⟨y, hy, hfirst⟩ := Run.firstTimestamp_mem hne'
    rw [(hlaid.holds e (by simp)).lastTimestamp, (hlaid.holds e' (by simp)).firstTimestamp,
      ← hlast, ← hfirst]
    exact (ascending_parts (k := e.1) (c := e.2) hlaid).2.2.2.2.2 x hx y (by simp [hy])
  filed pre e post hsplit := by
    have hlaid := hsplit ▸ h.laid
    rw [(hlaid.holds e (by simp)).firstTimestamp]
    by_cases hnil : e.2.toList = []
    · obtain ⟨hpre, -, hkey⟩ := hlaid.filed.of_nil hnil
      exact .inr ⟨hpre, hkey⟩
    · exact hlaid.filed.key hnil
  filled e he hcount := by
    obtain ⟨pre, post, hsplit⟩ := List.append_of_mem he
    have hlaid := hsplit ▸ h.laid
    rw [(hlaid.holds e (by simp)).count] at hcount
    have hnil := List.eq_nil_of_length_eq_zero hcount
    obtain ⟨rfl, rfl, -⟩ := hlaid.filed.of_nil hnil
    refine ⟨hsplit, h.isEmpty_iff.mpr ?_⟩
    unfold toList
    rw [hsplit]
    simpa using hnil
  total := by
    rw [h.total, toList, ← length_runOf h.laid.holds, SortedMap.values, List.map_map]
    rfl
  last hfull := by
    have hne := h.isEmpty_eq_false.mp hfull
    obtain ⟨pre, ⟨k, c⟩, hsplit⟩ :=
      (List.eq_nil_or_concat s.chunks.entries).resolve_left h.laid.filed.ne_nil
    rw [List.concat_eq_append] at hsplit
    refine ⟨k, c, c.toList, ?_, (h.laid.holds (k, c) (by simp [hsplit])).samples, ?_⟩
    · unfold SortedMap.last?
      rw [hsplit]
      simp
    · have hlast := h.getLast? hne
      have hlist : s.toList = runOf pre ++ c.toList := by simp [toList, hsplit]
      have hchunk : c.toList ≠ [] := by
        intro hnil
        have hpre := (hsplit ▸ h.laid).filed.of_nil hnil |>.1
        exact hne (by rw [hlist, hpre, hnil]; rfl)
      rwa [hlist, List.getLast?_append, List.getLast?_eq_some_getLast hchunk, Option.some_or,
        ← List.getLast?_eq_some_getLast hchunk] at hlast

/-- Whatever calls are made on a new series, it is well formed after each of them,
and no call fails but by a rejected duplicate. -/
theorem wellFormed_run (key : String) (options : SeriesOptions) (calls : List Call)
    (h : Call.Admits calls (new key options)) :
    (∀ n, (runAll Call.perform (calls.take n) (new key options)).WellFormed) ∧
      ∀ o ∈ outcomes Call.perform calls (new key options),
        o = .ok () ∨ ∃ t, o = .error (.blocked t) := by
  have hnew := new_valid key options
  exact ⟨fun n => (Call.run_valid hnew (h.take n)).wellFormed, Call.outcomes_valid hnew h⟩

/-- A run with a sample before the first one and a rejected duplicate. -/
theorem wellFormed_backfill :
    let calls : List Call := [.add ⟨20, ⟨1⟩⟩, .upsert ⟨10, ⟨2⟩⟩ .unset .block,
      .upsert ⟨20, ⟨3⟩⟩ .unset .block, .trim, .add ⟨30, ⟨4⟩⟩]
    let options : SeriesOptions := { chunkSize := 16, encoding := .plain, retention := 15 }
    Call.Admits calls (new "s" options) ∧
      ∀ n, (runAll Call.perform (calls.take n) (new "s" options)).WellFormed :=
  have h := by decide +kernel
  ⟨h, (wellFormed_run _ _ _ h).1⟩

end SeriesStore.Series
