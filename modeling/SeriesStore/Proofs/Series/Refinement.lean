import SeriesStore.Proofs.Series.Invariant
import SeriesStore.Proofs.SortedMaps

/-!
# A series is a map

A series that keeps its samples for ever is a plain map from timestamps to
values: each call does to the series what it does to the map and answers the
same, and everything that is read off the series is read off the map.

Results:
1. `upsert_samples`: a write into a run is a write into a map.
2. `Refines.perform`: one call, by the map and by the series.
3. `run_refines`: every run of calls.
-/

namespace SeriesStore

/-- Values by their timestamps. -/
abbrev SampleMap := SortedMap Timestamp Value

namespace SampleMap

/-- The samples of a map, ascending. -/
def samples (m : SampleMap) : List Sample := m.entries.map fun e => ⟨e.1, e.2⟩

/-- The policy of a write: the first that is set of the one given with it, that of
the series and that of the store. -/
def deciding (override series default : DuplicatePolicy) : DuplicatePolicy :=
  ([override, series, default].find? (· ≠ .unset)).getD .unset

/-- Writes a sample into a map. -/
def upsert (policy : DuplicatePolicy) (sample : Sample) (m : SampleMap) :
    Except StoreError SampleMap :=
  match m.get? sample.timestamp with
  | none => .ok (m.insert sample.timestamp sample.value)
  | some old =>
    if policy = .unset ∨ policy = .block then .error (.blocked sample.timestamp)
    else (policy.merge ⟨sample.timestamp, old⟩ sample).map (m.insert sample.timestamp)

/-- What a call on a series with this policy does to a map. Nothing is dropped from
a map. -/
def perform (policy : DuplicatePolicy) : Series.Call → EStateM StoreError SampleMap Unit
  | .add sample => modify (·.insert sample.timestamp sample.value)
  | .upsert sample override fallback => do
    set (← MonadExcept.ofExcept ((← get).upsert (deciding override policy fallback) sample))
  | .trim => return

theorem deciding_eq (override series default : DuplicatePolicy) :
    deciding override series default = .resolve override series default := by
  cases override <;> cases series <;> cases default <;> rfl

/-! ## Runs and maps -/

variable {m : SampleMap} {t : Timestamp} {pre post : List (Timestamp × Value)}

theorem before_of_around (h : SortedMap.Around t pre post) :
    ∀ x ∈ pre.map fun e => (⟨e.1, e.2⟩ : Sample), x.timestamp < t := by
  intro x hx
  obtain ⟨e, he, rfl⟩ := List.mem_map.mp hx
  exact Std.compare_eq_lt.mp (h.below e he)

theorem behind_of_around (h : SortedMap.Around t pre post) :
    ∀ x ∈ post.map fun e => (⟨e.1, e.2⟩ : Sample), t < x.timestamp := by
  intro x hx
  obtain ⟨e, he, rfl⟩ := List.mem_map.mp hx
  exact Std.compare_eq_lt.mp (h.above e he)

theorem blocks_iff {policy : DuplicatePolicy} :
    policy.blocks = true ↔ policy = .unset ∨ policy = .block := by
  cases policy <;> simp [DuplicatePolicy.blocks]

/-- A write into the run of a map is a write into the map. -/
theorem upsert_samples (policy : DuplicatePolicy) (sample : Sample) (m : SampleMap) :
    (Run.upsert policy sample m.samples).map (·.1) = (m.upsert policy sample).map samples := by
  rcases m.split_or_gap sample.timestamp with ⟨pre, old, post, h⟩ | ⟨pre, post, h, ha⟩
  · have ha := SortedMap.around_of_split h
    have hsamples : m.samples = pre.map (fun e => ⟨e.1, e.2⟩) ++
        ⟨sample.timestamp, old⟩ :: post.map fun e => ⟨e.1, e.2⟩ := by
      simp [samples, h]
    have hsame : (⟨sample.timestamp, old⟩ : Sample).timestamp = sample.timestamp := rfl
    rw [hsamples, Run.upsert_present policy (before_of_around ha) hsame, upsert,
      SortedMap.get?_of_split h]
    by_cases hblocks : policy.blocks = true
    · rw [Run.merge_of_blocks hblocks]
      simp only [if_pos (blocks_iff.mp hblocks)]
      rfl
    · simp only [if_neg (mt blocks_iff.mpr hblocks)]
      cases policy.merge ⟨sample.timestamp, old⟩ sample with
      | error e => rfl
      | ok v => simp [Except.map, samples, SortedMap.entries_insert_of_split h]
  · have hsamples : m.samples = pre.map (fun e => ⟨e.1, e.2⟩) ++
        post.map fun e => ⟨e.1, e.2⟩ := by
      simp [samples, h]
    rw [hsamples, Run.upsert_absent policy (before_of_around ha) (behind_of_around ha), upsert,
      SortedMap.get?_of_gap h ha]
    simp [Except.map, samples, SortedMap.entries_insert_of_gap h ha]

/-- A sample past all others becomes the last entry. -/
theorem samples_insert_last {sample : Sample}
    (h : ∀ x ∈ m.samples, x.timestamp < sample.timestamp) :
    samples (m.insert sample.timestamp sample.value) = m.samples ++ [sample] := by
  have hgap : m.entries = m.entries ++ [] := by simp
  have haround : SortedMap.Around sample.timestamp m.entries [] := by
    refine ⟨fun e he => ?_, by simp⟩
    exact Std.compare_eq_lt.mpr (h ⟨e.1, e.2⟩ (List.mem_map.mpr ⟨e, he, rfl⟩))
  unfold samples
  rw [SortedMap.entries_insert_of_gap hgap haround, List.map_append]
  rfl

end SampleMap

namespace Series

/-! ## Calls -/

/-- The series holds the entries of the map, and keeps them for ever. -/
structure Refines (policy : DuplicatePolicy) (s : Series) (m : SampleMap) : Prop where
  valid : s.Valid
  forever : s.retention = 0
  policy : s.policy = policy
  same : s.toList = m.samples

variable {policy : DuplicatePolicy} {s : Series} {m : SampleMap}

/-- A call does the same to a series and to the map it refines, and answers the
same. -/
theorem Refines.perform (h : Refines policy s m) {call : Call} (hcall : call.Admitted s) :
    Refines policy (stateAfter call.perform s) (stateAfter (SampleMap.perform policy call) m) ∧
      outcome call.perform s = outcome (SampleMap.perform policy call) m := by
  cases call with
  | add sample =>
    obtain ⟨d, n, gone, kept, hadd, hvalid, happend, hrun, hgone⟩ := add_ok h.valid hcall
    rw [eq_nil_of_forever h.forever hgone, List.nil_append] at happend
    have hpast : ∀ x ∈ m.samples, x.timestamp < sample.timestamp := by
      have hasc : Run.Ascending (runOf d.entries) := hvalid.ascending
      rw [hrun, ← happend, h.same] at hasc
      exact fun x hx => (Run.ascending_append.mp hasc).2.2 x hx sample (by simp)
    have hstep : stateAfter (Call.perform (.add sample)) s = _ := stateAfter_of_ok hadd
    refine ⟨?_, outcome_of_ok hadd⟩
    rw [hstep]
    refine ⟨hvalid, h.forever, h.policy, ?_⟩
    show runOf d.entries = _
    rw [hrun, ← happend, h.same]
    exact (SampleMap.samples_insert_last hpast).symm
  | trim =>
    obtain ⟨d, gone, htrim, -, happend, -, hgone⟩ :=
      trim_ok h.valid.laid h.valid.lastTimestamp_eq
    rw [eq_nil_of_forever h.forever hgone, List.nil_append] at happend
    refine ⟨⟨trim_valid h.valid, ?_, ?_, ?_⟩, rfl⟩
    · show s.trim.1.retention = 0
      rw [htrim]
      exact h.forever
    · show s.trim.1.policy = policy
      rw [htrim]
      exact h.policy
    · show s.trim.1.toList = m.samples
      rw [htrim, ← h.same, happend]
      rfl
  | upsert sample override fallback =>
    have hmap := SampleMap.upsert_samples (.resolve override s.policy fallback) sample m
    rw [← h.same] at hmap
    have hperform : SampleMap.perform policy (.upsert sample override fallback) m =
        (do set (← MonadExcept.ofExcept (m.upsert (.resolve override s.policy fallback) sample)) :
          EStateM StoreError SampleMap Unit) m := by
      rw [h.policy, ← SampleMap.deciding_eq]
      rfl
    cases hu : Run.upsert (.resolve override s.policy fallback) sample s.toList with
    | error e =>
      rw [hu] at hmap
      cases hm : m.upsert (.resolve override s.policy fallback) sample with
      | ok m' => rw [hm] at hmap; cases hmap
      | error e' =>
        rw [hm] at hmap
        cases hmap
        have hup := map_of_error (fun _ => ()) (upsert_error h.valid.laid hu)
        have hfail :
            SampleMap.perform policy (.upsert sample override fallback) m = .error e m := by
          rw [hperform, hm]
          rfl
        rw [stateAfter_of_error hfail, outcome_of_error hfail]
        exact ⟨(stateAfter_of_error hup).symm ▸ h, outcome_of_error hup⟩
    | ok r =>
      obtain ⟨run, done⟩ := r
      rw [hu] at hmap
      cases hm : m.upsert (.resolve override s.policy fallback) sample with
      | error e => rw [hm] at hmap; cases hmap
      | ok m' =>
        rw [hm] at hmap
        have hrun' : run = m'.samples := Except.ok.inj hmap
        obtain ⟨d, hup, hlaid, hrun⟩ := upsert_ok h.valid.laid h.valid.roomy hu
        have hup := map_of_ok (fun _ => ()) hup
        have hw := Run.upsert_written h.valid.ascending hu
        have hdone : SampleMap.perform policy (.upsert sample override fallback) m = .ok () m' := by
          rw [hperform, hm]
          rfl
        have halike := settle_alike { s with chunks := d } sample.timestamp done
        have hstep : stateAfter (Call.perform (.upsert sample override fallback)) s = _ :=
          stateAfter_of_ok hup
        rw [stateAfter_of_ok hdone, outcome_of_ok hdone]
        refine ⟨?_, outcome_of_ok hup⟩
        rw [hstep]
        refine ⟨settle_valid h.valid hlaid (hrun ▸ hw), halike.retention.trans h.forever,
          halike.policy.trans h.policy, ?_⟩
        rw [toList_settle, ← hrun']
        exact hrun

theorem Refines.run (h : Refines policy s m) {calls : List Call} (hcalls : Call.Admits calls s) :
    Refines policy (runAll Call.perform calls s) (runAll (SampleMap.perform policy) calls m) ∧
      outcomes Call.perform calls s = outcomes (SampleMap.perform policy) calls m := by
  induction calls generalizing s m with
  | nil => exact ⟨h, rfl⟩
  | cons call calls ih =>
    obtain ⟨hnext, hout⟩ := h.perform hcalls.1
    obtain ⟨hrest, houts⟩ := ih hnext hcalls.2
    exact ⟨hrest, by rw [outcomes, outcomes, hout, houts]⟩

/-! ## What is read -/

/-- What is read off a series is read off a map. -/
structure Agrees (s : Series) (m : SampleMap) : Prop where
  range : s.range 0 .latest = .ok m.samples
  total : s.totalSamples = m.size
  first : s.firstTimestamp? = m.first?.map (·.1)
  last : s.lastSample? = m.last?.map fun e => ⟨e.1, e.2⟩
  known : ∀ e, m.last? = some e → (s.lastTimestamp, s.lastValue) = e

theorem Refines.agrees (h : Refines policy s m) : s.Agrees m := by
  have hlast : s.lastSample? = m.last?.map fun e => ⟨e.1, e.2⟩ := by
    rw [h.valid.lastSample, h.same, SampleMap.samples, List.getLast?_map]
    rfl
  refine ⟨?_, ?_, ?_, hlast, fun e he => ?_⟩
  · rw [h.valid.range_all, h.same]
  · rw [h.valid.total, h.same, SampleMap.samples, List.length_map]
    rfl
  · rw [h.valid.firstTimestamp, h.same, SampleMap.samples, List.head?_map, Option.map_map]
    rfl
  · rw [he, lastSample?] at hlast
    split at hlast
    · cases hlast
    · simp only [Option.map_some, Option.some.injEq, Sample.mk.injEq] at hlast
      exact Prod.ext hlast.1 hlast.2

/-- A new series without retention is the empty map, whatever calls are made on
both: they answer the same, and after each of them the same is read. -/
theorem run_refines (key : String) (options : SeriesOptions) (calls : List Call)
    (hforever : options.retention = 0) (h : Call.Admits calls (new key options)) :
    outcomes Call.perform calls (new key options) =
        outcomes (SampleMap.perform options.policy) calls .empty ∧
      ∀ n, (runAll Call.perform (calls.take n) (new key options)).Agrees
        (runAll (SampleMap.perform options.policy) (calls.take n) .empty) := by
  have hnew : Refines options.policy (new key options) .empty := by
    have hvalid := new_valid key options
    refine ⟨hvalid, hforever, rfl, ?_⟩
    exact List.eq_nil_of_length_eq_zero hvalid.total.symm
  exact ⟨(hnew.run h).2, fun n => (hnew.run (h.take n)).1.agrees⟩

/-- A run over coded chunks with a sample before the first one, one that replaces
another, and a rejected duplicate. -/
theorem run_refines_backfill :
    let calls : List Call := [.add ⟨20, ⟨1⟩⟩, .upsert ⟨10, ⟨2⟩⟩ .unset .block,
      .upsert ⟨20, ⟨3⟩⟩ .last .block, .upsert ⟨20, ⟨4⟩⟩ .unset .block, .add ⟨30, ⟨5⟩⟩]
    let options : SeriesOptions := { chunkSize := 16 }
    options.retention = 0 ∧ Call.Admits calls (new "s" options) ∧
      outcomes Call.perform calls (new "s" options) =
        outcomes (SampleMap.perform options.policy) calls .empty :=
  have h := by decide +kernel
  ⟨rfl, h, (run_refines _ _ _ rfl h).1⟩

end Series

end SeriesStore
