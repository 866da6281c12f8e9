import Mathlib.Data.List.SplitBy
import SeriesStore.Proofs.Series.Rules

/-!
# A stream of samples, group by group

Samples that ascend come bucket by bucket, so a run of them falls into groups of neighbours that
share a bucket. A rule that is given the samples one at a time remembers the last group and owes a
write for each group before it, which is what an aggregation of the whole run would owe. What the
series has dropped of the run meanwhile makes no difference to the rule.

Results:
1. `groups_same`, `groups_next`: what one more sample does to the groups of a run.
2. `Rule.append_grouped`: what a rule does about it.
3. `Streamed.append`, `Streamed.appends`: all rules of a series, over one sample and over a run.
4. `append_groups`: the writes that a series owes for a run, and what its rules are left with.
-/

namespace SeriesStore

variable {length : UInt64} {run : List Sample} {x : Sample}

/-! ## Groups -/

/-- Two samples share a bucket. -/
def shares (length : UInt64) (a b : Sample) : Bool :=
  windowStart a.timestamp length == windowStart b.timestamp length

/-- The groups of neighbours in a run that share a bucket. -/
def groups (length : UInt64) (run : List Sample) : List (List Sample) := run.splitBy (shares length)

/-- The start of the bucket that the samples of a group share. -/
def groupStart (length : UInt64) (group : List Sample) : Timestamp :=
  windowStart (Run.lastTimestamp group) length

@[simp] theorem groupStart_concat (length : UInt64) (group : List Sample) (x : Sample) :
    groupStart length (group ++ [x]) = windowStart x.timestamp length := by
  unfold groupStart
  rw [Run.lastTimestamp_concat]

/-- The bucket of a group holds a sample of the run. -/
theorem groupStart_mem {group : List Sample} (h : group ∈ groups length run) :
    ∃ y ∈ run, windowStart y.timestamp length = groupStart length group := by
  obtain ⟨y, hy, hlast⟩ := Run.lastTimestamp_mem (List.ne_nil_of_mem_splitBy h)
  refine ⟨y, ?_, by rw [groupStart, hlast]⟩
  rw [← List.flatten_splitBy (shares length) run]
  exact List.mem_flatten.mpr ⟨group, h, hy⟩

/-- A run ends with its last group. -/
theorem groups_eq_concat (length : UInt64) (hne : run ≠ []) : ∃ closed group,
    groups length run = closed ++ [group] ∧ group ≠ [] ∧
      groupStart length group = windowStart (Run.lastTimestamp run) length := by
  have hsplit : groups length run ≠ [] := List.splitBy_ne_nil.mpr hne
  obtain ⟨closed, group, hgroups⟩ := (List.eq_nil_or_concat _).resolve_left hsplit
  rw [List.concat_eq_append] at hgroups
  have hgroup : group ≠ [] :=
    List.ne_nil_of_mem_splitBy (hgroups ▸ List.mem_append_right closed List.mem_cons_self)
  obtain ⟨front, y, hfront⟩ := (List.eq_nil_or_concat group).resolve_left hgroup
  rw [List.concat_eq_append] at hfront
  have hrun := List.flatten_splitBy (shares length) run
  rw [← groups, hgroups, List.flatten_append, List.flatten_singleton, hfront,
    ← List.append_assoc] at hrun
  refine ⟨closed, group, hgroups, hgroup, ?_⟩
  rw [← hrun, hfront, groupStart_concat, Run.lastTimestamp_concat]

/-- A sample in another bucket than the one before it begins a group. -/
theorem groups_next (hnext : run ≠ [] →
      windowStart (Run.lastTimestamp run) length ≠ windowStart x.timestamp length) :
    groups length (run ++ [x]) = groups length run ++ [[x]] := by
  refine List.splitBy_append_cons [] fun y hy => beq_eq_false_iff_ne.mpr ?_
  have hne : run ≠ [] := List.ne_nil_of_mem (List.mem_of_mem_getLast? hy)
  rw [← Run.lastTimestamp_of_getLast? hy]
  exact hnext hne

/-- A sample in the bucket of the one before it joins its group. -/
theorem groups_same {closed : List (List Sample)} {group : List Sample}
    (hgroups : groups length run = closed ++ [group])
    (hsame : groupStart length group = windowStart x.timestamp length) :
    groups length (run ++ [x]) = closed ++ [group ++ [x]] := by
  obtain ⟨hrun, hnil, hchains, hborders⟩ := List.splitBy_eq_iff.mp hgroups
  refine List.splitBy_eq_iff.mpr ⟨by rw [hrun]; simp, fun hmem => ?_, fun m hm => ?_, ?_⟩
  · rcases List.mem_append.mp hmem with hmem | hmem
    · exact hnil (List.mem_append_left _ hmem)
    · exact List.append_ne_nil_of_right_ne_nil _ (List.cons_ne_nil x [])
        (List.mem_singleton.mp hmem).symm
  · rcases List.mem_append.mp hm with hm | hm
    · exact hchains m (List.mem_append_left _ hm)
    · rw [List.mem_singleton.mp hm]
      have hgroup := hchains group (List.mem_append_right closed List.mem_cons_self)
      refine List.isChain_append.mpr ⟨hgroup, List.isChain_singleton _, fun a ha b hb => ?_⟩
      cases Option.some.inj hb
      rw [groupStart, Run.lastTimestamp_of_getLast? ha] at hsame
      exact beq_iff_eq.mpr hsame
  · -- The group begins with the same sample as before.
    obtain ⟨hclosed, -, hborder⟩ := List.isChain_append.mp hborders
    refine List.isChain_append.mpr ⟨hclosed, List.isChain_singleton _, fun a ha b hb => ?_⟩
    cases Option.some.inj hb
    obtain ⟨hane, hne, hother⟩ := hborder a ha _ rfl
    refine ⟨hane, by simp, ?_⟩
    rwa [List.head_append_of_ne_nil hne]

/-- What one more sample does to the groups of a run. -/
inductive Grown (length : UInt64) (x : Sample) : List (List Sample) → List (List Sample) → Prop
  | first : Grown length x [] [[x]]
  | joins {closed : List (List Sample)} {group : List Sample} : group ≠ [] →
      groupStart length group = windowStart x.timestamp length →
      Grown length x (closed ++ [group]) (closed ++ [group ++ [x]])
  | begins {closed : List (List Sample)} {group : List Sample} : group ≠ [] →
      groupStart length group < windowStart x.timestamp length →
      Grown length x (closed ++ [group]) (closed ++ [group] ++ [[x]])

/-- A sample past the end joins the last group or begins a later one. -/
theorem groups_grown (length : UInt64) (hpast : ∀ y ∈ run, y.timestamp < x.timestamp) :
    Grown length x (groups length run) (groups length (run ++ [x])) := by
  by_cases hne : run = []
  · rw [hne, groups_next (absurd rfl)]
    exact .first
  obtain ⟨closed, group, hgroups, hgroup, hstart⟩ := groups_eq_concat length hne
  rcases Rule.open_or_past length hpast with hsame | ⟨-, hlt⟩
  · have hshared := hstart.trans (hsame hne).symm
    rw [groups_same hgroups hshared, hgroups]
    exact .joins hgroup hshared
  · rw [groups_next fun _ => UInt64.ne_of_lt hlt, hgroups]
    exact .begins hgroup (hstart ▸ hlt)

theorem Grown.pairwise {before after : List (List Sample)} (h : Grown length x before after)
    (hbefore : (before.map (groupStart length)).Pairwise (· < ·)) :
    (after.map (groupStart length)).Pairwise (· < ·) := by
  cases h with
  | first => exact List.pairwise_singleton _ _
  | joins _ hsame => simpa [hsame] using hbefore
  | @begins closed group _ hlt =>
    rw [List.map_append, List.map_singleton]
    refine List.pairwise_append.mpr ⟨hbefore, List.pairwise_singleton _ _, fun a ha b hb => ?_⟩
    obtain rfl : b = windowStart x.timestamp length := List.mem_singleton.mp hb
    rw [List.map_append, List.map_singleton] at hbefore ha
    rcases List.mem_append.mp ha with ha | ha
    · have hle := (List.pairwise_append.mp hbefore).2.2 a ha _ List.mem_cons_self
      exact UInt64.lt_trans hle hlt
    · rw [List.mem_singleton.mp ha]
      exact hlt

/-- Along an ascending run, the groups lie in later and later buckets. -/
theorem pairwise_groupStart (length : UInt64) (hasc : Run.Ascending run) :
    ((groups length run).map (groupStart length)).Pairwise (· < ·) := by
  induction run using List.reverseRecOn with
  | nil => exact .nil
  | append_singleton run x ih =>
    obtain ⟨hrun, -, hpast⟩ := Run.ascending_append.mp hasc
    exact (groups_grown length fun y hy => hpast y hy x List.mem_cons_self).pairwise (ih hrun)

/-! ## One rule -/

namespace Rule

/-- The write that a rule owes for a group of samples that share a bucket. -/
def owedFor (r : Rule) (group : List Sample) : Option BucketWrite :=
  r.owed (groupStart r.bucket group)
    (Accumulator.ofList r.aggregation (group.map (·.value))).result?

/-- The rule once it has seen a run: its open bucket is that of the last group. -/
def seen (r : Rule) (run : List Sample) : Rule :=
  { r with
    context := .ofList r.aggregation (((groups r.bucket run).getLast?.getD []).map (·.value))
    bucketStart := (groups r.bucket run).getLast?.map (groupStart r.bucket) }

variable {r : Rule}

/-- A rule that has been made has seen nothing. -/
theorem seen_nil (h : Rule.new r.dest r.aggregation r.bucket = .ok r) : r.seen [] = r := by
  unfold Rule.new at h
  split at h
  · cases h
  · exact Except.ok.inj h

/-- A group that is not empty is owed a write at the start of its bucket. -/
theorem owedFor_of_ne_nil {group : List Sample} (hne : group ≠ []) :
    ∃ v, r.owedFor group = some ⟨r.dest, ⟨groupStart r.bucket group, v⟩⟩ := by
  have hvalues : group.map (·.value) ≠ [] := fun hnil => hne (List.map_eq_nil_iff.mp hnil)
  obtain ⟨v, hv⟩ := Option.ne_none_iff_exists'.mp (mt Accumulator.result?_ofList_eq_none.mp hvalues)
  exact ⟨v, by rw [owedFor, hv]; rfl⟩

/-- The writes that are owed for some groups are made at the starts of these. -/
theorem timestamps_of_owedFor {writes : List BucketWrite} {gs : List (List Sample)}
    (hne : ∀ group ∈ gs, group ≠ []) (h : writes.map some = gs.map r.owedFor) :
    writes.map (·.sample.timestamp) = gs.map (groupStart r.bucket) := by
  induction gs generalizing writes with
  | nil => rw [List.map_eq_nil_iff.mp h]; rfl
  | cons group gs ih =>
    obtain ⟨w, writes, rfl, hw, hrest⟩ := List.map_eq_cons_iff.mp h
    obtain ⟨v, hv⟩ := r.owedFor_of_ne_nil (hne group List.mem_cons_self)
    rw [hv] at hw
    cases Option.some.inj hw
    rw [List.map_cons, List.map_cons, ih (fun g hg => hne g (List.mem_cons_of_mem _ hg)) hrest]

/-- A rule that takes a sample past a run has then seen the run with the sample; and what it owes
is one write more for the groups before the last one. -/
theorem append_grouped (hpast : ∀ y ∈ run, y.timestamp < x.timestamp) :
    ((r.seen run).append x).1 = r.seen (run ++ [x]) ∧
      (groups r.bucket (run ++ [x])).dropLast.map r.owedFor =
        (groups r.bucket run).dropLast.map r.owedFor ++
          ((r.seen run).append x).2.toList.map some := by
  have hgrown := groups_grown r.bucket hpast
  unfold seen
  generalize groups r.bucket run = before at hgrown ⊢
  generalize groups r.bucket (run ++ [x]) = after at hgrown ⊢
  cases hgrown with
  | first =>
    rw [append_open (by exact UInt64.lt_irrefl _)]
    exact ⟨rfl, rfl⟩
  | @joins closed group hne hsame =>
    simp only [List.getLast?_concat, Option.getD_some, Option.map_some, List.dropLast_concat,
      groupStart_concat, List.map_append, List.map_singleton, Accumulator.ofList_concat]
    rw [append_open (by rw [hsame]; exact UInt64.lt_irrefl _)]
    exact ⟨by rw [hsame]; rfl, (List.append_nil _).symm⟩
  | @begins closed group hne hlt =>
    obtain ⟨v, hv⟩ := r.owedFor_of_ne_nil hne
    simp only [List.getLast?_concat, Option.getD_some, Option.map_some, List.dropLast_concat]
    rw [append_past (by exact hlt)]
    constructor
    · simp only [Accumulator.reset_ofList]
      rfl
    · -- The rule owes what its context holds, which are the values of the last group.
      show (closed ++ [group]).map r.owedFor =
        closed.map r.owedFor ++ (r.owedFor group).toList.map some
      rw [List.map_append, List.map_singleton, hv]
      rfl

end Rule

/-! ## All rules of a series -/

namespace Series

variable {s : Series} {rules : List Rule}

/-- The series and its rules have been given the run. -/
structure Streamed (rules : List Rule) (run : List Sample) (s : Series) : Prop where
  valid : s.Valid
  seen : s.Seen run
  rules : s.rules = rules.map (·.seen run)

/-- A new series that is given rules has seen nothing, as they have. -/
theorem new_streamed (key : String) (options : SeriesOptions) (source : Option String)
    (hrules : ∀ r ∈ rules, Rule.new r.dest r.aggregation r.bucket = .ok r) :
    ({ new key options with source, rules } : Series).Streamed rules [] := by
  have hnew := new_valid key options
  have hvalid : ({ new key options with source, rules } : Series).Valid :=
    ⟨hnew.laid, hnew.total, hnew.last, hnew.roomy⟩
  refine ⟨hvalid, hvalid.isEmpty_iff.mp rfl ▸ hvalid.seen, ?_⟩
  refine (List.map_id rules).symm.trans (List.map_congr_left fun r hr => ?_)
  exact (Rule.seen_nil (hrules r hr)).symm

theorem Streamed.past_end (h : s.Streamed rules run)
    (hpast : ∀ y ∈ run, y.timestamp < x.timestamp) :
    s.isEmpty = true ∨ s.lastTimestamp < x.timestamp := by
  by_cases hnil : s.toList = []
  · exact .inl (h.valid.isEmpty_iff.mpr hnil)
  · exact .inr (hpast _ (h.seen.stored _ (h.valid.last_mem hnil)))

/-- A sample past the end is taken, and each rule owes for it what it owes for the groups of the
run with the sample beyond those of the run. -/
theorem Streamed.append (h : s.Streamed rules run) (hapart : (rules.map (·.dest)).Nodup)
    (hpast : ∀ y ∈ run, y.timestamp < x.timestamp) :
    ∃ writes s', Series.append x s = .ok writes s' ∧ s'.Streamed rules (run ++ [x]) ∧
      ∀ r ∈ rules, (groups r.bucket (run ++ [x])).dropLast.map r.owedFor =
        (groups r.bucket run).dropLast.map r.owedFor ++
          (writes.filter (·.dest == r.dest)).map some := by
  obtain ⟨base, hadd, hplaced⟩ := add_placed h.valid (h.past_end hpast)
  have hstepped := hplaced.stepped
  refine ⟨_, _, bind_of_ok hadd, ⟨hplaced.valid.appended x,
    (hplaced.seen h.valid h.seen).stepRules _, ?_⟩, fun r hr => ?_⟩
  · refine hstepped.rules.trans ?_
    rw [h.rules, List.map_map]
    exact List.map_congr_left fun r _ => (r.append_grouped hpast).1
  · have hdests : ((rules.map (·.seen run)).map (·.dest)).Nodup := by
      rw [List.map_map]
      exact hapart
    have hwrites := filter_writes (append_keeps x) hdests (List.mem_map_of_mem hr)
    rw [← h.rules, ← hstepped.writes] at hwrites
    exact (r.append_grouped hpast).2.trans (congrArg (_ ++ ·.map some) hwrites.symm)

/-- So are the samples of an ascending run, one after the other. -/
theorem Streamed.appends (h : s.Streamed rules []) (hapart : (rules.map (·.dest)).Nodup)
    (hasc : Run.Ascending run) : ∃ owed : List (List BucketWrite),
      outcomes Series.append run s = owed.map .ok ∧
      (runAll Series.append run s).Streamed rules run ∧
      ∀ r ∈ rules, (owed.flatten.filter (·.dest == r.dest)).map some =
        (groups r.bucket run).dropLast.map r.owedFor := by
  induction run using List.reverseRecOn with
  | nil => exact ⟨[], rfl, h, fun r _ => rfl⟩
  | append_singleton run x ih =>
    obtain ⟨hrun, -, hpast⟩ := Run.ascending_append.mp hasc
    obtain ⟨owed, houtcomes, hstreamed, hwrites⟩ := ih hrun
    obtain ⟨writes, s', hstep, hstreamed', hmore⟩ := hstreamed.append hapart
      fun y hy => hpast y hy x List.mem_cons_self
    refine ⟨owed ++ [writes], ?_, ?_, fun r hr => ?_⟩
    · rw [outcomes_append, houtcomes, outcomes, outcome_of_ok hstep, List.map_append]
      rfl
    · have hlast : runAll Series.append (run ++ [x]) s = s' := by
        rw [runAll, List.foldl_append]
        exact stateAfter_of_ok hstep
      rwa [hlast]
    · rw [hmore r hr, ← hwrites r hr, List.flatten_append, List.flatten_singleton,
        List.filter_append, List.map_append]

/-- Downsampling sample by sample is grouping. An empty series of any retention, chunk size and
encoding, with any new rules into different destinations, takes every sample of an ascending run.
For each rule the writes that it has owed by then are one for each group of neighbours that share
a bucket, in their order and but for the last group: at the start of the bucket, with the aggregate
of the values of the group. They are made at later and later multiples of the bucket length, each
the start of a bucket that holds a sample. The rule is left with the last group. -/
theorem append_groups (key : String) (options : SeriesOptions) (source : Option String)
    (hrules : ∀ r ∈ rules, Rule.new r.dest r.aggregation r.bucket = .ok r)
    (hapart : (rules.map (·.dest)).Nodup) (hasc : Run.Ascending run) :
    let s := { new key options with source, rules }
    ∃ owed : List (List BucketWrite),
      outcomes append run s = owed.map .ok ∧
      (runAll append run s).rules = (rules.map fun r => { r with
        context := .ofList r.aggregation (((groups r.bucket run).getLast?.getD []).map (·.value))
        bucketStart := (groups r.bucket run).getLast?.map (groupStart r.bucket) }) ∧
      ∀ r ∈ rules,
        let writes := owed.flatten.filter (·.dest == r.dest)
        writes.map some = ((groups r.bucket run).dropLast.map fun group =>
          (Accumulator.ofList r.aggregation (group.map (·.value))).result?.map fun v =>
            ⟨r.dest, ⟨groupStart r.bucket group, v⟩⟩) ∧
        (writes.map (·.sample.timestamp)).Pairwise (· < ·) ∧
        ∀ w ∈ writes, r.bucket.toNat ∣ w.sample.timestamp.toNat ∧
          ∃ y ∈ run, windowStart y.timestamp r.bucket = w.sample.timestamp := by
  intro s
  obtain ⟨owed, houtcomes, hstreamed, hwrites⟩ :=
    (new_streamed key options source hrules).appends hapart hasc
  refine ⟨owed, houtcomes, hstreamed.rules, fun r hr => ?_⟩
  intro writes
  have hgroups : ∀ group ∈ (groups r.bucket run).dropLast, group ∈ groups r.bucket run :=
    fun _ hgroup => List.dropLast_subset _ hgroup
  have htimes : writes.map (·.sample.timestamp) = _ := Rule.timestamps_of_owedFor
    (fun group hgroup => List.ne_nil_of_mem_splitBy (hgroups group hgroup)) (hwrites r hr)
  refine ⟨hwrites r hr, ?_, fun w hw => ?_⟩
  · rw [htimes, List.map_dropLast]
    exact (pairwise_groupStart r.bucket hasc).sublist (List.dropLast_sublist _)
  · have hmem : w.sample.timestamp ∈ writes.map (·.sample.timestamp) := List.mem_map_of_mem hw
    rw [htimes] at hmem
    obtain ⟨group, hgroup, hstart⟩ := List.mem_map.mp hmem
    rw [← hstart]
    exact ⟨dvd_windowStart _ _, groupStart_mem (hgroups group hgroup)⟩

/-- A run with a gap up to the end of time, given to a series that keeps little and cuts its chunks
after one sample. -/
theorem append_groups_gap :
    let rules : List Rule :=
      [⟨"last", .last, 10, .start .last, none⟩, ⟨"first", .first, 100, .start .first, none⟩]
    let run : List Sample :=
      [⟨3, ⟨1⟩⟩, ⟨7, ⟨2⟩⟩, ⟨10, ⟨3⟩⟩, ⟨0xffffffffffffffff, ⟨4⟩⟩]
    let options : SeriesOptions := { chunkSize := 16, retention := 2, encoding := .plain }
    ((∀ r ∈ rules, Rule.new r.dest r.aggregation r.bucket = .ok r) ∧
      (rules.map (·.dest)).Nodup ∧ Run.Ascending run) ∧
      ∃ owed : List (List BucketWrite),
        outcomes append run { new "s" options with rules } = owed.map .ok ∧
          (owed.flatten.filter (·.dest == "last")).map some =
            [some ⟨"last", ⟨0, ⟨2⟩⟩⟩, some ⟨"last", ⟨10, ⟨3⟩⟩⟩] := by
  intro rules run options
  have hrules : ∀ r ∈ rules, Rule.new r.dest r.aggregation r.bucket = .ok r := by decide
  have hapart : (rules.map (·.dest)).Nodup := by decide
  have hasc : Run.Ascending run := by unfold Run.Ascending; decide
  obtain ⟨owed, houtcomes, -, hwrites⟩ := append_groups "s" options none hrules hapart hasc
  refine ⟨⟨hrules, hapart, hasc⟩, owed, houtcomes, ?_⟩
  exact (hwrites _ List.mem_cons_self).1.trans (by decide +kernel)

end Series

end SeriesStore
