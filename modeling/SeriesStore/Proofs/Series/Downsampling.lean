import SeriesStore.Proofs.Buckets
import SeriesStore.Proofs.Series.Changes

/-!
# Downsampling follows the run

A rule follows a run where its open bucket is the one of the last sample and its
context holds the samples of that bucket. A destination is downsampled from a run
where it holds exactly the closed buckets, each with the aggregate of its samples.
A change of the run, what the rule does about it and what is then delivered keep
both.

Results:
1. `append_follows`: the step of a rule for a sample past the end.
2. `revise_follows`: the step of a rule for any other sample.
-/

namespace SeriesStore

variable {aggregation : Aggregation} {length b c : UInt64} {run run' dest dest' : List Sample}
  {x : Sample} {v : Value}

/-! ## Closed buckets -/

/-- A bucket that holds samples and lies before the bucket of the last sample. -/
structure Closed (length start : UInt64) (run : List Sample) : Prop where
  aligned : length.toNat ∣ start.toNat
  before : start < windowStart (Run.lastTimestamp run) length
  nonempty : bucketOf start length run ≠ []

/-- The destination holds one sample for each closed bucket: its start and what
its samples amount to. -/
structure Downsampled (aggregation : Aggregation) (length : UInt64) (run dest : List Sample) :
    Prop where
  ascending : Run.Ascending dest
  starts : ∀ start, (∃ v, ⟨start, v⟩ ∈ dest) ↔ Closed length start run
  values : ∀ y ∈ dest, bucketValue aggregation length y.timestamp run = some y.value

/-- What a write that is owed does to a destination. -/
inductive Delivered : Option BucketWrite → List Sample → List Sample → Prop
  | none (dest : List Sample) : Delivered none dest dest
  | some {dest dest' : List Sample} (w : BucketWrite) : Run.Ascending dest' →
      (∀ y : Sample, y ∈ dest' ↔ y = w.sample ∨ y.timestamp ≠ w.sample.timestamp ∧ y ∈ dest) →
      Delivered (some w) dest dest'

/-- There is only one way to be downsampled from a run. -/
theorem Downsampled.unique (h : Downsampled aggregation length run dest)
    (h' : Downsampled aggregation length run dest') : dest = dest' := by
  have hmem : ∀ {dest dest' : List Sample}, Downsampled aggregation length run dest →
      Downsampled aggregation length run dest' → ∀ y ∈ dest, y ∈ dest' := by
    intro dest dest' h h' y hy
    obtain ⟨v, hv⟩ := (h'.starts y.timestamp).mpr ((h.starts y.timestamp).mp ⟨y.value, hy⟩)
    have hvalue : some y.value = some v := (h.values y hy).symm.trans (h'.values ⟨_, v⟩ hv)
    cases hvalue
    exact hv
  exact h.ascending.ext h'.ascending fun y => ⟨hmem h h' y, hmem h' h y⟩

theorem Downsampled.empty : Downsampled aggregation length [] [] := by
  refine ⟨.nil, fun start => ⟨?_, fun h => ?_⟩, by simp⟩
  · rintro ⟨v, hv⟩
    cases hv
  · exact absurd rfl h.nonempty

/-- Nothing is to be delivered where the closed buckets stay as they are. -/
theorem Downsampled.same (h : Downsampled aggregation length run dest)
    (hclosed : ∀ b, Closed length b run' ↔ Closed length b run)
    (hbucket : ∀ b, Closed length b run → bucketOf b length run' = bucketOf b length run) :
    Downsampled aggregation length run' dest := by
  refine ⟨h.ascending, fun start => (h.starts start).trans (hclosed start).symm, fun y hy => ?_⟩
  unfold bucketValue
  rw [hbucket _ ((h.starts y.timestamp).mp ⟨y.value, hy⟩)]
  exact h.values y hy

/-- One bucket is to be delivered where the others stay as they are. -/
theorem Downsampled.deliver (h : Downsampled aggregation length run dest) {w : BucketWrite}
    (hd : Delivered (some w) dest dest') (hc : Closed length w.sample.timestamp run')
    (hvalue : bucketValue aggregation length w.sample.timestamp run' = some w.sample.value)
    (hclosed : ∀ b, b ≠ w.sample.timestamp → (Closed length b run' ↔ Closed length b run))
    (hbucket : ∀ b, b ≠ w.sample.timestamp → Closed length b run →
      bucketOf b length run' = bucketOf b length run) :
    Downsampled aggregation length run' dest' := by
  cases hd with
  | some w hasc hmem =>
  refine ⟨hasc, fun start => ?_, fun y hy => ?_⟩
  · by_cases heq : start = w.sample.timestamp
    · subst heq
      exact ⟨fun _ => hc, fun _ => ⟨w.sample.value, (hmem _).mpr (.inl rfl)⟩⟩
    · rw [hclosed start heq, ← h.starts start]
      constructor
      · rintro ⟨v, hv⟩
        rcases (hmem _).mp hv with hw | ⟨-, hv⟩
        · exact absurd (congrArg Sample.timestamp hw) heq
        · exact ⟨v, hv⟩
      · rintro ⟨v, hv⟩
        exact ⟨v, (hmem _).mpr (.inr ⟨heq, hv⟩)⟩
  · rcases (hmem y).mp hy with rfl | ⟨hne, hy⟩
    · exact hvalue
    · unfold bucketValue
      rw [hbucket _ hne ((h.starts y.timestamp).mp ⟨y.value, hy⟩)]
      exact h.values y hy

/-! ## Samples past the end -/

/-- Only the bucket of a sample past the end gains it. -/
theorem bucketOf_concat (hlength : length ≠ 0) (hb : length.toNat ∣ b.toNat) (run : List Sample)
    (hne : windowStart x.timestamp length ≠ b) :
    bucketOf b length (run ++ [x]) = bucketOf b length run := by
  rw [bucketOf_eq hlength hb, bucketOf_eq hlength hb, List.filter_append]
  simp [hne]

/-- A bucket that holds samples does not begin past the last of them. -/
theorem start_le_last (hlength : length ≠ 0) (hb : length.toNat ∣ b.toNat)
    (hasc : Run.Ascending run) (hne : bucketOf b length run ≠ []) :
    b ≤ windowStart (Run.lastTimestamp run) length := by
  obtain ⟨y, hy⟩ := List.exists_mem_of_ne_nil _ hne
  rw [bucketOf_eq hlength hb, List.mem_filter, decide_eq_true_eq] at hy
  rw [← hy.2]
  exact windowStart_mono length (hasc.le_lastTimestamp hy.1)

/-- The bucket of a sample past the end is not before that of the last sample. -/
theorem last_le_start (hpast : ∀ y ∈ run, y.timestamp < x.timestamp) (hne : run ≠ []) :
    windowStart (Run.lastTimestamp run) length ≤ windowStart x.timestamp length := by
  obtain ⟨y, hy, hlast⟩ := Run.lastTimestamp_mem hne
  rw [← hlast]
  exact windowStart_mono length (UInt64.le_of_lt (hpast y hy))

/-- A sample past the end closes no bucket but that of the last sample before it. -/
theorem closed_concat (hlength : length ≠ 0) (hasc : Run.Ascending run)
    (hpast : ∀ y ∈ run, y.timestamp < x.timestamp)
    (hb : run ≠ [] → b ≠ windowStart (Run.lastTimestamp run) length ∨
      windowStart x.timestamp length = windowStart (Run.lastTimestamp run) length) :
    Closed length b (run ++ [x]) ↔ Closed length b run := by
  constructor
  · rintro ⟨haligned, hbefore, hne⟩
    rw [Run.lastTimestamp_concat] at hbefore
    rw [bucketOf_concat hlength haligned _ (UInt64.ne_of_lt hbefore).symm] at hne
    refine ⟨haligned, ?_, hne⟩
    rcases hb fun hnil => hne (by rw [hnil]; rfl) with hb | hsame
    · exact UInt64.lt_of_le_of_ne (start_le_last hlength haligned hasc hne) hb
    · exact hsame ▸ hbefore
  · rintro ⟨haligned, hbefore, hne⟩
    have hrun : run ≠ [] := fun hnil => hne (by rw [hnil]; rfl)
    have hlt := UInt64.lt_of_lt_of_le hbefore (last_le_start hpast hrun)
    refine ⟨haligned, by rwa [Run.lastTimestamp_concat], ?_⟩
    rwa [bucketOf_concat hlength haligned _ (UInt64.ne_of_lt hlt).symm]

/-- The samples from the start of the last bucket on are those of the bucket. -/
theorem open_eq_bucketOf (hlength : length ≠ 0) (hasc : Run.Ascending run) :
    run.filter (windowStart (Run.lastTimestamp run) length ≤ ·.timestamp) =
      bucketOf (windowStart (Run.lastTimestamp run) length) length run := by
  rw [bucketOf_eq hlength (dvd_windowStart _ _)]
  apply List.filter_congr
  intro y hy
  rw [decide_eq_decide]
  exact ⟨fun hge => windowStart_eq_of_le hge (hasc.le_lastTimestamp hy),
    fun heq => heq ▸ windowStart_le _ _⟩

/-! ## Samples inside the run -/

/-- The bucket of `t` is renewed in a run from the samples that are stored; the other
buckets and the last sample stay as they are. -/
structure Renewed (length : UInt64) (t : Timestamp) (stored run run' : List Sample) : Prop where
  ascending : Run.Ascending run'
  own : ∀ y : Sample, windowStart y.timestamp length = windowStart t length →
    (y ∈ run' ↔ y ∈ stored)
  others : ∀ y : Sample, windowStart y.timestamp length ≠ windowStart t length →
    (y ∈ run' ↔ y ∈ run)
  last : Run.lastTimestamp run' = Run.lastTimestamp run

section Renewed

variable {t : Timestamp} {stored : List Sample}

theorem Renewed.bucketOf_own (h : Renewed length t stored run run') (hlength : length ≠ 0)
    (hstored : Run.Ascending stored) :
    bucketOf (windowStart t length) length run' =
      bucketOf (windowStart t length) length stored := by
  have haligned := dvd_windowStart t length
  rw [bucketOf_eq hlength haligned, bucketOf_eq hlength haligned]
  exact hstored.filter_eq h.ascending fun y hy => h.own y (of_decide_eq_true hy)

theorem Renewed.bucketOf_others (h : Renewed length t stored run run') (hlength : length ≠ 0)
    (hb : length.toNat ∣ b.toNat) (hasc : Run.Ascending run) (hne : b ≠ windowStart t length) :
    bucketOf b length run' = bucketOf b length run := by
  rw [bucketOf_eq hlength hb, bucketOf_eq hlength hb]
  refine hasc.filter_eq h.ascending fun y hy => h.others y ?_
  rw [of_decide_eq_true hy]
  exact hne

theorem Renewed.closed_others (h : Renewed length t stored run run') (hlength : length ≠ 0)
    (hasc : Run.Ascending run) (hne : b ≠ windowStart t length) :
    Closed length b run' ↔ Closed length b run := by
  have hbucket := fun hb : length.toNat ∣ b.toNat => h.bucketOf_others hlength hb hasc hne
  exact ⟨fun ⟨hb, hbefore, hfull⟩ => ⟨hb, h.last ▸ hbefore, hbucket hb ▸ hfull⟩,
    fun ⟨hb, hbefore, hfull⟩ => ⟨hb, h.last.symm ▸ hbefore, (hbucket hb).symm ▸ hfull⟩⟩

end Renewed

/-! ## Rules -/

namespace Rule

/-- The open bucket is the one of the last sample, and the context holds its
samples. -/
structure Follows (r : Rule) (run : List Sample) : Prop where
  start : r.bucketStart = run.getLast?.map (windowStart ·.timestamp r.bucket)
  context : r.context = .ofList r.aggregation
    ((run.filter (windowStart (Run.lastTimestamp run) r.bucket ≤ ·.timestamp)).map (·.value))

variable {r : Rule}

theorem append_open (h : ¬ windowStart x.timestamp r.bucket >
    r.bucketStart.getD (windowStart x.timestamp r.bucket)) :
    r.append x = ({ r with
      context := r.context.add x.value
      bucketStart := some (r.bucketStart.getD (windowStart x.timestamp r.bucket)) }, none) := by
  unfold append
  simp only [if_neg h]

theorem append_past (h : windowStart x.timestamp r.bucket >
    r.bucketStart.getD (windowStart x.timestamp r.bucket)) :
    r.append x = ({ r with
      context := r.context.reset.add x.value
      bucketStart := some (windowStart x.timestamp r.bucket) },
      r.owed (r.bucketStart.getD (windowStart x.timestamp r.bucket)) r.current?) := by
  unfold append
  simp only [if_pos h]

theorem getLast?_start (hne : run ≠ []) :
    run.getLast?.map (windowStart ·.timestamp length) =
      some (windowStart (Run.lastTimestamp run) length) := by
  obtain ⟨front, y, hrun⟩ := (List.eq_nil_or_concat run).resolve_left hne
  rw [hrun, List.concat_eq_append, Run.lastTimestamp_concat]
  simp

theorem Follows.bucketStart_eq (h : r.Follows run) (hne : run ≠ []) :
    r.bucketStart = some (windowStart (Run.lastTimestamp run) r.bucket) := by
  rw [h.start, getLast?_start hne]

/-- The samples from the start of the last bucket on, once the run ends with
another sample. -/
theorem open_concat (run : List Sample) (x : Sample) (length : UInt64) :
    (run ++ [x]).filter
        (windowStart (Run.lastTimestamp (run ++ [x])) length ≤ ·.timestamp) =
      run.filter (windowStart x.timestamp length ≤ ·.timestamp) ++ [x] := by
  rw [Run.lastTimestamp_concat, List.filter_append]
  simp [windowStart_le]

/-- No sample of a run lies in a later bucket than the last one. -/
theorem filter_later (hasc : Run.Ascending run)
    (hlt : windowStart (Run.lastTimestamp run) length < windowStart x.timestamp length) :
    run.filter (windowStart x.timestamp length ≤ ·.timestamp) = [] := by
  apply List.filter_eq_nil_iff.mpr
  intro y hy
  rw [decide_eq_true_eq, UInt64.not_le]
  apply UInt64.not_le.mp
  intro hge
  have hmono := windowStart_mono length (hasc.le_lastTimestamp hy)
  have hback := windowStart_mono length hge
  rw [windowStart_idem] at hback
  exact UInt64.lt_irrefl _ (UInt64.lt_of_lt_of_le hlt (UInt64.le_trans hback hmono))

/-- The step for a sample in the open bucket, or the first one of all. -/
theorem Follows.append_open (hf : r.Follows run) (hsame : run ≠ [] →
      windowStart x.timestamp r.bucket = windowStart (Run.lastTimestamp run) r.bucket) :
    r.append x = ({ r with
      context := r.context.add x.value
      bucketStart := some (windowStart x.timestamp r.bucket) }, none) := by
  have hstart : r.bucketStart.getD (windowStart x.timestamp r.bucket) =
      windowStart x.timestamp r.bucket := by
    by_cases hne : run = []
    · rw [hf.start, hne]
      rfl
    · rw [hf.bucketStart_eq hne, ← hsame hne]
      rfl
  rw [Rule.append_open (by rw [hstart]; exact UInt64.lt_irrefl _), hstart]

/-- The step for a sample past the open bucket, which closes it. -/
theorem Follows.append_past (hf : r.Follows run) (hne : run ≠ [])
    (hlt : windowStart (Run.lastTimestamp run) r.bucket < windowStart x.timestamp r.bucket) :
    r.append x = ({ r with
      context := r.context.reset.add x.value
      bucketStart := some (windowStart x.timestamp r.bucket) },
      r.owed (windowStart (Run.lastTimestamp run) r.bucket) r.current?) := by
  have hstart := hf.bucketStart_eq hne
  rw [Rule.append_past (by rw [hstart]; exact hlt), hstart]
  rfl

/-- A sample past the end is in the open bucket, or past it. -/
theorem open_or_past (length : UInt64) (hpast : ∀ y ∈ run, y.timestamp < x.timestamp) :
    (run ≠ [] → windowStart x.timestamp length = windowStart (Run.lastTimestamp run) length) ∨
      run ≠ [] ∧ windowStart (Run.lastTimestamp run) length < windowStart x.timestamp length := by
  by_cases hsame : run ≠ [] → windowStart x.timestamp length =
      windowStart (Run.lastTimestamp run) length
  · exact .inl hsame
  · obtain ⟨hne, hdiff⟩ := Classical.not_imp.mp hsame
    exact .inr ⟨hne, UInt64.lt_of_le_of_ne (last_le_start hpast hne) (Ne.symm hdiff)⟩

/-- A rule goes on following a run that is given one more sample. -/
theorem Follows.append (hf : r.Follows run) (hasc : Run.Ascending run)
    (hpast : ∀ y ∈ run, y.timestamp < x.timestamp) : (r.append x).1.Follows (run ++ [x]) := by
  rcases open_or_past r.bucket hpast with hsame | ⟨hne, hlt⟩
  · have hopen : run.filter (windowStart x.timestamp r.bucket ≤ ·.timestamp) =
        run.filter (windowStart (Run.lastTimestamp run) r.bucket ≤ ·.timestamp) := by
      by_cases hne : run = []
      · rw [hne, List.filter_nil, List.filter_nil]
      · rw [hsame hne]
    rw [hf.append_open hsame]
    refine ⟨by rw [List.getLast?_concat]; rfl, ?_⟩
    rw [open_concat, hopen, List.map_append, List.map_singleton, Accumulator.ofList_concat,
      ← hf.context]
  · rw [hf.append_past hne hlt]
    refine ⟨by rw [List.getLast?_concat]; rfl, ?_⟩
    rw [open_concat, filter_later hasc hlt, hf.context, Accumulator.reset_ofList]
    rfl

/-- A sample in the open bucket, or the first one of all, closes nothing. -/
theorem append_downsampled_open (hlength : r.bucket ≠ 0) (hf : r.Follows run)
    (hasc : Run.Ascending run) (hpast : ∀ y ∈ run, y.timestamp < x.timestamp)
    (hsame : run ≠ [] → windowStart x.timestamp r.bucket =
      windowStart (Run.lastTimestamp run) r.bucket)
    (hd : Downsampled r.aggregation r.bucket run dest)
    (hdel : Delivered (r.append x).2 dest dest') :
    Downsampled r.aggregation r.bucket (run ++ [x]) dest' := by
  rw [hf.append_open hsame] at hdel
  cases hdel
  refine hd.same (fun b => ?_) fun b hb => ?_
  · exact closed_concat hlength hasc hpast fun hne => .inr (hsame hne)
  · have hbefore := (closed_concat hlength hasc hpast fun hne => .inr (hsame hne)).mpr hb |>.before
    rw [Run.lastTimestamp_concat] at hbefore
    exact bucketOf_concat hlength hb.aligned run (UInt64.ne_of_lt hbefore).symm

/-- A sample past the open bucket closes it. -/
theorem append_downsampled_past (hlength : r.bucket ≠ 0) (hf : r.Follows run)
    (hasc : Run.Ascending run) (hpast : ∀ y ∈ run, y.timestamp < x.timestamp) (hne : run ≠ [])
    (hlt : windowStart (Run.lastTimestamp run) r.bucket < windowStart x.timestamp r.bucket)
    (hd : Downsampled r.aggregation r.bucket run dest)
    (hdel : Delivered (r.append x).2 dest dest') :
    Downsampled r.aggregation r.bucket (run ++ [x]) dest' := by
  have hvalue : r.current? =
      bucketValue r.aggregation r.bucket (windowStart (Run.lastTimestamp run) r.bucket) run := by
    unfold current?
    rw [hf.context, open_eq_bucketOf hlength hasc]
    rfl
  have haligned := dvd_windowStart (Run.lastTimestamp run) r.bucket
  have hkept := bucketOf_concat hlength haligned run (UInt64.ne_of_lt hlt).symm
  have hfilled : bucketOf (windowStart (Run.lastTimestamp run) r.bucket) r.bucket run ≠ [] := by
    obtain ⟨y, hy, hlast⟩ := Run.lastTimestamp_mem hne
    refine List.ne_nil_of_mem (a := y) ?_
    rw [bucketOf_eq hlength haligned, List.mem_filter]
    exact ⟨hy, by simp [hlast]⟩
  obtain ⟨v, hv⟩ := Option.ne_none_iff_exists'.mp (mt bucketValue_eq_none.mp hfilled)
  rw [hf.append_past hne hlt, hvalue, hv] at hdel
  have hclosed : ∀ b, b ≠ windowStart (Run.lastTimestamp run) r.bucket →
      (Closed r.bucket b (run ++ [x]) ↔ Closed r.bucket b run) := fun b hb =>
    closed_concat hlength hasc hpast fun _ => .inl hb
  refine hd.deliver hdel ⟨haligned, ?_, ?_⟩ ?_ hclosed fun b hb hbc => ?_
  · rw [Run.lastTimestamp_concat]
    exact hlt
  · show bucketOf (windowStart (Run.lastTimestamp run) r.bucket) r.bucket _ ≠ []
    rwa [hkept]
  · show bucketValue _ _ (windowStart (Run.lastTimestamp run) r.bucket) _ = some v
    unfold bucketValue
    rw [hkept]
    exact hv
  · have hbefore := ((hclosed b hb).mpr hbc).before
    rw [Run.lastTimestamp_concat] at hbefore
    exact bucketOf_concat hlength hbc.aligned run (UInt64.ne_of_lt hbefore).symm

/-- A rule takes a sample past the end. -/
theorem append_follows (hlength : r.bucket ≠ 0) (hf : r.Follows run) (hasc : Run.Ascending run)
    (hpast : ∀ y ∈ run, y.timestamp < x.timestamp)
    (hd : Downsampled r.aggregation r.bucket run dest)
    (hdel : Delivered (r.append x).2 dest dest') :
    (r.append x).1.Follows (run ++ [x]) ∧
      Downsampled r.aggregation r.bucket (run ++ [x]) dest' := by
  refine ⟨hf.append hasc hpast, ?_⟩
  rcases open_or_past r.bucket hpast with hsame | ⟨hne, hlt⟩
  · exact append_downsampled_open hlength hf hasc hpast hsame hd hdel
  · exact append_downsampled_past hlength hf hasc hpast hne hlt hd hdel

/-! ### Samples inside the run -/

section Revise

variable {read : Timestamp → Timestamp → Except StoreError (List Sample)}

theorem revise_open {samples : List Sample} {last t : Timestamp}
    (h : t ≥ windowStart last r.bucket)
    (hread : read (windowStart last r.bucket) .latest = .ok samples)
    (hstart : r.bucketStart = none ∨ r.bucketStart = some (windowStart last r.bucket)) :
    r.revise read last t = ({ r with
      context := .ofList r.aggregation (samples.map (·.value))
      bucketStart := some (windowStart last r.bucket) }, none) := by
  have hfilter : r.bucketStart.filter (· < windowStart last r.bucket) = none := by
    rcases hstart with hstart | hstart <;> simp [hstart]
  simp only [revise, if_pos h, hread, hfilter, Option.bind_none]

theorem revise_closed {samples : List Sample} {last t : Timestamp}
    (h : ¬ t ≥ windowStart last r.bucket)
    (hread : read (windowStart t r.bucket) (windowEnd (windowStart t r.bucket) r.bucket) =
      .ok samples) :
    r.revise read last t = (r, r.owed (windowStart t r.bucket)
      (Accumulator.ofList r.aggregation (samples.map (·.value))).result?) := by
  unfold revise
  simp only [if_neg h, hread]

section Renewed

variable {stored : List Sample} (hlength : r.bucket ≠ 0) (hf : r.Follows run)
  (hasc : Run.Ascending run) (hstored : Run.Ascending stored) (hne : run ≠ []) (hx : x ∈ stored)
  (h : Renewed r.bucket x.timestamp stored run run')
  (hlast : Run.lastTimestamp stored = Run.lastTimestamp run)
  (hread : ∀ low high,
    read low high = .ok (stored.filter (({ low, high } : Span).holds ·.timestamp)))

include hlength hf hasc hstored hne hx h hlast hread

/-- A rule goes on following a run in which one bucket is renewed. What it reads of that bucket
is what is stored of it. -/
theorem Follows.revise :
    (r.revise read (Run.lastTimestamp stored) x.timestamp).1.Follows run' := by
  have hne' : run' ≠ [] := List.ne_nil_of_mem ((h.own x rfl).mpr hx)
  have hend : Run.lastTimestamp stored = Run.lastTimestamp run' := hlast.trans h.last.symm
  have hstart := hf.bucketStart_eq hne
  rw [← h.last] at hstart
  by_cases hopen : x.timestamp ≥ windowStart (Run.lastTimestamp stored) r.bucket
  · rw [revise_open hopen (hread _ _) (.inr (hend ▸ hstart))]
    have hsame := windowStart_eq_of_le hopen (hstored.le_lastTimestamp hx)
    refine ⟨?_, ?_⟩
    · rw [hend]
      exact (getLast?_start hne').symm
    · rw [span_open, open_eq_bucketOf hlength hstored, open_eq_bucketOf hlength h.ascending,
        ← hend, ← hsame, h.bucketOf_own hlength hstored]
  · have hbefore := UInt64.not_le.mp hopen
    rw [hend] at hbefore
    rw [revise_closed hopen (hread _ _)]
    refine ⟨by rw [hstart, getLast?_start hne'], ?_⟩
    rw [hf.context, h.last]
    refine congrArg _ (congrArg _ (hasc.filter_eq h.ascending fun y hy => h.others y ?_)).symm
    -- A sample of the open bucket is in another bucket than the written one.
    intro heq
    have hopen' := windowStart_mono r.bucket (of_decide_eq_true hy)
    rw [windowStart_idem, heq] at hopen'
    exact absurd (UInt64.le_trans hopen' (windowStart_le _ _))
      (UInt64.not_le.mpr (h.last ▸ hbefore))

/-- What a rule owes for such a write keeps its destination downsampled. -/
theorem revise_downsampled (hd : Downsampled r.aggregation r.bucket run dest)
    (hdel : Delivered (r.revise read (Run.lastTimestamp stored) x.timestamp).2 dest dest') :
    Downsampled r.aggregation r.bucket run' dest' := by
  have hx' : x ∈ run' := (h.own x rfl).mpr hx
  have hend : Run.lastTimestamp stored = Run.lastTimestamp run' := hlast.trans h.last.symm
  have hstart := hf.bucketStart_eq hne
  rw [← h.last] at hstart
  have hown := h.bucketOf_own hlength hstored
  by_cases hopen : x.timestamp ≥ windowStart (Run.lastTimestamp stored) r.bucket
  · rw [revise_open hopen (hread _ _) (.inr (hend ▸ hstart))] at hdel
    cases hdel
    -- The write is in the open bucket, which is not closed before or after it.
    have hsame := windowStart_eq_of_le hopen (hstored.le_lastTimestamp hx)
    have hother : ∀ b, b < windowStart (Run.lastTimestamp run') r.bucket →
        b ≠ windowStart x.timestamp r.bucket := fun b hb =>
      UInt64.ne_of_lt (hsame ▸ hend ▸ hb)
    refine hd.same (fun b => ?_) fun b hb => ?_
    · constructor
      · intro hb
        exact (h.closed_others hlength hasc (hother b hb.before)).mp hb
      · intro hb
        exact (h.closed_others hlength hasc (hother b (h.last.symm ▸ hb.before))).mpr hb
    · exact h.bucketOf_others hlength hb.aligned hasc (hother b (h.last.symm ▸ hb.before))
  · have hbefore := UInt64.not_le.mp hopen
    rw [hend] at hbefore
    have haligned := dvd_windowStart x.timestamp r.bucket
    have hfilled : bucketOf (windowStart x.timestamp r.bucket) r.bucket run' ≠ [] := by
      refine List.ne_nil_of_mem (a := x) ?_
      rw [bucketOf_eq hlength haligned, List.mem_filter]
      exact ⟨hx', by simp⟩
    obtain ⟨v, hv⟩ := Option.ne_none_iff_exists'.mp (mt bucketValue_eq_none.mp hfilled)
    have hrevise := revise_closed hopen (hread _ _)
    rw [span_bucket _ hlength, ← hown, show Accumulator.result? _ = some v from hv] at hrevise
    rw [hrevise] at hdel
    have hclosed : ∀ b, b ≠ windowStart x.timestamp r.bucket →
        (Closed r.bucket b run' ↔ Closed r.bucket b run) := fun b hb =>
      h.closed_others hlength hasc hb
    refine hd.deliver hdel ⟨haligned, ?_, hfilled⟩ hv hclosed fun b hb hbc => ?_
    · exact UInt64.lt_of_le_of_lt (windowStart_le _ _) hbefore
    · exact h.bucketOf_others hlength hbc.aligned hasc hb

/-- A rule takes a write into account that is not past the end. -/
theorem revise_follows (hd : Downsampled r.aggregation r.bucket run dest)
    (hdel : Delivered (r.revise read (Run.lastTimestamp stored) x.timestamp).2 dest dest') :
    (r.revise read (Run.lastTimestamp stored) x.timestamp).1.Follows run' ∧
      Downsampled r.aggregation r.bucket run' dest' :=
  ⟨hf.revise hlength hasc hstored hne hx h hlast hread,
    revise_downsampled hlength hf hasc hstored hne hx h hlast hread hd hdel⟩

end Renewed

end Revise

end Rule

end SeriesStore
