import SeriesStore.Proofs.Series.Rules

/-!
# Writing a sample again

A sample that is written again is in the run already. The rules of its series look at its
bucket once more, and where that is the open one they read it from what is stored. A rule that
follows the run finds what it held before. Only a rule that was made in the middle of the open
bucket finds more, the samples from before it was made; once it has read them it follows the
run, too.

Results:
1. `Known.append`, `Known.revise`: a rule goes on following the run, or being behind it.
2. `Known.append_again`, `revise_again`: what a rule finds when it looks at a bucket again.
3. `Change.known`, `Change.again`: all rules of a series when a sample is written, and when
   it is written again.
-/

namespace SeriesStore

variable {run stored : List Sample} {x : Sample} {since : Option Timestamp}

namespace Rule

variable {r : Rule}

/-- The rule was made when the source held a sample of the open bucket, and has not read that
bucket since. -/
structure Behind (r : Rule) (since : Option Timestamp) (run : List Sample) : Prop where
  nonempty : run ≠ []
  begun : ∃ t, since = some t ∧
    windowStart t r.bucket = windowStart (Run.lastTimestamp run) r.bucket
  state : ∃ values, r.context = .ofList r.aggregation values ∧
    (r.bucketStart = none ∧ values = [] ∨
      r.bucketStart = some (windowStart (Run.lastTimestamp run) r.bucket))

/-- The rule follows the run, or it was made in the middle of the open bucket. The last sample
of the run was at `since` when the rule was made. -/
def Known (r : Rule) (since : Option Timestamp) (run : List Sample) : Prop :=
  r.Follows run ∨ r.Behind since run

theorem Known.into (h : r.Known since run) (dest : String) :
    Known { r with dest } since run := by
  rcases h with h | h
  · exact .inl ⟨h.start, h.context⟩
  · exact .inr ⟨h.nonempty, h.begun, h.state⟩

/-- The open bucket is that of the last sample. -/
theorem Known.start_cases (h : r.Known since run) : r.bucketStart = none ∨
    r.bucketStart = some (windowStart (Run.lastTimestamp run) r.bucket) := by
  rcases h with h | h
  · by_cases hne : run = []
    · rw [h.start, hne]
      exact .inl rfl
    · exact .inr (h.bucketStart_eq hne)
  · obtain ⟨values, -, ⟨hnone, -⟩ | hstart⟩ := h.state
    · exact .inl hnone
    · exact .inr hstart

/-! ## Samples past the end -/

theorem append_start_ne_none (r : Rule) (x : Sample) : (r.append x).1.bucketStart ≠ none := by
  simp only [append]
  split <;> simp

/-- A sample in the open bucket leaves a rule behind. -/
theorem Behind.append_open (h : r.Behind since run) (hsame : windowStart x.timestamp r.bucket =
    windowStart (Run.lastTimestamp run) r.bucket) :
    (r.append x).1.Behind since (run ++ [x]) := by
  obtain ⟨t, hsince, ht⟩ := h.begun
  obtain ⟨values, hcontext, hstate⟩ := h.state
  have hstart : r.bucketStart.getD (windowStart x.timestamp r.bucket) =
      windowStart x.timestamp r.bucket := by
    rcases hstate with ⟨hnone, -⟩ | hsome
    · rw [hnone]
      rfl
    · rw [hsome, hsame]
      rfl
  rw [Rule.append_open (by rw [hstart]; exact UInt64.lt_irrefl _), hstart]
  refine ⟨by simp, ⟨t, hsince, ?_⟩, values ++ [x.value], ?_, .inr ?_⟩
  · rw [Run.lastTimestamp_concat, hsame]
    exact ht
  · rw [Accumulator.ofList_concat, ← hcontext]
  · rw [Run.lastTimestamp_concat]

/-- A sample past the open bucket opens one that the rule has seen from the start. -/
theorem Behind.append_past (h : r.Behind since run) (hasc : Run.Ascending run)
    (hlt : windowStart (Run.lastTimestamp run) r.bucket < windowStart x.timestamp r.bucket) :
    (r.append x).1.Follows (run ++ [x]) := by
  obtain ⟨values, hcontext, hstate⟩ := h.state
  have hstep : (r.append x).1 = { r with
      context := .ofList r.aggregation [x.value]
      bucketStart := some (windowStart x.timestamp r.bucket) } := by
    rcases hstate with ⟨hnone, hnil⟩ | hsome
    · have hstart : r.bucketStart.getD (windowStart x.timestamp r.bucket) =
          windowStart x.timestamp r.bucket := by
        rw [hnone]
        rfl
      rw [Rule.append_open (by rw [hstart]; exact UInt64.lt_irrefl _), hstart, hcontext, hnil]
      rfl
    · rw [Rule.append_past (by rw [hsome]; exact hlt), hcontext, Accumulator.reset_ofList]
      rfl
  rw [hstep]
  refine ⟨by rw [List.getLast?_concat]; rfl, ?_⟩
  rw [open_concat, filter_later hasc hlt]
  rfl

theorem Known.append (h : r.Known since run) (hasc : Run.Ascending run)
    (hpast : ∀ y ∈ run, y.timestamp < x.timestamp) : (r.append x).1.Known since (run ++ [x]) := by
  rcases h with h | h
  · exact .inl (h.append hasc hpast)
  rcases open_or_past r.bucket hpast with hsame | ⟨-, hlt⟩
  · exact .inr (h.append_open (hsame h.nonempty))
  · exact .inl (h.append_past hasc hlt)

/-! ## Samples inside the run -/

section Revise

variable {read : Timestamp → Timestamp → Except StoreError (List Sample)}

/-- A rule that was behind has read the open bucket, or it has looked at another one. -/
theorem Known.revise (hlength : r.bucket ≠ 0) (h : r.Known since run) (hasc : Run.Ascending run)
    (hstored : Run.Ascending stored) (hne : run ≠ []) (hx : x ∈ stored)
    (hothers : ∀ y : Sample, y.timestamp ≠ x.timestamp → (y ∈ stored ↔ y ∈ run))
    (hlast : Run.lastTimestamp stored = Run.lastTimestamp run)
    (hread : ∀ low high,
      read low high = .ok (stored.filter (({ low, high } : Span).holds ·.timestamp))) :
    (r.revise read (Run.lastTimestamp stored) x.timestamp).1.Known since stored := by
  have hstart := h.start_cases
  rcases h with h | h
  · have hrenewed : Renewed r.bucket x.timestamp stored run stored :=
      ⟨hstored, fun _ _ => .rfl, fun y hy => hothers y fun heq => hy (by rw [heq]), hlast⟩
    exact .inl (h.revise hlength hasc hstored hne hx hrenewed hlast hread)
  rw [← hlast] at hstart
  have hne' := List.ne_nil_of_mem hx
  by_cases hopen : x.timestamp ≥ windowStart (Run.lastTimestamp stored) r.bucket
  · rw [revise_open hopen (hread _ _) hstart]
    refine .inl ⟨(getLast?_start hne').symm, ?_⟩
    rw [span_open]
  · rw [revise_closed hopen (hread _ _)]
    have hbegun := h.begun
    have hstate := h.state
    rw [← hlast] at hbegun hstate
    exact .inr ⟨hne', hbegun, hstate⟩

/-- A rule that has looked at a bucket finds the same there when it looks again. What it owes
for that it has been owed before. -/
theorem revise_again (r : Rule)
    (read : Timestamp → Timestamp → Except StoreError (List Sample)) (last t : Timestamp) :
    ((r.revise read last t).1.revise read last t).1 = (r.revise read last t).1 ∧
      (((r.revise read last t).1.revise read last t).2 = none ∨
        ((r.revise read last t).1.revise read last t).2 = (r.revise read last t).2) := by
  by_cases hopen : t ≥ windowStart last r.bucket
  · cases hread : read (windowStart last r.bucket) .latest with
    | error e =>
      have hstep : r.revise read last t = (r, none) := by
        simp only [Rule.revise, if_pos hopen, hread]
      rw [hstep]
      simp only [hstep, or_self, and_self]
    | ok samples =>
      have hstep : (r.revise read last t).1 = { r with
          context := .ofList r.aggregation (samples.map (·.value))
          bucketStart := some (windowStart last r.bucket) } := by
        simp only [Rule.revise, if_pos hopen, hread]
      have hagain : (r.revise read last t).1.revise read last t =
          ((r.revise read last t).1, none) := by
        generalize (r.revise read last t).1 = q at hstep
        subst hstep
        exact revise_open hopen hread (.inr rfl)
      rw [hagain]
      exact ⟨rfl, .inl rfl⟩
  · have hstep : (r.revise read last t).1 = r := by
      simp only [Rule.revise, if_neg hopen]
      split <;> rfl
    rw [hstep]
    exact ⟨hstep, .inr rfl⟩

/-- A rule that has seen the open bucket reads it when a sample of that bucket is written
again, and owes nothing for that. -/
theorem Known.reread (h : r.Known since run) (hseen : r.bucketStart ≠ none)
    (hread : ∀ low high,
      read low high = .ok (run.filter (({ low, high } : Span).holds ·.timestamp)))
    {t : Timestamp} (hopen : t ≥ windowStart (Run.lastTimestamp run) r.bucket) :
    r.revise read (Run.lastTimestamp run) t = ({ r with
      context := .ofList r.aggregation
        ((run.filter (windowStart (Run.lastTimestamp run) r.bucket ≤ ·.timestamp)).map (·.value)) },
      none) := by
  have hstart := h.start_cases.resolve_left hseen
  rw [revise_open hopen (hread _ _) (.inr hstart), ← hstart, span_open]

/-- A rule reads the open bucket when the sample that it took last is written again. It holds
what it held before, unless it was behind. -/
theorem Known.append_again (h : r.Known since run) (hasc : Run.Ascending run)
    (hpast : ∀ y ∈ run, y.timestamp < x.timestamp)
    (hread : ∀ low high,
      read low high = .ok ((run ++ [x]).filter (({ low, high } : Span).holds ·.timestamp))) :
    ∃ r', (r.append x).1.revise read x.timestamp x.timestamp = (r', none) ∧
      r'.bucketStart = (r.append x).1.bucketStart ∧
      (r'.current? = (r.append x).1.current? ∨ r.Behind since run ∧
        (r.append x).1.Behind since (run ++ [x]) ∧
        r'.current? = (Accumulator.ofList (r.append x).1.aggregation (((run ++ [x]).filter
          (windowStart x.timestamp (r.append x).1.bucket ≤ ·.timestamp)).map
            (·.value))).result?) := by
  have hnext := h.append hasc hpast
  have hreread := hnext.reread (append_start_ne_none r x) hread (t := x.timestamp)
  rw [Run.lastTimestamp_concat] at hreread
  refine ⟨_, hreread (windowStart_le _ _), rfl, ?_⟩
  have hsettled (hfollows : (r.append x).1.Follows (run ++ [x])) :
      (Accumulator.ofList (r.append x).1.aggregation (((run ++ [x]).filter
        (windowStart x.timestamp (r.append x).1.bucket ≤ ·.timestamp)).map (·.value))).result? =
        (r.append x).1.current? := by
    have hcontext := hfollows.context
    rw [Run.lastTimestamp_concat] at hcontext
    exact (congrArg Accumulator.result? hcontext).symm
  rcases h with hfollows | hbehind
  · exact .inl (hsettled (hfollows.append hasc hpast))
  rcases hnext with hfollows | hstill
  · exact .inl (hsettled hfollows)
  · exact .inr ⟨hbehind, hstill, rfl⟩

end Revise

end Rule

namespace Series

variable {s s' base : Series} {writes : List BucketWrite} {memory : String → Option Timestamp}

/-- What is stored tells the last sample and the number of samples. -/
theorem Valid.same_last (h : s.Valid) (h' : s'.Valid) (heq : s'.toList = s.toList) :
    s'.lastTimestamp = s.lastTimestamp ∧ s'.lastValue = s.lastValue ∧
      s'.totalSamples = s.totalSamples := by
  have hlast : (⟨s'.lastTimestamp, s'.lastValue⟩ : Sample) = ⟨s.lastTimestamp, s.lastValue⟩ := by
    rw [h'.last, h.last, heq]
  obtain ⟨htimestamp, hvalue⟩ := Sample.mk.inj hlast
  exact ⟨htimestamp, hvalue, by rw [h'.total, h.total, heq]⟩

/-- A sample that is stored is put where it is. -/
theorem Put.toList_eq (hp : Put s x base) (hvalid : s.Valid) (hx : x ∈ s.toList) :
    base.toList = s.toList := by
  refine hp.valid.ascending.ext hvalid.ascending fun y => ?_
  rw [hp.mem_iff]
  constructor
  · rintro (rfl | ⟨-, hy⟩)
    · exact hx
    · exact hy
  · intro hy
    by_cases heq : y.timestamp = x.timestamp
    · exact .inl (hvalid.ascending.eq_of_timestamp hy hx heq)
    · exact .inr ⟨heq, hy⟩

/-- A sample that is stored can be written again. -/
theorem upsert_stored (h : s.Valid) (hx : x ∈ s.toList) (fallback : DuplicatePolicy) :
    ∃ base, upsert x .last fallback s =
      .ok (base.revised x.timestamp).2 (base.revised x.timestamp).1 ∧ Put s x base := by
  obtain ⟨run, gained, hu⟩ := Run.upsert_last h.ascending x
  have hresolved : Run.upsert (.resolve .last s.policy fallback) x s.toList =
      .ok (run, ⟨gained, x.value⟩) := hu
  rcases upsert_cases h x .last fallback with
    ⟨e, hfail, -⟩ | ⟨run', done, s', writes, hok, hupsert, hchange⟩
  · rw [hresolved] at hfail
    cases hfail
  rw [hresolved] at hok
  cases hok
  cases hchange with
  | placed hp => exact absurd (hp.past x hx) (UInt64.lt_irrefl _)
  | put hp => exact ⟨_, hupsert, hp⟩

/-- The rules of a series that keeps its samples for ever go on following what is stored, or
being behind it. -/
theorem Change.known (h : Change s x s' writes) (hvalid : s.Valid) (hforever : s.retention = 0)
    (hpos : ∀ r ∈ s.rules, r.bucket ≠ 0)
    (hknown : ∀ r ∈ s.rules, r.Known (memory r.dest) s.toList) :
    ∀ r ∈ s'.rules, r.Known (memory r.dest) s'.toList := by
  intro r' hr'
  cases h with
  | placed hp =>
    have hstepped := hp.stepped
    rw [hstepped.rules] at hr'
    obtain ⟨r, hr, rfl⟩ := List.mem_map.mp hr'
    rw [toList_appended, hp.toList_forever hforever, hstepped.keeps.dest]
    exact (hknown r hr).append hvalid.ascending hp.past
  | @put base hp =>
    have hstepped := hp.stepped
    rw [hstepped.rules] at hr'
    obtain ⟨r, hr, rfl⟩ := List.mem_map.mp hr'
    have hlast : Run.lastTimestamp base.toList = Run.lastTimestamp s.toList := by
      rw [← hp.valid.lastTimestamp_eq, ← hvalid.lastTimestamp_eq, hp.last]
    have hnext := (hknown r hr).revise (hpos r hr) hvalid.ascending hp.valid.ascending hp.nonempty
      hp.stored hp.others hlast hp.valid.range
    rw [hstepped.keeps.dest, hp.valid.lastTimestamp_eq]
    exact hnext

/-- A rule that was behind has read its bucket: it was made when the bucket of a sample that
was appended had begun, and now holds all that is stored of it. -/
structure CaughtUp (since : Option Timestamp) (before after : Series) (t : Timestamp)
    (r r' : Rule) : Prop where
  begun : ∃ u, since = some u ∧ windowStart u r.bucket = windowStart t r.bucket
  appended : before.lastTimestamp < t
  current : after.aggregate (windowStart t r.bucket) .latest r.aggregation = .ok r'.current?

/-- What a rule does about a sample that is written a second time. -/
structure Again (since : Option Timestamp) (before after : Series) (t : Timestamp)
    (owed : Option BucketWrite) (r : Rule) (next : Rule × Option BucketWrite) : Prop where
  start : next.1.bucketStart = r.bucketStart
  current : next.1.current? = r.current? ∨ CaughtUp since before after t r next.1
  owed : next.2 = none ∨ next.2 = owed

theorem aggregate_open (h : s.Valid) (start : Timestamp) (aggregation : Aggregation) :
    s.aggregate start .latest aggregation = .ok (Accumulator.ofList aggregation
      ((s.toList.filter (start ≤ ·.timestamp)).map (·.value))).result? := by
  unfold aggregate
  rw [h.range, span_open]
  rfl

/-- The rules of a series when a sample is written again. -/
theorem Change.again (h : Change s x s' writes) (hvalid : s.Valid) (hforever : s.retention = 0)
    (hknown : ∀ r ∈ s.rules, r.Known (memory r.dest) s.toList) (hput : Put s' x base) :
    ∃ step, Stepped s step s' writes ∧ ∀ r ∈ s.rules, Again (memory r.dest) s s' x.timestamp
      (step r).2 (step r).1 ((step r).1.revise base.range base.lastTimestamp x.timestamp) := by
  have hsame := hput.toList_eq h.valid h.stored
  have hread : ∀ low high, base.range low high =
      .ok (s'.toList.filter (({ low, high } : Span).holds ·.timestamp)) := by
    intro low high
    rw [hput.valid.range, hsame]
  have hlast : base.lastTimestamp = Run.lastTimestamp s'.toList := by
    rw [hput.valid.lastTimestamp_eq, hsame]
  cases h with
  | placed hp =>
    refine ⟨_, hp.stepped, fun r hr => ?_⟩
    rw [toList_appended, hp.toList_forever hforever] at hread hlast
    rw [Run.lastTimestamp_concat] at hlast
    obtain ⟨r', hrevise, hstart, hcurrent⟩ :=
      (hknown r hr).append_again hvalid.ascending hp.past hread
    rw [hlast, hrevise]
    refine ⟨hstart, hcurrent.imp_right fun ⟨hbehind, hstill, hall⟩ => ?_, .inl rfl⟩
    obtain ⟨u, hu, hbegun⟩ := hstill.begun
    rw [Run.lastTimestamp_concat] at hbegun
    refine ⟨⟨u, hu, hbegun⟩, hp.behind hvalid hbehind.nonempty, ?_⟩
    rw [aggregate_open (hp.valid.appended x), toList_appended, hp.toList_forever hforever, hall]
  | @put base₀ hp =>
    refine ⟨_, hp.stepped, fun r hr => ?_⟩
    have hrange : base.range = base₀.range := by
      funext low high
      rw [hread, hp.valid.range, toList_revised]
    rw [toList_revised, ← hp.valid.lastTimestamp_eq] at hlast
    rw [hrange, hlast]
    obtain ⟨hrule, howed⟩ :=
      Rule.revise_again r base₀.range base₀.lastTimestamp x.timestamp
    exact ⟨by rw [hrule], .inl (by rw [hrule]), howed⟩

end Series

end SeriesStore
