import SeriesStore.Proofs.Series.Downsampling

/-!
# The rules of a series

When a series changes, each of its rules takes a step and may owe a write. A rule
follows what it has seen of the series, which may be more than what is stored: a series
with a retention drops samples, and no rule forgets them but where it reads their
bucket again.

Results:
1. `filter_writes`: what a change of a series owes to one destination.
2. `Placed.follows`, `Put.follows`: every change of a series, seen by one of its rules.
3. `Change.follows`: the case of a series that drops nothing.
-/

namespace SeriesStore

/-! ## The steps of all rules -/

/-- A step of a rule that keeps what the rule is told to do. -/
structure Keeps (step : Rule → Rule × Option BucketWrite) : Prop where
  dest : ∀ r, (step r).1.dest = r.dest
  aggregation : ∀ r, (step r).1.aggregation = r.aggregation
  bucket : ∀ r, (step r).1.bucket = r.bucket
  owed : ∀ r w, (step r).2 = some w → w.dest = r.dest

theorem dest_of_owed {r : Rule} {start : Timestamp} {value : Option Value} {w : BucketWrite}
    (h : r.owed start value = some w) : w.dest = r.dest := by
  obtain ⟨v, -, rfl⟩ := Option.map_eq_some_iff.mp h
  rfl

theorem append_keeps (x : Sample) : Keeps (·.append x) := by
  have hstep : ∀ r : Rule, (r.append x).1.dest = r.dest ∧
      (r.append x).1.aggregation = r.aggregation ∧ (r.append x).1.bucket = r.bucket ∧
      ∀ w, (r.append x).2 = some w → w.dest = r.dest := by
    intro r
    simp only [Rule.append]
    split
    · exact ⟨rfl, rfl, rfl, fun w hw => dest_of_owed hw⟩
    · exact ⟨rfl, rfl, rfl, fun w hw => by cases hw⟩
  exact ⟨fun r => (hstep r).1, fun r => (hstep r).2.1, fun r => (hstep r).2.2.1,
    fun r => (hstep r).2.2.2⟩

theorem revise_keeps (read : Timestamp → Timestamp → Except StoreError (List Sample))
    (last t : Timestamp) : Keeps (·.revise read last t) := by
  have hstep : ∀ r : Rule, (r.revise read last t).1.dest = r.dest ∧
      (r.revise read last t).1.aggregation = r.aggregation ∧
      (r.revise read last t).1.bucket = r.bucket ∧
      ∀ w, (r.revise read last t).2 = some w → w.dest = r.dest := by
    intro r
    simp only [Rule.revise]
    split
    · split
      · exact ⟨rfl, rfl, rfl, fun w hw => by cases hw⟩
      · refine ⟨rfl, rfl, rfl, fun w hw => ?_⟩
        obtain ⟨start, -, hw⟩ := Option.bind_eq_some_iff.mp hw
        exact dest_of_owed hw
    · split
      · exact ⟨rfl, rfl, rfl, fun w hw => by cases hw⟩
      · exact ⟨rfl, rfl, rfl, fun w hw => dest_of_owed hw⟩
  exact ⟨fun r => (hstep r).1, fun r => (hstep r).2.1, fun r => (hstep r).2.2.1,
    fun r => (hstep r).2.2.2⟩

namespace Series

variable {s s' base : Series} {x : Sample} {writes : List BucketWrite} {length : UInt64}

/-- Each rule of a series has taken a step, and the writes are what they owe. -/
structure Stepped (s : Series) (step : Rule → Rule × Option BucketWrite) (s' : Series)
    (writes : List BucketWrite) : Prop where
  keeps : Keeps step
  rules : s'.rules = s.rules.map fun r => (step r).1
  writes : writes = s.rules.filterMap fun r => (step r).2

theorem Placed.stepped (h : Placed s x base) :
    Stepped s (·.append x) (base.appended x).1 (base.appended x).2 := by
  refine ⟨append_keeps x, ?_, ?_⟩
  · rw [← h.rules]
    exact List.map_map
  · rw [← h.rules]
    exact List.filterMap_map

theorem Put.stepped (h : Put s x base) :
    Stepped s (·.revise base.range base.lastTimestamp x.timestamp) (base.revised x.timestamp).1
      (base.revised x.timestamp).2 := by
  refine ⟨revise_keeps _ _ _, ?_, ?_⟩
  · rw [← h.rules]
    exact List.map_map
  · rw [← h.rules]
    exact List.filterMap_map

theorem Change.stepped (h : Change s x s' writes) : ∃ step, Stepped s step s' writes := by
  cases h with
  | placed h => exact ⟨_, h.stepped⟩
  | put h => exact ⟨_, h.stepped⟩

/-- No rule into a destination, no write into it. -/
theorem filter_writes_of_ne {step : Rule → Rule × Option BucketWrite} (hstep : Keeps step)
    {rules : List Rule} {key : String} (h : ∀ r ∈ rules, r.dest ≠ key) :
    (rules.filterMap fun r => (step r).2).filter (·.dest == key) = [] := by
  apply List.filter_eq_nil_iff.mpr
  intro w hw
  obtain ⟨r, hr, hstepped⟩ := List.mem_filterMap.mp hw
  rw [hstep.owed r w hstepped, beq_iff_eq]
  exact h r hr

/-- Among the writes of a series, those into one destination are what the rule into
it owes. -/
theorem filter_writes {step : Rule → Rule × Option BucketWrite} (hstep : Keeps step)
    {rules : List Rule} (hsingle : (rules.map (·.dest)).Nodup) {r : Rule} (hr : r ∈ rules) :
    (rules.filterMap fun r => (step r).2).filter (·.dest == r.dest) = (step r).2.toList := by
  induction rules with
  | nil => cases hr
  | cons q rules ih =>
    rw [List.map_cons, List.nodup_cons] at hsingle
    have hother : ∀ p ∈ rules, p.dest ≠ q.dest := fun p hp heq =>
      hsingle.1 (List.mem_map.mpr ⟨p, hp, heq⟩)
    have hhead : (rules.filterMap fun r => (step r).2).filter (·.dest == q.dest) = [] :=
      filter_writes_of_ne hstep hother
    have hsplit : (List.filterMap (fun r => (step r).2) (q :: rules)) =
        (step q).2.toList ++ rules.filterMap fun r => (step r).2 := by
      rw [List.filterMap_cons]
      cases (step q).2 <;> rfl
    rw [hsplit, List.filter_append]
    rcases List.mem_cons.mp hr with rfl | hr
    · have hown : (step r).2.toList.filter (·.dest == r.dest) = (step r).2.toList := by
        apply List.filter_eq_self.mpr
        intro w hw
        rw [hstep.owed r w (Option.mem_toList.mp hw), beq_self_eq_true]
      rw [hown, hhead, List.append_nil]
    · have hnone : (step q).2.toList.filter (·.dest == r.dest) = [] := by
        apply List.filter_eq_nil_iff.mpr
        intro w hw
        rw [hstep.owed q w (Option.mem_toList.mp hw), beq_iff_eq]
        exact Ne.symm (hother r hr)
      rw [hnone, List.nil_append, ih hsingle.2 hr]

/-! ## What rules have seen -/

/-- The run holds what is stored of the series, and maybe earlier samples that rules had
seen before they were dropped. -/
structure Seen (s : Series) (run : List Sample) : Prop where
  ascending : Run.Ascending run
  stored : ∀ y ∈ s.toList, y ∈ run
  last : Run.lastTimestamp run = s.lastTimestamp
  empty : s.toList = [] → run = []

/-- The steps of rules change nothing that is stored. -/
theorem Seen.stepRules {run : List Sample} (h : s.Seen run)
    (step : Rule → Rule × Option BucketWrite) : (s.stepRules step).1.Seen run :=
  ⟨h.ascending, h.stored, h.last, h.empty⟩

theorem Valid.seen (h : s.Valid) : s.Seen s.toList :=
  ⟨h.ascending, fun _ hy => hy, h.lastTimestamp_eq.symm, id⟩

section Seen

variable {run run' dest dest' : List Sample} {r : Rule}

/-- A sample is placed behind all that rules have seen. -/
theorem Seen.past (h : s.Seen run) (hvalid : s.Valid) (hp : Placed s x base) :
    ∀ y ∈ run, y.timestamp < x.timestamp := by
  intro y hy
  have hne : s.toList ≠ [] := fun hnil => List.ne_nil_of_mem hy (h.empty hnil)
  exact UInt64.lt_of_le_of_lt (h.last ▸ h.ascending.le_lastTimestamp hy) (hp.behind hvalid hne)

theorem Placed.seen (hp : Placed s x base) (hvalid : s.Valid) (h : s.Seen run) :
    base.Seen (run ++ [x]) := by
  obtain ⟨gone, kept, happend, hlist, -⟩ := hp.kept
  refine ⟨Run.ascending_append.mpr ⟨h.ascending, by simp [Run.Ascending], fun y hy z hz => ?_⟩,
    fun y hy => ?_, ?_, fun hnil => ?_⟩
  · rw [List.mem_singleton.mp hz]
    exact h.past hvalid hp y hy
  · rw [hlist] at hy
    rcases List.mem_append.mp hy with hy | hy
    · exact List.mem_append_left _ (h.stored y (happend ▸ List.mem_append_right _ hy))
    · exact List.mem_append_right _ hy
  · rw [Run.lastTimestamp_concat, hp.last]
  · rw [hlist] at hnil
    simp at hnil

/-- A series that keeps its samples for ever drops none for a sample that is placed. -/
theorem Placed.toList_forever (hp : Placed s x base) (hforever : s.retention = 0) :
    base.toList = s.toList ++ [x] := by
  obtain ⟨gone, kept, happend, hlist, hgone⟩ := hp.kept
  rw [eq_nil_of_forever hforever hgone, List.nil_append] at happend
  rw [hlist, happend]

/-- A rule takes a sample that was placed. -/
theorem Placed.follows (hp : Placed s x base) (hvalid : s.Valid) (h : s.Seen run)
    (hlength : r.bucket ≠ 0) (hf : r.Follows run)
    (hd : Downsampled r.aggregation r.bucket run dest)
    (hdel : Delivered (r.append x).2 dest dest') :
    (r.append x).1.Follows (run ++ [x]) ∧
      Downsampled r.aggregation r.bucket (run ++ [x]) dest' :=
  Rule.append_follows hlength hf h.ascending (h.past hvalid hp) hd hdel

theorem Put.seen (hp : Put s x base) (h : s.Seen run)
    (hrenewed : Renewed length x.timestamp base.toList run run') : base.Seen run' := by
  refine ⟨hrenewed.ascending, fun y hy => ?_, by rw [hrenewed.last, h.last, hp.last],
    fun hnil => absurd hnil (List.ne_nil_of_mem hp.stored)⟩
  by_cases hown : windowStart y.timestamp length = windowStart x.timestamp length
  · exact (hrenewed.own y hown).mpr hy
  · have hne : y.timestamp ≠ x.timestamp := fun heq => hown (by rw [heq])
    exact (hrenewed.others y hown).mpr (h.stored y ((hp.others y hne).mp hy))

/-- A rule takes a sample into account that was put. -/
theorem Put.follows (hp : Put s x base) (h : s.Seen run) (hlength : r.bucket ≠ 0)
    (hf : r.Follows run) (hrenewed : Renewed r.bucket x.timestamp base.toList run run')
    (hd : Downsampled r.aggregation r.bucket run dest)
    (hdel : Delivered (r.revise base.range base.lastTimestamp x.timestamp).2 dest dest') :
    (r.revise base.range base.lastTimestamp x.timestamp).1.Follows run' ∧
      Downsampled r.aggregation r.bucket run' dest' := by
  obtain ⟨y, hy⟩ := List.exists_mem_of_ne_nil _ hp.nonempty
  have hlast := hp.last.trans h.last.symm
  rw [hp.valid.lastTimestamp_eq] at hdel hlast ⊢
  exact Rule.revise_follows hlength hf h.ascending hp.valid.ascending
    (List.ne_nil_of_mem (h.stored y hy)) hp.stored hrenewed hlast hp.valid.range hd hdel

/-- The run with the bucket of `t` taken from what is stored. -/
def renew (length : UInt64) (t : Timestamp) (stored run : List Sample) : List Sample :=
  run.filter (windowStart ·.timestamp length < windowStart t length) ++
    (stored.filter (windowStart ·.timestamp length = windowStart t length) ++
      run.filter (windowStart t length < windowStart ·.timestamp length))

theorem mem_renew {t : Timestamp} {stored : List Sample} {y : Sample} :
    y ∈ renew length t stored run ↔
      if windowStart y.timestamp length = windowStart t length then y ∈ stored else y ∈ run := by
  unfold renew
  simp only [List.mem_append, List.mem_filter, decide_eq_true_eq]
  by_cases hown : windowStart y.timestamp length = windowStart t length
  · simp [hown, UInt64.lt_irrefl]
  · have hside := UInt64.lt_or_lt_of_ne hown
    simp only [hown, if_false, and_false, false_or, ← and_or_left, and_iff_left hside]

theorem renew_ascending {t : Timestamp} {stored : List Sample} (hasc : Run.Ascending run)
    (hstored : Run.Ascending stored) : Run.Ascending (renew length t stored run) := by
  refine Run.ascending_append.mpr ⟨hasc.filter _, Run.ascending_append.mpr
    ⟨hstored.filter _, hasc.filter _, fun y hy z hz => ?_⟩, fun y hy z hz => ?_⟩
  · have hown := of_decide_eq_true (List.mem_filter.mp hy).2
    have hbehind := of_decide_eq_true (List.mem_filter.mp hz).2
    exact lt_of_windowStart_lt (hown ▸ hbehind)
  · have hbefore := of_decide_eq_true (List.mem_filter.mp hy).2
    rcases List.mem_append.mp hz with hz | hz
    · have hown := of_decide_eq_true (List.mem_filter.mp hz).2
      exact lt_of_windowStart_lt (hown ▸ hbefore)
    · have hbehind := of_decide_eq_true (List.mem_filter.mp hz).2
      exact lt_of_windowStart_lt (UInt64.lt_trans hbefore hbehind)

/-- Where a sample is put, a rule reads its bucket again and so renews it in what it has
seen. -/
theorem Put.renewed (hp : Put s x base) (h : s.Seen run) (length : UInt64) :
    Renewed length x.timestamp base.toList run (renew length x.timestamp base.toList run) := by
  have hasc : Run.Ascending (renew length x.timestamp base.toList run) :=
    renew_ascending h.ascending hp.valid.ascending
  refine ⟨hasc, fun y hy => by rw [mem_renew, if_pos hy], fun y hy => by rw [mem_renew, if_neg hy],
    ?_⟩
  have hend := hp.last.trans h.last.symm
  have hstored := hp.valid.last_mem (List.ne_nil_of_mem hp.stored)
  have hlast : ⟨base.lastTimestamp, base.lastValue⟩ ∈ renew length x.timestamp base.toList run := by
    rw [mem_renew]
    split
    · exact hstored
    · rename_i hother
      have hne : base.lastTimestamp ≠ x.timestamp := fun heq => hother (by rw [heq])
      exact h.stored _ ((hp.others _ hne).mp hstored)
  have hle : ∀ y ∈ renew length x.timestamp base.toList run, y.timestamp ≤ base.lastTimestamp := by
    intro y hy
    rw [mem_renew] at hy
    split at hy
    · exact hp.valid.le_last hy
    · exact hend ▸ h.ascending.le_lastTimestamp hy
  rw [Run.lastTimestamp, hasc.getLast?_eq hlast hle, ← hend]
  rfl

end Seen

/-- A series that keeps its samples for ever stores all that its rules have seen: each rule
goes on following its run, and what it owes keeps its destination downsampled from it. -/
theorem Change.follows (h : Change s x s' writes) (hvalid : s.Valid) (hforever : s.retention = 0) :
    ∃ step, Stepped s step s' writes ∧ ∀ r : Rule, r.bucket ≠ 0 → r.Follows s.toList →
      ∀ dest dest', Downsampled r.aggregation r.bucket s.toList dest →
        Delivered (step r).2 dest dest' →
        (step r).1.Follows s'.toList ∧ Downsampled r.aggregation r.bucket s'.toList dest' := by
  cases h with
  | placed hp =>
    refine ⟨_, hp.stepped, fun r hlength hf dest dest' hd hdel => ?_⟩
    rw [toList_appended, hp.toList_forever hforever]
    exact hp.follows hvalid hvalid.seen hlength hf hd hdel
  | @put base hp =>
    refine ⟨_, hp.stepped, fun r hlength hf dest dest' hd hdel => ?_⟩
    have hrenewed : Renewed r.bucket x.timestamp base.toList s.toList base.toList := by
      refine ⟨hp.valid.ascending, fun _ _ => .rfl, fun y hy => ?_, ?_⟩
      · exact hp.others y fun heq => hy (by rw [heq])
      · rw [← hp.valid.lastTimestamp_eq, ← hvalid.lastTimestamp_eq, hp.last]
    exact hp.follows hvalid.seen hlength hf hrenewed hd hdel

/-! ## Destinations -/

/-- A destination that keeps its samples for ever stores what is delivered. -/
theorem delivered_received {d : Series} (h : d.Valid) (hforever : d.retention = 0)
    (w : BucketWrite) : Delivered (some w) d.toList (received w.sample d).toList := by
  obtain ⟨writes, hchange⟩ := received_change h w.sample
  refine .some w hchange.valid.ascending fun y => ?_
  by_cases heq : y.timestamp = w.sample.timestamp
  · constructor
    · exact fun hy => .inl (hchange.valid.ascending.eq_of_timestamp hy hchange.stored heq)
    · rintro (rfl | ⟨hne, -⟩)
      · exact hchange.stored
      · exact absurd heq hne
  · rw [hchange.others hforever heq]
    constructor
    · exact fun hy => .inr ⟨heq, hy⟩
    · rintro (rfl | ⟨-, hy⟩)
      · exact absurd rfl heq
      · exact hy

end Series

end SeriesStore
