import SeriesStore.Proofs.Store.Reachable

/-!
# Downsampling is exact

A rule is made between two series without samples. Whatever is written from then on,
in any order and to any series but the destination, the destination holds exactly
the closed buckets of the source, and the rule the open one.

Results:
1. `Tracks.written`: one write keeps a destination downsampled from its source.
2. `downsampled_run`: so do all writes after each other.
-/

namespace SeriesStore.Store

variable {st st' : Store} {source dest key : String} {aggregation : Aggregation}
  {length : UInt64} {s d : Series} {r : Rule}

/-- The call writes a sample, and not into this series. -/
def Call.WritesBeside (dest : String) : Call → Prop
  | add key _ _ | upsert key _ _ => key ≠ dest
  | _ => False

instance (dest : String) : (call : Call) → Decidable (call.WritesBeside dest)
  | .add key _ _ | .upsert key _ _ => inferInstanceAs (Decidable (key ≠ dest))
  | .create .. | .delete _ | .rename .. | .createRule .. | .deleteRule .. => .isFalse id

/-- What is read of a source and of the destination it is downsampled into. -/
structure DownsampledInto (st : Store) (source dest : String) (aggregation : Aggregation)
    (length : UInt64) (s d : Series) (r : Rule) (run out : List Sample) : Prop where
  from_source : st.get? source = some s
  to_dest : st.get? dest = some d
  rule : r ∈ s.rules ∧ r.dest = dest ∧ r.aggregation = aggregation ∧ r.bucket = length
  run_eq : s.range 0 Timestamp.latest = .ok run
  out_eq : d.range 0 Timestamp.latest = .ok out
  -- The destination holds the closed buckets.
  closed : Downsampled aggregation length run out
  -- The open bucket is the one of the last sample.
  start : r.bucketStart = if s.isEmpty then none else some (windowStart s.lastTimestamp length)
  -- The rule holds what the samples of the open bucket amount to.
  current : r.current? = (Accumulator.ofList aggregation
    ((run.filter (windowStart s.lastTimestamp length ≤ ·.timestamp)).map (·.value))).result?

/-! ## One write -/

/-- A rule of the source leads into the destination, which keeps its samples for
ever. -/
structure Link (st : Store) (source dest : String) (s d : Series) (r : Rule) : Prop where
  from_source : st.get? source = some s
  to_dest : st.get? dest = some d
  rule : r ∈ s.rules
  into : r.dest = dest
  forever : d.retention = 0

theorem Link.mem (h : st.Link source dest s d r) : dest ∈ s.destinations :=
  List.mem_map.mpr ⟨r, h.rule, h.into⟩

theorem Link.ne (h : st.Link source dest s d r) (hst : st.Sound) : dest ≠ source := by
  rintro rfl
  exact hst.links.not_mem_own h.from_source h.mem

/-- The source and the destination keep their samples for ever, a rule links them, and
both agree with the run of the source. -/
structure Linking (st : Store) (source dest : String) (s d : Series) (r : Rule) : Prop where
  from_source : st.get? source = some s
  to_dest : st.get? dest = some d
  rule : r ∈ s.rules
  into : r.dest = dest
  forever : s.retention = 0 ∧ d.retention = 0
  follows : r.Follows s.toList
  downsampled : Downsampled r.aggregation r.bucket s.toList d.toList

/-- A source and a destination go on being linked by a rule with these buckets. -/
def Tracks (st : Store) (source dest : String) (aggregation : Aggregation) (length : UInt64) :
    Prop :=
  ∃ s d r, st.Linking source dest s d r ∧ r.aggregation = aggregation ∧ r.bucket = length

/-- A destination takes what it is owed, if anything. -/
theorem delivered_owed (h : d.Valid) (hforever : d.retention = 0) (owed : Option BucketWrite) :
    ∃ d', receivedAll owed.toList d = d' ∧ d'.retention = 0 ∧
      Delivered owed d.toList d'.toList := by
  cases owed with
  | none => exact ⟨d, rfl, hforever, .none d.toList⟩
  | some w =>
    obtain ⟨writes, hchange⟩ := Series.received_change h w.sample
    exact ⟨Series.received w.sample d, rfl, hchange.alike.retention ▸ hforever,
      Series.delivered_received h hforever w⟩

/-- A rule takes the step that its series makes it take, and its destination takes
what is owed. -/
theorem Link.write (h : st.Link source dest s d r) (hst : st.Sound) {s' : Series} {x : Sample}
    {writes : List BucketWrite} {step : Rule → Rule × Option BucketWrite}
    (hchange : Series.Change s x s' writes) (hstepped : s.Stepped step s' writes) :
    ∃ d', ((st.put source s').deliver writes).Link source dest s' d' (step r).1 ∧
      Delivered (step r).2 d.toList d'.toList := by
  have hkeeps := hstepped.keeps
  have hself := hst.links.not_mem_own h.from_source
  have hsingle := hst.links.nodup_destinations h.from_source
  have hwrites : writes.filter (·.dest == dest) = (step r).2.toList := by
    rw [hstepped.writes, ← h.into]
    exact Series.filter_writes hkeeps hsingle h.rule
  obtain ⟨d', hd', hforever, hdel⟩ := delivered_owed (hst.valid h.to_dest) h.forever (step r).2
  refine ⟨d', ?_, hdel⟩
  constructor
  case from_source => rw [get?_changed_of_not_mem hchange hself, if_pos rfl]
  case to_dest =>
    rw [get?_changed, hwrites, if_neg (h.ne hst), h.to_dest, Option.map_some, hd']
  case rule =>
    rw [hstepped.rules]
    exact List.mem_map.mpr ⟨r, h.rule, rfl⟩
  case into => rw [hkeeps.dest, h.into]
  case forever => exact hforever

theorem Linking.link (h : st.Linking source dest s d r) : st.Link source dest s d r :=
  ⟨h.from_source, h.to_dest, h.rule, h.into, h.forever.2⟩

theorem Linking.write (h : st.Linking source dest s d r) (hst : st.Sound) {s' : Series} {x : Sample}
    {writes : List BucketWrite} (hchange : Series.Change s x s' writes) :
    ∃ d' r', ((st.put source s').deliver writes).Linking source dest s' d' r' ∧
      r'.aggregation = r.aggregation ∧ r'.bucket = r.bucket := by
  obtain ⟨step, hstepped, hfollows⟩ := hchange.follows (hst.valid h.from_source) h.forever.1
  obtain ⟨d', hlink, hdel⟩ := h.link.write hst hchange hstepped
  have hkeeps := hstepped.keeps
  have hpos := (hst.stored source s h.from_source).positive r h.rule
  obtain ⟨hnext, hdown⟩ := hfollows r hpos h.follows d.toList d'.toList h.downsampled hdel
  refine ⟨d', (step r).1, ?_, hkeeps.aggregation r, hkeeps.bucket r⟩
  constructor
  case from_source => exact hlink.from_source
  case to_dest => exact hlink.to_dest
  case rule => exact hlink.rule
  case into => exact hlink.into
  case forever => exact ⟨hchange.alike.retention ▸ h.forever.1, hlink.forever⟩
  case follows => exact hnext
  case downsampled => rwa [hkeeps.aggregation, hkeeps.bucket]

/-- A write into another series reaches neither end of the link. -/
theorem Linking.write_other (h : st.Linking source dest s d r) (hst : st.Sound) {q q' : Series}
    {x : Sample} {writes : List BucketWrite} (hq : st.get? key = some q)
    (hchange : Series.Change q x q' writes) (hkey : key ≠ source) (hne : key ≠ dest) :
    ((st.put key q').deliver writes).Linking source dest s d r := by
  have hlink := (hst.links.linked source dest).mp ((dests_of_get? h.from_source).symm ▸ h.link.mem)
  have hdest : dest ∉ q.destinations := by
    rw [← dests_of_get? hq, hst.links.linked, hlink, Option.some.injEq]
    exact Ne.symm hkey
  have hsource : source ∉ q.destinations := by
    -- The source would be a destination with rules of its own.
    rw [← dests_of_get? hq, hst.links.linked]
    intro hsource
    have hempty := hst.links.level source (by rw [hsource]; simp)
    have hmem := h.link.mem
    rw [← dests_of_get? h.from_source, hempty] at hmem
    cases hmem
  exact { h with
    from_source := by
      rw [get?_changed_of_not_mem hchange hsource, if_neg (Ne.symm hkey), h.from_source]
    to_dest := by
      rw [get?_changed_of_not_mem hchange hdest, if_neg (Ne.symm hne), h.to_dest] }

theorem Tracks.written (h : st.Tracks source dest aggregation length) (hst : st.Sound)
    (hw : st.Written key st') (hne : key ≠ dest) :
    st'.Tracks source dest aggregation length := by
  obtain ⟨s, d, r, hlink, hagg, hlength⟩ := h
  cases hw with
  | refused hsame =>
    exact ⟨s, d, r, { hlink with
      from_source := (hsame source).trans hlink.from_source
      to_dest := (hsame dest).trans hlink.to_dest }, hagg, hlength⟩
  | @changed q q' x writes hq hchange =>
    by_cases hkey : key = source
    · subst hkey
      obtain rfl : q = s := Option.some.inj (hq.symm.trans hlink.from_source)
      obtain ⟨d', r', hlink', hagg', hlength'⟩ := hlink.write hst hchange
      exact ⟨q', d', r', hlink', hagg'.trans hagg, hlength'.trans hlength⟩
    · exact ⟨s, d, r, hlink.write_other hst hq hchange hkey hne, hagg, hlength⟩

/-! ## All writes -/

theorem Tracks.perform (h : st.Tracks source dest aggregation length) (hst : st.Sound)
    {call : Call} (hcall : call.WritesBeside dest) :
    (stateAfter call.perform st).Tracks source dest aggregation length := by
  cases call with
  | add key sample override =>
    unfold Call.perform
    rw [stateAfter_discard]
    exact h.written hst (add_written hst key sample override) hcall
  | upsert key sample override => exact h.written hst (upsert_written hst key sample override) hcall
  | _ => exact hcall.elim

theorem Tracks.run (h : st.Tracks source dest aggregation length) (hst : st.Sound)
    {calls : List Call} (hcalls : ∀ call ∈ calls, call.WritesBeside dest) :
    (runAll Call.perform calls st).Tracks source dest aggregation length ∧
      (runAll Call.perform calls st).Sound := by
  induction calls generalizing st with
  | nil => exact ⟨h, hst⟩
  | cons call calls ih =>
    obtain ⟨hcall, hcalls⟩ := List.forall_mem_cons.mp hcalls
    exact ih (h.perform hst hcall) (perform_sound hst call) hcalls

/-- What is tracked is what is read. -/
theorem Tracks.read (h : st.Tracks source dest aggregation length) (hst : st.Sound) :
    ∃ s d r run out, st.DownsampledInto source dest aggregation length s d r run out := by
  obtain ⟨s, d, r, hlink, rfl, rfl⟩ := h
  have hs := hst.valid hlink.from_source
  have hd := hst.valid hlink.to_dest
  refine ⟨s, d, r, s.toList, d.toList, ?_⟩
  constructor
  case from_source => exact hlink.from_source
  case to_dest => exact hlink.to_dest
  case rule => exact ⟨hlink.rule, hlink.into, rfl, rfl⟩
  case run_eq => exact hs.range_all
  case out_eq => exact hd.range_all
  case closed => exact hlink.downsampled
  case start =>
    rw [hs.lastTimestamp_eq]
    split
    · rw [hlink.follows.start, hs.isEmpty_iff.mp ‹_›]
      rfl
    · exact hlink.follows.bucketStart_eq (mt hs.isEmpty_iff.mpr ‹_›)
  case current => rw [Rule.current?, hlink.follows.context, hs.lastTimestamp_eq]

/-- A new rule between two series without samples. -/
theorem Tracks.new (hst : st.Sound) (hs : st.get? source = some s) (hd : st.get? dest = some d)
    (hforever : s.retention = 0 ∧ d.retention = 0) (hempty : s.isEmpty = true ∧ d.isEmpty = true)
    (hrule : createRule source dest aggregation length st = .ok () st') :
    st'.Tracks source dest aggregation length := by
  obtain ⟨hne, hget⟩ := get?_createRule hs hd hrule
  have hrun := (hst.valid hs).isEmpty_iff.mp hempty.1
  have hout := (hst.valid hd).isEmpty_iff.mp hempty.2
  refine ⟨{ s with rules := s.rules ++ [newRule dest aggregation length] },
    { d with source := some source }, newRule dest aggregation length, ?_, rfl, rfl⟩
  constructor
  case from_source => rw [hget, if_neg hne, if_pos rfl]
  case to_dest => rw [hget, if_pos rfl]
  case rule => exact List.mem_append_right _ List.mem_cons_self
  case into => rfl
  case forever => exact hforever
  case follows =>
    change Rule.Follows _ s.toList
    rw [hrun]
    exact ⟨rfl, rfl⟩
  case downsampled =>
    change Downsampled _ _ s.toList d.toList
    rw [hrun, hout]
    exact .empty

/-- A rule is made between two series that hold no samples and keep all that come.
After any writes to any series but the destination, be they refused or not, the
destination holds exactly the closed buckets of the source, and the rule the open
one. -/
theorem downsampled_run (hst : st.Reachable) (hs : st.get? source = some s)
    (hd : st.get? dest = some d) (hforever : s.retention = 0 ∧ d.retention = 0)
    (hempty : s.isEmpty = true ∧ d.isEmpty = true)
    (hrule : createRule source dest aggregation length st = .ok () st') {calls : List Call}
    (hcalls : ∀ call ∈ calls, call.WritesBeside dest) (n : Nat) :
    ∃ s d r run out, (runAll Call.perform (calls.take n) st').DownsampledInto source dest
      aggregation length s d r run out := by
  have hsound := hst.sound
  have hstart := Tracks.new hsound hs hd hforever hempty hrule
  have hsound' : st'.Sound := by
    rw [← stateAfter_of_ok hrule]
    exact createRule_sound hsound source dest aggregation length
  have htake : ∀ call ∈ calls.take n, call.WritesBeside dest := fun call hcall =>
    hcalls call (List.mem_of_mem_take hcall)
  obtain ⟨htracks, hrun⟩ := hstart.run hsound' htake
  exact htracks.read hrun

/-- A run that leaves a bucket behind, writes into it again, has a duplicate refused,
and misses a series. -/
theorem downsampled_run_backfill :
    let options : SeriesOptions := { encoding := .plain }
    let st : Store :=
      runAll Call.perform [.create "s" options, .create "d" options] { config := {} }
    let st' : Store := stateAfter (createRule "s" "d" .sum 10) st
    let calls : List Call := [.add "s" ⟨5, ⟨1⟩⟩ .unset, .add "s" ⟨25, ⟨2⟩⟩ .unset,
      .upsert "s" ⟨3, ⟨3⟩⟩ .unset, .add "s" ⟨3, ⟨4⟩⟩ .block, .add "t" ⟨7, ⟨5⟩⟩ .unset]
    (∀ call ∈ calls, call.WritesBeside "d") ∧ ∀ n, ∃ s d r run out,
      (runAll Call.perform (calls.take n) st').DownsampledInto "s" "d" .sum 10 s d r run out := by
  intro options st st' calls
  have hst : st.Reachable := ⟨_, _, rfl⟩
  have hs : st.get? "s" = some (Series.new "s" options) := by decide +kernel
  have hd : st.get? "d" = some (Series.new "d" options) := by decide +kernel
  have hrule : createRule "s" "d" .sum 10 st = .ok () st' := of_outcome_ok (by decide +kernel)
  have hcalls : ∀ call ∈ calls, call.WritesBeside "d" := by decide
  exact ⟨hcalls, downsampled_run hst hs hd ⟨rfl, rfl⟩ ⟨rfl, rfl⟩ hrule hcalls⟩

end SeriesStore.Store
