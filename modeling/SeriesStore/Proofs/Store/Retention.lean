import Mathlib.Data.List.Induction
import SeriesStore.Proofs.Series.Acceptance
import SeriesStore.Proofs.Store.Downsampling

/-!
# Downsampling and retention

A source with a retention drops samples that its rule has seen. The destination is not
told: it goes on holding what the rule has seen of a bucket. But a late sample makes the
rule read its bucket again, and then only what is still stored of the bucket counts.

So a destination is the same whether its source has a retention or not, but for the
buckets that a late sample has found incomplete.

Results:
1. `Recalling.add`: one sample that is added to the source.
2. `Link.added`: samples that are added one after the other.
3. `recalled_run`: two stores that differ in the retention of the source.
4. `recall_incomplete`: the two differ where a bucket was found incomplete.
-/

namespace SeriesStore.Store

variable {st : Store} {source dest : String} {length retention : UInt64}
  {whole whole' : Timestamp → Prop} {accepted run : List Sample} {s d : Series} {r : Rule}
  {x : Sample} {policy : DuplicatePolicy} {adds : List (Sample × DuplicatePolicy)}

/-! ## Added samples -/

/-- The calls that add some samples to a series, each with a policy. -/
def addCalls (key : String) (adds : List (Sample × DuplicatePolicy)) : List Call :=
  adds.map fun a => .add key a.1 a.2

/-- What becomes of a store that samples are added to. -/
def added (st : Store) (key : String) (adds : List (Sample × DuplicatePolicy)) : Store :=
  runAll Call.perform (addCalls key adds) st

/-- Each of some samples is accepted when it is its turn. -/
def Accepts (st : Store) (key : String) (adds : List (Sample × DuplicatePolicy)) : Prop :=
  ∀ o ∈ outcomes Call.perform (addCalls key adds) st, o = .ok ()

/-- Whenever one of the samples falls into the bucket at `b` and is late, the source still
stores all samples of that bucket that it has accepted before. -/
def FoundWhole (st : Store) (source : String) (length : UInt64)
    (adds : List (Sample × DuplicatePolicy)) (b : Timestamp) : Prop :=
  ∀ before x policy after, adds = before ++ (x, policy) :: after →
    windowStart x.timestamp length = b →
    ∀ s, (st.added source before).get? source = some s → x.timestamp ≤ s.lastTimestamp →
      ∀ y ∈ before.map (·.1), windowStart y.timestamp length = b → y ∈ s.toList

instance (st : Store) (key : String) (adds : List (Sample × DuplicatePolicy)) :
    Decidable (st.Accepts key adds) :=
  inferInstanceAs (Decidable (∀ o ∈ outcomes Call.perform (addCalls key adds) st, o = .ok ()))

theorem added_concat (st : Store) (key : String) (adds : List (Sample × DuplicatePolicy))
    (a : Sample × DuplicatePolicy) :
    st.added key (adds ++ [a]) =
      stateAfter (Call.perform (.add key a.1 a.2)) (st.added key adds) := by
  unfold added addCalls runAll
  rw [List.map_append, List.foldl_append]
  rfl

theorem accepts_append {key : String} {adds adds' : List (Sample × DuplicatePolicy)} :
    st.Accepts key (adds ++ adds') ↔
      st.Accepts key adds ∧ (st.added key adds).Accepts key adds' := by
  unfold Accepts added addCalls
  rw [List.map_append, outcomes_append]
  exact List.forall_mem_append

theorem Accepts.take {key : String} (h : st.Accepts key adds) (n : Nat) :
    st.Accepts key (adds.take n) := by
  rw [← List.take_append_drop n adds] at h
  exact (accepts_append.mp h).1

theorem FoundWhole.front {adds' : List (Sample × DuplicatePolicy)} {b : Timestamp}
    (h : st.FoundWhole source length (adds ++ adds') b) : st.FoundWhole source length adds b :=
  fun before x policy after hadds => h before x policy (after ++ adds') (by rw [hadds]; simp)

/-! ## One sample -/

/-- A rule leads from the source into the destination, which is downsampled from what the
rule has seen of the accepted samples. -/
structure Recalling (st : Store) (source dest : String) (retention : UInt64)
    (whole : Timestamp → Prop) (accepted run : List Sample) (s d : Series) (r : Rule) : Prop where
  link : st.Link source dest s d r
  windowed : s.retention = retention
  seen : s.Seen run
  follows : r.Follows run
  downsampled : Downsampled r.aggregation r.bucket run d.toList
  accounts : Accounts r.bucket whole accepted run
  -- Nothing is dropped without a retention.
  kept : retention = 0 → ∀ y ∈ accepted, y ∈ s.toList

/-- A sample that is accepted is a change of its series. -/
theorem add_accepted (hst : st.Sound) {key : String} (hs : st.get? key = some s)
    (haccept : outcome (Call.perform (.add key x policy)) st = .ok ()) :
    ∃ run done s' writes,
      Run.upsert (.resolve policy s.policy st.config.policy) x s.toList = .ok (run, done) ∧
      Series.Change s ⟨x.timestamp, done.value⟩ s' writes ∧
      stateAfter (Call.perform (.add key x policy)) st = (st.put key s').deliver writes := by
  have hrefused : ∀ {e}, add key x policy st ≠ .error e st := by
    intro e hfail
    have hfail : Call.perform (.add key x policy) st = .error e st :=
      map_of_error (fun _ => ()) hfail
    rw [outcome_of_error hfail] at haccept
    cases haccept
  have hwindow : ¬ x.timestamp < s.oldest := fun hold => hrefused (add_tooOld hs policy hold)
  rcases add_cases hst hs policy hwindow with
    ⟨e, -, hfail⟩ | ⟨run, done, s', writes, hu, -, hchange, hok⟩
  · exact absurd hfail hrefused
  · exact ⟨run, done, s', writes, hu, hchange, stateAfter_of_ok (map_of_ok (fun _ => ()) hok)⟩

/-- One more sample, at a new timestamp, is accepted. -/
theorem Recalling.add (h : st.Recalling source dest retention whole accepted run s d r)
    (hst : st.Sound) (haccept : outcome (Call.perform (.add source x policy)) st = .ok ())
    (hfresh : ∀ y ∈ accepted, y.timestamp ≠ x.timestamp) (hwhole : ∀ b, whole' b → whole b)
    (hfound : x.timestamp ≤ s.lastTimestamp → whole' (windowStart x.timestamp r.bucket) →
      ∀ y ∈ accepted, windowStart y.timestamp r.bucket = windowStart x.timestamp r.bucket →
        y ∈ s.toList) :
    ∃ run' s' d' r', (stateAfter (Call.perform (.add source x policy)) st).Recalling source dest
        retention whole' (accepted ++ [x]) run' s' d' r' ∧
      r'.aggregation = r.aggregation ∧ r'.bucket = r.bucket := by
  have hs := h.link.from_source
  have hvalid := hst.valid hs
  have hpos := (hst.stored source s hs).positive r h.link.rule
  obtain ⟨_, done, s', writes, hu, hchange, hstate⟩ := add_accepted hst hs haccept
  have hvalue : done.value = x.value := Run.upsert_fresh hvalid.ascending (fun y hy =>
    hfresh y (h.accounts.within y (h.seen.stored y hy))) hu
  rw [hvalue] at hchange
  have hkept : retention = 0 → ∀ y ∈ accepted ++ [x], y ∈ s'.toList := by
    intro hzero y hy
    rcases List.mem_append.mp hy with hy | hy
    · exact (hchange.others (h.windowed.trans hzero) (hfresh y hy)).mpr (h.kept hzero y hy)
    · rw [List.mem_singleton.mp hy]
      exact hchange.stored
  have hwindowed := hchange.alike.retention.trans h.windowed
  rw [hstate]
  cases hchange with
  | placed hp =>
    obtain ⟨d', hlink, hdel⟩ := h.link.write hst (.placed hp) hp.stepped
    obtain ⟨hfollows, hdown⟩ := hp.follows hvalid h.seen hpos h.follows h.downsampled hdel
    have hkeeps := hp.stepped.keeps
    have hseen := hp.seen hvalid h.seen
    refine ⟨_, _, d', _, ⟨hlink, hwindowed, hseen.stepRules _, hfollows, ?_, ?_, hkept⟩,
      hkeeps.aggregation r, hkeeps.bucket r⟩
    · rwa [hkeeps.aggregation, hkeeps.bucket]
    · rw [hkeeps.bucket]
      exact h.accounts.placed (h.seen.past hvalid hp) hwhole
  | put hp =>
    have hrenewed := hp.renewed h.seen r.bucket
    obtain ⟨d', hlink, hdel⟩ := h.link.write hst (.put hp) hp.stepped
    obtain ⟨hfollows, hdown⟩ := hp.follows h.seen hpos h.follows hrenewed h.downsampled hdel
    have hkeeps := hp.stepped.keeps
    have hseen := hp.seen h.seen hrenewed
    refine ⟨_, _, d', _, ⟨hlink, hwindowed, hseen.stepRules _, hfollows, ?_, ?_, hkept⟩,
      hkeeps.aggregation r, hkeeps.bucket r⟩
    · rwa [hkeeps.aggregation, hkeeps.bucket]
    · rw [hkeeps.bucket]
      exact h.accounts.put h.seen hp hrenewed hfresh hwhole (hfound hp.inside)

/-! ## Retention lifted -/

/-- The store, but for one series that keeps its samples for ever. -/
def keepForever (st : Store) (key : String) : Store :=
  st.alter key fun s => { s with retention := 0 }

theorem keepForever_sound (h : st.Sound) (key : String) : (st.keepForever key).Sound := by
  refine ⟨h.links.congr fun k => ?_, fun k q hq => ?_⟩
  · unfold keepForever
    rw [get?_alter]
    split
    · cases st.get? k <;> rfl
    · rfl
  · unfold keepForever at hq
    rw [get?_alter] at hq
    split at hq
    · obtain ⟨s, hs, rfl⟩ := Option.map_eq_some_iff.mp hq
      have hstored := h.stored k s hs
      have hvalid := hstored.valid
      exact ⟨hstored.named, ⟨hvalid.laid, hvalid.total, hvalid.last, hvalid.roomy⟩,
        hstored.positive, hstored.waiting⟩
    · exact h.stored k q hq

theorem Link.keepForever (h : st.Link source dest s d r) (hst : st.Sound) :
    (st.keepForever source).Link source dest { s with retention := 0 } d r := by
  refine ⟨?_, ?_, h.rule, h.into, h.forever⟩
  · rw [Store.keepForever, get?_alter, if_pos rfl, h.from_source]
    rfl
  · rw [Store.keepForever, get?_alter, if_neg (h.ne hst), h.to_dest]

/-! ## All samples -/

theorem added_sound (hst : st.Sound) (key : String) (adds : List (Sample × DuplicatePolicy)) :
    (st.added key adds).Sound :=
  runAll_sound hst (addCalls key adds)

/-- Before the first sample a rule recalls all that there is. -/
theorem Link.recalling (h : st.Link source dest s d r) (hst : st.Sound)
    (hempty : s.isEmpty = true ∧ d.isEmpty = true) (whole : Timestamp → Prop) :
    st.Recalling source dest s.retention whole [] [] s d r := by
  have hvalid := hst.valid h.from_source
  have hrun := hvalid.isEmpty_iff.mp hempty.1
  have hout := (hst.valid h.to_dest).isEmpty_iff.mp hempty.2
  constructor
  case link => exact h
  case windowed => rfl
  case seen =>
    refine ⟨.nil, fun y hy => ?_, ?_, fun _ => rfl⟩
    · rwa [hrun] at hy
    · rw [hvalid.lastTimestamp_eq, hrun]
  case follows => exact (hst.stored source s h.from_source).waiting hrun r h.rule
  case downsampled =>
    rw [hout]
    exact .empty
  case accounts => exact ⟨by simp, by simp, by simp, by simp⟩
  case kept => simp

/-- A rule recalls all samples that are accepted one after the other. -/
theorem Link.added (h : st.Link source dest s d r) (hst : st.Sound)
    (hempty : s.isEmpty = true ∧ d.isEmpty = true) (hdistinct : (adds.map (·.1.timestamp)).Nodup)
    (haccepts : st.Accepts source adds) :
    ∃ run' s' d' r', (st.added source adds).Recalling source dest s.retention
        (st.FoundWhole source r.bucket adds) (adds.map (·.1)) run' s' d' r' ∧
      r'.aggregation = r.aggregation ∧ r'.bucket = r.bucket := by
  -- On the calls that came before the last one.
  induction adds using List.reverseRecOn with
  | nil => exact ⟨[], s, d, r, h.recalling hst hempty _, rfl, rfl⟩
  | append_singleton adds a ih =>
    obtain ⟨x, policy⟩ := a
    rw [List.map_append] at hdistinct
    obtain ⟨hdistinct, -, hcross⟩ := List.nodup_append.mp hdistinct
    obtain ⟨hadds, hlast⟩ := accepts_append.mp haccepts
    obtain ⟨run', s', d', r', h', hagg, hbucket⟩ := ih hdistinct hadds
    have haccept := hlast _ List.mem_cons_self
    have hfresh : ∀ y ∈ adds.map (·.1), y.timestamp ≠ x.timestamp := by
      intro y hy
      obtain ⟨a, ha, rfl⟩ := List.mem_map.mp hy
      exact hcross _ (List.mem_map.mpr ⟨a, ha, rfl⟩) _ (by simp)
    have hfound : x.timestamp ≤ s'.lastTimestamp →
        st.FoundWhole source r.bucket (adds ++ [(x, policy)])
          (windowStart x.timestamp r'.bucket) →
        ∀ y ∈ adds.map (·.1),
          windowStart y.timestamp r'.bucket = windowStart x.timestamp r'.bucket →
          y ∈ s'.toList := by
      rw [hbucket]
      exact fun hlate hwhole =>
        hwhole adds x policy [] rfl rfl s' h'.link.from_source hlate
    obtain ⟨run'', s'', d'', r'', h'', hagg', hbucket'⟩ :=
      h'.add (added_sound hst source adds) haccept hfresh (fun b => FoundWhole.front) hfound
    rw [added_concat, List.map_append]
    exact ⟨run'', s'', d'', r'', h'', hagg'.trans hagg, hbucket'.trans hbucket⟩

/-! ## Two stores -/

/-- This is what is read of the series under a key. -/
def Reads (st : Store) (key : String) (out : List Sample) : Prop :=
  (st.get? key).map (·.range 0 .latest) = some (.ok out)

instance (st : Store) (key : String) (out : List Sample) : Decidable (st.Reads key out) :=
  inferInstanceAs (Decidable ((st.get? key).map (·.range 0 .latest) = some (.ok out)))

/-- What a destination tells of the samples that its source has accepted. -/
theorem Recalling.read (h : st.Recalling source dest retention whole accepted run s d r)
    (hst : st.Sound) (hdistinct : (accepted.map (·.timestamp)).Nodup) :
    ∃ out, st.Reads dest out ∧
      DownsampledWhere r.aggregation r.bucket whole (inOrder accepted) out := by
  have hpos := (hst.stored source s h.link.from_source).positive r h.link.rule
  refine ⟨d.toList, ?_, h.accounts.read hpos h.seen.ascending hdistinct h.downsampled⟩
  unfold Reads
  rw [h.link.to_dest, Option.map_some, (hst.valid h.link.to_dest).range_all]

/-- A source that keeps its samples for ever is always found whole. -/
theorem Link.foundWhole (h : st.Link source dest s d r) (hst : st.Sound)
    (hempty : s.isEmpty = true ∧ d.isEmpty = true) (hforever : s.retention = 0)
    (hdistinct : (adds.map (·.1.timestamp)).Nodup) (haccepts : st.Accepts source adds)
    (b : Timestamp) : st.FoundWhole source r.bucket adds b := by
  rintro before x policy after rfl - q hq - y hy -
  rw [List.map_append] at hdistinct
  obtain ⟨run', s', d', r', h', -⟩ := h.added hst hempty (List.nodup_append.mp hdistinct).1
    (accepts_append.mp haccepts).1
  obtain rfl : s' = q := Option.some.inj (h'.link.from_source.symm.trans hq)
  exact h'.kept hforever y hy

/-- Two stores differ in the retention of a source, which one of them does not limit. A rule
leads from the source into a destination that keeps all that it is owed, and neither of
them holds samples yet. Then samples are added to the source in both, all of them accepted
and no two at one time. The destination without the limit holds the closed buckets of all
these samples; the other one holds the same buckets, with the same aggregates but where a
late sample has found its bucket incomplete. -/
theorem recalled_run (hst : st.Reachable) (hlink : st.Link source dest s d r)
    (hempty : s.isEmpty = true ∧ d.isEmpty = true)
    (hdistinct : (adds.map (·.1.timestamp)).Nodup) (haccepts : st.Accepts source adds)
    (haccepts' : (st.keepForever source).Accepts source adds) (n : Nat) :
    ∃ out out', (st.added source (adds.take n)).Reads dest out ∧
      ((st.keepForever source).added source (adds.take n)).Reads dest out' ∧
      Downsampled r.aggregation r.bucket (inOrder ((adds.take n).map (·.1))) out' ∧
      out.map (·.timestamp) = out'.map (·.timestamp) ∧
      ∀ b, st.FoundWhole source r.bucket (adds.take n) b →
        ∀ v, ⟨b, v⟩ ∈ out ↔ ⟨b, v⟩ ∈ out' := by
  have hsound := hst.sound
  have hsound' := keepForever_sound hsound source
  have hlink' := hlink.keepForever hsound
  have htake : ((adds.take n).map (·.1.timestamp)).Nodup :=
    hdistinct.sublist ((List.take_sublist n adds).map _)
  have htake' : (((adds.take n).map (·.1)).map (·.timestamp)).Nodup := by rwa [List.map_map]
  obtain ⟨run, s₁, d₁, r₁, h, hagg, hbucket⟩ :=
    hlink.added hsound hempty htake (haccepts.take n)
  obtain ⟨run', s₂, d₂, r₂, h', hagg', hbucket'⟩ :=
    hlink'.added hsound' hempty htake (haccepts'.take n)
  obtain ⟨out, hreads, hout⟩ := h.read (added_sound hsound source _) htake'
  obtain ⟨out', hreads', hout'⟩ := h'.read (added_sound hsound' source _) htake'
  rw [hagg, hbucket] at hout
  rw [hagg', hbucket'] at hout'
  have hdown :=
    hout'.downsampled (hlink'.foundWhole hsound' hempty rfl htake (haccepts'.take n))
  exact ⟨out, out', hreads, hreads', hdown, hout.timestamps_eq hdown,
    fun b hwhole => hout.mem_iff hdown hwhole⟩

/-- A run that drops samples of closed buckets and takes a late one into another. -/
theorem recalled_run_late :
    let options : SeriesOptions := { encoding := .plain, chunkSize := 16 }
    let st : Store := runAll Call.perform [.create "s" { options with retention := 10 },
      .create "d" options, .createRule "s" "d" .first 10] { config := {} }
    let adds : List (Sample × DuplicatePolicy) := [(⟨5, ⟨1⟩⟩, .unset), (⟨30, ⟨2⟩⟩, .unset),
      (⟨50, ⟨3⟩⟩, .unset), (⟨45, ⟨4⟩⟩, .unset), (⟨150, ⟨5⟩⟩, .unset)]
    (adds.map (·.1.timestamp)).Nodup ∧ st.Accepts "s" adds ∧
      (st.keepForever "s").Accepts "s" adds ∧
      ∀ n, ∃ out out', (st.added "s" (adds.take n)).Reads "d" out ∧
        ((st.keepForever "s").added "s" (adds.take n)).Reads "d" out' ∧
        Downsampled .first 10 (inOrder ((adds.take n).map (·.1))) out' ∧
        out.map (·.timestamp) = out'.map (·.timestamp) ∧
        ∀ b, st.FoundWhole "s" 10 (adds.take n) b → ∀ v, ⟨b, v⟩ ∈ out ↔ ⟨b, v⟩ ∈ out' := by
  intro options st adds
  have hst : st.Reachable := ⟨_, _, rfl⟩
  let s := { Series.new "s" { options with retention := 10 } with
    rules := [newRule "d" .first 10] }
  let d := { Series.new "d" options with source := some "s" }
  have hlink : st.Link "s" "d" s d (newRule "d" .first 10) :=
    ⟨by decide +kernel, by decide +kernel, List.mem_cons_self, rfl, rfl⟩
  have hdistinct : (adds.map (·.1.timestamp)).Nodup := by decide
  have haccepts : st.Accepts "s" adds := by decide +kernel
  have haccepts' : (st.keepForever "s").Accepts "s" adds := by decide +kernel
  exact ⟨hdistinct, haccepts, haccepts',
    recalled_run hst hlink ⟨rfl, rfl⟩ hdistinct haccepts haccepts'⟩

/-- A late sample can find its bucket incomplete: the sample at 5 is dropped when the one at
50 arrives, and the late one at 45 makes the rule read the bucket of both again. -/
theorem recall_incomplete :
    let options : SeriesOptions := { encoding := .plain, chunkSize := 16 }
    let st (retention : UInt64) : Store := runAll Call.perform
      [.create "s" { options with retention }, .create "d" options] { config := {} }
    let st' (retention : UInt64) : Store :=
      stateAfter (createRule "s" "d" .first 100) (st retention)
    let adds : List (Sample × DuplicatePolicy) := [(⟨5, ⟨0x3ff0000000000000⟩⟩, .unset),
      (⟨30, ⟨0x4000000000000000⟩⟩, .unset), (⟨50, ⟨0x4008000000000000⟩⟩, .unset),
      (⟨45, ⟨0x4010000000000000⟩⟩, .unset), (⟨150, ⟨0x4014000000000000⟩⟩, .unset)]
    outcome (createRule "s" "d" .first 100) (st 10) = .ok () ∧
      outcome (createRule "s" "d" .first 100) (st 0) = .ok () ∧
      (st' 10).keepForever "s" = st' 0 ∧
      (adds.map (·.1.timestamp)).Nodup ∧ (st' 10).Accepts "s" adds ∧ (st' 0).Accepts "s" adds ∧
      ((st' 10).added "s" adds).Reads "d" [⟨0, ⟨0x4000000000000000⟩⟩] ∧
      ((st' 0).added "s" adds).Reads "d" [⟨0, ⟨0x3ff0000000000000⟩⟩] := by
  decide +kernel

end SeriesStore.Store
