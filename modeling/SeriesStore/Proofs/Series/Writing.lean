import SeriesStore.Proofs.Effects
import SeriesStore.Proofs.Series.Layout
import SeriesStore.Proofs.Thresholds
import SeriesStore.Series.Writing

/-!
# Writing keeps the layout

Each step of a write finds the directory laid out and leaves it so. A write does
to the run of a series what it does to a single run; where the run rejects it,
the series stays as it is.

Results:
1. `target_ok`, `makeRoom_ok`, `writeInto_ok`: the steps of a write, which find
   the chunk that covers a timestamp, cut it and file it.
2. `upsert_entered`, `upsert_ok`, `upsert_error`: the whole write.
-/

namespace SeriesStore.Series

/-- The samples of a series. -/
def toList (s : Series) : List Sample := runOf s.chunks.entries

variable {s : Series} {pre post : List (ChunkKey × Chunk)} {k : ChunkKey} {c : Chunk}
  {t : Timestamp} {policy : DuplicatePolicy}

/-! ## Keys and timestamps -/

theorem lt_of_key {first u : Timestamp}
    (h : k = .ofTimestamp first ∨ pre = [] ∧ k = seedKey) (hlt : first < u) :
    compare k (ChunkKey.ofTimestamp u) = .lt := by
  rcases h with rfl | ⟨-, rfl⟩
  · exact ChunkKey.compare_ofTimestamp.mpr hlt
  · unfold seedKey
    rw [ChunkKey.compare_ofTimestamp]
    exact UInt64.lt_of_le_of_lt UInt64.zero_le hlt

theorem lt_of_behind (h : ∀ e ∈ post, FiledAt e) {u : Timestamp}
    (hlt : ∀ x ∈ runOf post, u < x.timestamp) :
    ∀ e ∈ post, compare (ChunkKey.ofTimestamp u) e.1 = .lt := by
  intro e he
  obtain ⟨x, hx, hfirst⟩ := Run.firstTimestamp_mem (h e he).nonempty
  rw [(h e he).key, ChunkKey.compare_ofTimestamp, ← hfirst]
  exact hlt x (mem_runOf.mpr ⟨e, he, hx⟩)

/-- The chunks of a laid out directory in the order of their runs. -/
theorem ascending_parts (h : Laid (pre ++ (k, c) :: post)) :
    Run.Ascending (runOf pre) ∧ Run.Ascending c.toList ∧ Run.Ascending (runOf post) ∧
      (∀ x ∈ runOf pre, ∀ y ∈ c.toList, x.timestamp < y.timestamp) ∧
      (∀ x ∈ runOf pre, ∀ y ∈ runOf post, x.timestamp < y.timestamp) ∧
      ∀ x ∈ c.toList, ∀ y ∈ runOf post, x.timestamp < y.timestamp := by
  have hasc := h.ascending
  rw [runOf_append, runOf_cons] at hasc
  obtain ⟨hpre, htail, hcross⟩ := Run.ascending_append.mp hasc
  obtain ⟨hc, hpost, hcp⟩ := Run.ascending_append.mp htail
  exact ⟨hpre, hc, hpost, fun x hx y hy => hcross x hx y (List.mem_append_left _ hy),
    fun x hx y hy => hcross x hx y (List.mem_append_right _ hy), hcp⟩

/-! ## Choosing a chunk -/

theorem chunkAt_ok (h : s.chunks.get? k = some c) (t : Timestamp) :
    chunkAt k t s = .ok c s := by
  unfold chunkAt
  rw [bind_of_ok (get_apply s), h]
  rfl

/-- The chunk chosen for a write is the one that covers its timestamp. -/
theorem target_ok (h : Laid s.chunks.entries) (t : Timestamp) :
    ∃ pre k c post, s.chunks.entries = pre ++ (k, c) :: post ∧ Home t pre c post ∧
      target t s = .ok k s := by
  rcases List.eq_nil_or_concat s.chunks.entries with hnil | ⟨front, ⟨k, c⟩, hlast⟩
  · exact absurd hnil h.filed.ne_nil
  rw [List.concat_eq_append] at hlast
  have hmax : s.chunks.last? = some (k, c) := by rw [SortedMap.last?, hlast]; simp
  have hhold : c.Holds c.toList := h.holds (k, c) (by simp [hlast])
  by_cases hearly : (t < c.firstTimestamp && s.chunks.size > 1) = true
  · obtain ⟨pre, k', c', post, hsplit, hhome, hseek⟩ := h.exists_home t
    refine ⟨pre, k', c', post, hsplit, hhome, ?_⟩
    unfold target
    rw [bind_of_ok (get_apply s), hmax]
    simp only [hearly, if_true, hseek]
    rfl
  · have hfront : front ≠ [] → compare (ChunkKey.ofTimestamp t) k ≠ .lt := by
      intro hne
      have hinner : FiledAt (k, c) := (show Laid (front ++ [(k, c)]) from hlast ▸ h).filed.inner hne
      rw [show k = _ from hinner.key, ne_eq, ChunkKey.compare_ofTimestamp]
      have hsize : s.chunks.size > 1 := by
        unfold SortedMap.size
        rw [hlast, List.length_append, List.length_singleton]
        have := List.length_pos_iff.mpr hne
        omega
      simpa [hsize, hhold.firstTimestamp] using hearly
    refine ⟨front, k, c, [], hlast, (hlast ▸ h).home hfront (by simp), ?_⟩
    unfold target
    rw [bind_of_ok (get_apply s), hmax]
    simp only [hearly]
    rfl

/-! ## Making room -/

theorem makeRoom_small (h : s.chunks.get? k = some c) (policy : DuplicatePolicy)
    (hsmall : c.size ≤ splitThreshold s.chunkSize.toNat) :
    makeRoom k t policy s = .ok k s := by
  unfold makeRoom
  rw [bind_of_ok (get_apply s), bind_of_ok (chunkAt_ok h t), if_pos hsmall]
  rfl

theorem makeRoom_blocked {run : List Sample} (h : s.chunks.get? k = some c)
    (hlarge : ¬ c.size ≤ splitThreshold s.chunkSize.toNat) (hsamples : c.samples = .ok run)
    (hblocks : policy.blocks = true) (hheld : Run.holds t run = true) :
    makeRoom k t policy s = .error (.blocked t) s := by
  unfold makeRoom
  rw [bind_of_ok (get_apply s), bind_of_ok (chunkAt_ok h t), if_neg hlarge]
  simp only [hblocks, if_true, hsamples]
  rw [bind_of_ok (ofExcept_ok run s), if_pos hheld]
  rfl

theorem makeRoom_split {run : List Sample} {head tail : Chunk} (h : s.chunks.get? k = some c)
    (hlarge : ¬ c.size ≤ splitThreshold s.chunkSize.toNat) (hsamples : c.samples = .ok run)
    (hfree : policy.blocks = true → Run.holds t run = false)
    (hsplit : c.split? = some (head, tail))
    (hnew : (s.chunks.insert k head).contains (.ofTimestamp tail.firstTimestamp) = false) :
    makeRoom k t policy s =
      .ok (if t ≥ tail.firstTimestamp then .ofTimestamp tail.firstTimestamp else k)
        { s with chunks :=
            (s.chunks.insert k head).insert (.ofTimestamp tail.firstTimestamp) tail } := by
  unfold makeRoom
  rw [bind_of_ok (get_apply s), bind_of_ok (chunkAt_ok h t), if_neg hlarge]
  by_cases hblocks : policy.blocks = true
  · simp only [hblocks, if_true, hsamples]
    rw [bind_of_ok (ofExcept_ok run s), hfree hblocks]
    simp only [hsplit, hnew, Bool.false_eq_true, if_false]
    rw [bind_of_ok (set_apply _ _)]
    rfl
  · simp only [hblocks, if_false, hsplit, hnew, Bool.false_eq_true]
    rw [bind_of_ok (set_apply _ _)]
    rfl

/-- A write that is going to be rejected either passes or is rejected here; it
changes nothing. -/
theorem makeRoom_held (h : Laid s.chunks.entries)
    (hsplit : s.chunks.entries = pre ++ (k, c) :: post) (hblocks : policy.blocks = true)
    (hheld : ∃ x ∈ c.toList, x.timestamp = t) :
    makeRoom k t policy s = .ok k s ∨ makeRoom k t policy s = .error (.blocked t) s := by
  have hget := SortedMap.get?_of_split hsplit
  have hmem : (k, c) ∈ s.chunks.entries := by simp [hsplit]
  by_cases hsmall : c.size ≤ splitThreshold s.chunkSize.toNat
  · exact .inl (makeRoom_small hget policy hsmall)
  · exact .inr (makeRoom_blocked hget hsmall (h.holds _ hmem).samples hblocks
      ((Run.holds_iff (h.ascending_of_mem hmem) t).mpr hheld))

section Cut

variable {head tail : Chunk}

/-- The later half is filed under its own first timestamp, right behind the earlier
one. -/
theorem entries_cut (h : Laid s.chunks.entries) (hsplit : s.chunks.entries = pre ++ (k, c) :: post)
    (hcut : c.Halved head tail) :
    (s.chunks.insert k head).contains (.ofTimestamp tail.firstTimestamp) = false ∧
      ((s.chunks.insert k head).insert (.ofTimestamp tail.firstTimestamp) tail).entries =
        pre ++ (k, head) :: (.ofTimestamp tail.firstTimestamp, tail) :: post := by
  rw [hsplit] at h
  obtain ⟨-, hc, -, -, -, hcp⟩ := ascending_parts h
  have hne : c.toList ≠ [] := by simp [hcut.append, hcut.head_ne]
  have hklt : compare k (ChunkKey.ofTimestamp tail.firstTimestamp) = .lt := by
    obtain ⟨x, hx, hfirst⟩ := Run.firstTimestamp_mem hcut.head_ne
    have hlt := hcut.before hc x hx
    rw [hfirst, ← hcut.firstTimestamp] at hlt
    exact lt_of_key (h.filed.key hne) hlt
  have haround : SortedMap.Around (ChunkKey.ofTimestamp tail.firstTimestamp)
      (pre ++ [(k, head)]) post := by
    refine ⟨fun e he => ?_, lt_of_behind h.filed.behind fun z hz => ?_⟩
    · rcases List.mem_append.mp he with he | he
      · exact Std.TransCmp.lt_trans ((SortedMap.around_of_split hsplit).below e he) hklt
      · rw [List.mem_singleton.mp he]
        exact hklt
    · obtain ⟨y, hy, hfirst⟩ := Run.firstTimestamp_mem hcut.tail_ne
      rw [hcut.holds_tail.firstTimestamp, ← hfirst]
      exact hcp y (hcut.append ▸ List.mem_append_right _ hy) z hz
  have hgap : (s.chunks.insert k head).entries = (pre ++ [(k, head)]) ++ post := by
    rw [SortedMap.entries_insert_of_split hsplit, List.append_assoc, List.singleton_append]
  constructor
  · rw [SortedMap.contains_eq_isSome, SortedMap.get?_of_gap hgap haround]
    rfl
  · rw [SortedMap.entries_insert_of_gap hgap haround, List.append_assoc, List.singleton_append]

/-- The two halves of a chunk may take its place. -/
theorem cut_laid (h : Laid (pre ++ (k, c) :: post)) (hcut : c.Halved head tail) :
    Laid (pre ++ (k, head) :: (.ofTimestamp tail.firstTimestamp, tail) :: post) ∧
      runOf (pre ++ (k, head) :: (.ofTimestamp tail.firstTimestamp, tail) :: post) =
        runOf (pre ++ (k, c) :: post) := by
  have hne : c.toList ≠ [] := by simp [hcut.append, hcut.head_ne]
  have hrun : runOf (pre ++ (k, head) :: (.ofTimestamp tail.firstTimestamp, tail) :: post) =
      runOf (pre ++ (k, c) :: post) := by
    simp only [runOf_append, runOf_cons, hcut.append, List.append_assoc]
  have hothers := (forall_mem_between.mp h.holds).2
  refine ⟨⟨forall_mem_between.mpr ⟨hcut.holds_head,
    forall_mem_between.mpr ⟨hcut.holds_tail, hothers⟩⟩, hrun ▸ h.ascending,
    h.filed.splice hcut.head_ne ?_ fun e he => ?_⟩, hrun⟩
  · rw [← hcut.firstTimestamp]
    exact h.filed.key hne
  · rcases List.mem_cons.mp he with rfl | he
    · exact ⟨hcut.tail_ne, congrArg ChunkKey.ofTimestamp hcut.holds_tail.firstTimestamp⟩
    · exact h.filed.behind e he

/-- The earlier half covers what lies before the later one. -/
theorem home_earlier (h : Laid (pre ++ (k, c) :: post)) (hhome : Home t pre c post)
    (hcut : c.Halved head tail) (hlt : t < tail.firstTimestamp) :
    Home t pre head ((.ofTimestamp tail.firstTimestamp, tail) :: post) := by
  refine ⟨hhome.before, fun z hz => ?_, fun hpre => hcut.firstTimestamp ▸ hhome.front hpre⟩
  rw [runOf_cons] at hz
  rcases List.mem_append.mp hz with hz | hz
  · have hasc := h.ascending_of_mem (e := (k, c)) (by simp)
    have htail := (Run.ascending_append.mp (hcut.append ▸ hasc)).2.1
    exact UInt64.lt_of_lt_of_le hlt (hcut.holds_tail.firstTimestamp ▸ htail.firstTimestamp_le hz)
  · exact hhome.behind z hz

/-- The later half covers the rest. -/
theorem home_later (h : Laid (pre ++ (k, c) :: post)) (hhome : Home t pre c post)
    (hcut : c.Halved head tail) (hle : tail.firstTimestamp ≤ t) :
    Home t (pre ++ [(k, head)]) tail post := by
  refine ⟨fun z hz => ?_, hhome.behind, fun _ => hcut.holds_tail.firstTimestamp ▸ hle⟩
  rw [runOf_append, runOf_cons, runOf_nil, List.append_nil] at hz
  rcases List.mem_append.mp hz with hz | hz
  · exact hhome.before z hz
  · have hasc := h.ascending_of_mem (e := (k, c)) (by simp)
    exact UInt64.lt_of_lt_of_le (hcut.before hasc z hz) hle

end Cut

/-- Where a write goes that was to go into the chunk `c`: into this chunk, or where it
has grown past the threshold, into one of its halves, beside the other. -/
inductive Room (threshold : Nat) (pre : List (ChunkKey × Chunk)) (k : ChunkKey) (c : Chunk)
    (post : List (ChunkKey × Chunk)) :
    List (ChunkKey × Chunk) → ChunkKey → Chunk → List (ChunkKey × Chunk) → Prop
  | whole : c.size ≤ threshold → Room threshold pre k c post pre k c post
  | earlier {head tail : Chunk} : threshold < c.size → c.split? = some (head, tail) →
      c.Halved head tail →
      Room threshold pre k c post pre k head ((.ofTimestamp tail.firstTimestamp, tail) :: post)
  | later {head tail : Chunk} : threshold < c.size → c.split? = some (head, tail) →
      c.Halved head tail →
      Room threshold pre k c post (pre ++ [(k, head)]) (.ofTimestamp tail.firstTimestamp) tail post

/-- Where the write is not going to be rejected, the chunk is cut if it has to be,
and the chunk that is then chosen covers the timestamp. -/
theorem makeRoom_ok (h : Laid s.chunks.entries) (hsplit : s.chunks.entries = pre ++ (k, c) :: post)
    (hhome : Home t pre c post) (hroom : 16 ≤ s.chunkSize.toNat)
    (hfree : policy.blocks = true → ∀ x ∈ c.toList, x.timestamp ≠ t) :
    ∃ d pre' k' c' post', makeRoom k t policy s = .ok k' { s with chunks := d } ∧
      d.entries = pre' ++ (k', c') :: post' ∧
      Room (splitThreshold s.chunkSize.toNat) pre k c post pre' k' c' post' ∧
      Laid d.entries ∧ Home t pre' c' post' ∧ runOf d.entries = s.toList := by
  have hget := SortedMap.get?_of_split hsplit
  have hmem : (k, c) ∈ s.chunks.entries := by simp [hsplit]
  have hhold : c.Holds c.toList := h.holds _ hmem
  by_cases hsmall : c.size ≤ splitThreshold s.chunkSize.toNat
  · exact ⟨s.chunks, pre, k, c, post, makeRoom_small hget policy hsmall, hsplit, .whole hsmall, h,
      hhome, rfl⟩
  · have hlarge := Nat.lt_of_not_le hsmall
    have hbudget := budget_le_splitThreshold s.chunkSize.toNat_lt
    obtain ⟨head, tail, hcut, hhalved⟩ := hhold.halved (hhold.two_le_of_size (by omega))
    have hnot : policy.blocks = true → Run.holds t c.toList = false := by
      intro hblocks
      rw [Bool.eq_false_iff, ne_eq, Run.holds_iff (h.ascending_of_mem hmem)]
      rintro ⟨x, hx, hxt⟩
      exact hfree hblocks x hx hxt
    obtain ⟨hnew, hentries⟩ := entries_cut h hsplit hhalved
    have hmake := makeRoom_split (t := t) hget hsmall hhold.samples hnot hcut hnew
    have hlaid := hsplit ▸ h
    obtain ⟨hlaid', hrun⟩ := cut_laid hlaid hhalved
    rw [← hsplit] at hrun
    by_cases hlate : tail.firstTimestamp ≤ t
    · rw [if_pos hlate] at hmake
      exact ⟨_, pre ++ [(k, head)], _, tail, post, hmake, by simpa using hentries,
        .later hlarge hcut hhalved, hentries ▸ hlaid', home_later hlaid hhome hhalved hlate,
        hentries ▸ hrun⟩
    · rw [if_neg hlate] at hmake
      exact ⟨_, pre, k, head, _, hmake, hentries, .earlier hlarge hcut hhalved, hentries ▸ hlaid',
        home_earlier hlaid hhome hhalved (UInt64.not_le.mp hlate), hentries ▸ hrun⟩

/-! ## Writing into a chunk -/

/-- A write into the chunk that covers its timestamp is a write into the whole
run. -/
theorem upsert_runOf {sample : Sample} (hhome : Home sample.timestamp pre c post)
    (policy : DuplicatePolicy) :
    Run.upsert policy sample (runOf (pre ++ (k, c) :: post)) =
      (Run.upsert policy sample c.toList).map fun (run, done) =>
        (runOf pre ++ (run ++ runOf post), done) := by
  rw [runOf_append, runOf_cons, Run.upsert_append_left policy hhome.before,
    Run.upsert_append_right policy hhome.behind]
  cases Run.upsert policy sample c.toList <;> rfl

/-- A chunk moves to the key of its new start, which is free. -/
theorem refile_ok {old new : Timestamp} (h : s.chunks.entries = (k, c) :: post)
    (hkey : k = .ofTimestamp old ∨ k = seedKey)
    (habove : ∀ e ∈ post, compare (ChunkKey.ofTimestamp new) e.1 = .lt) :
    ∃ d, refile k old new s = .ok () { s with chunks := d } ∧
      d.entries = (.ofTimestamp new, c) :: post := by
  have hsplit : s.chunks.entries = [] ++ (k, c) :: post := h
  have hfiled : ¬ (k ≠ .ofTimestamp old ∧ k ≠ seedKey) := by
    rintro ⟨hold, hseed⟩
    exact hkey.elim hold hseed
  have herase : (s.chunks.erase k).entries = [] ++ post := SortedMap.entries_erase_of_split hsplit
  have haround : SortedMap.Around (ChunkKey.ofTimestamp new) [] post := ⟨by simp, habove⟩
  have hfree : (s.chunks.erase k).contains (.ofTimestamp new) = false := by
    rw [SortedMap.contains_eq_isSome, SortedMap.get?_of_gap herase haround]
    rfl
  refine ⟨(s.chunks.erase k).insert (.ofTimestamp new) c, ?_,
    SortedMap.entries_insert_of_gap herase haround c⟩
  unfold refile
  rw [bind_of_ok (get_apply s), if_neg hfiled, SortedMap.get?_of_split hsplit]
  simp only [hfree]
  rfl

/-- A rejected write changes nothing. -/
theorem writeInto_error {sample : Sample} {e : StoreError} (h : Laid s.chunks.entries)
    (hsplit : s.chunks.entries = pre ++ (k, c) :: post) (hhome : Home sample.timestamp pre c post)
    (hu : Run.upsert policy sample s.toList = .error e) :
    writeInto k sample policy s = .error e s := by
  have hget := SortedMap.get?_of_split hsplit
  have hhold : c.Holds c.toList := h.holds (k, c) (by simp [hsplit])
  have hchunk : Run.upsert policy sample c.toList = .error e := by
    unfold toList at hu
    rw [hsplit, upsert_runOf hhome] at hu
    cases hc : Run.upsert policy sample c.toList with
    | error e' =>
      rw [hc] at hu
      exact hu
    | ok r =>
      rw [hc] at hu
      cases hu
  rw [writeInto, bind_of_ok (chunkAt_ok hget _), hhold.upsert_error hchunk,
    bind_of_error (ofExcept_error e s)]

/-- A write into the chunk that covers its timestamp does to the run of the series
what it does to a single run. -/
theorem writeInto_ok {sample : Sample} {run : List Sample} {done : Upserted}
    (h : Laid s.chunks.entries) (hsplit : s.chunks.entries = pre ++ (k, c) :: post)
    (hhome : Home sample.timestamp pre c post)
    (hu : Run.upsert policy sample s.toList = .ok (run, done)) :
    ∃ d k' c', writeInto k sample policy s = .ok done { s with chunks := d } ∧
      c.upsert sample policy = .ok (c', done) ∧ d.entries = pre ++ (k', c') :: post ∧
      Laid d.entries ∧ runOf d.entries = run := by
  have hget := SortedMap.get?_of_split hsplit
  have hhold : c.Holds c.toList := h.holds (k, c) (by simp [hsplit])
  have hwhole := (Run.upsert_written h.ascending hu).ascending
  unfold toList at hu
  rw [hsplit, upsert_runOf hhome] at hu
  cases hchunk : Run.upsert policy sample c.toList with
  | error e => rw [hchunk] at hu; cases hu
  | ok r =>
  obtain ⟨run', done⟩ := r
  rw [hchunk] at hu
  cases hu
  have hasc : Run.Ascending c.toList := h.ascending_of_mem (e := (k, c)) (by simp [hsplit])
  have hwritten := Run.upsert_written hasc hchunk
  obtain ⟨c', hc', hhold'⟩ := hhold.upsert_ok hchunk
  have hlist : c'.toList = run' := hhold'.toList
  rw [hsplit] at h
  have hput := SortedMap.entries_insert_of_split hsplit c'
  have hstart : writeInto k sample policy s =
      (do
        if c'.firstTimestamp ≠ c.firstTimestamp then
          refile k c.firstTimestamp c'.firstTimestamp
        return done : Update Upserted) { s with chunks := s.chunks.insert k c' } := by
    unfold writeInto
    rw [bind_of_ok (chunkAt_ok hget _), hc', bind_of_ok (ofExcept_ok _ s)]
    rfl
  -- The samples of the other chunks stay as they are, so only the key is left.
  have hlaid : ∀ k', k' = .ofTimestamp (Run.firstTimestamp run') ∨ pre = [] ∧ k' = seedKey →
      Laid (pre ++ (k', c') :: post) := by
    intro k' hk'
    refine ⟨forall_mem_between.mpr ⟨hlist ▸ hhold', (forall_mem_between.mp h.holds).2⟩, ?_,
      h.filed.splice (hlist ▸ hwritten.ne_nil) (hlist ▸ hk') h.filed.behind⟩
    rw [runOf_append, runOf_cons, hlist]
    exact hwhole
  have hrun : ∀ k', runOf (pre ++ (k', c') :: post) = runOf pre ++ (run' ++ runOf post) := by
    intro k'
    rw [runOf_append, runOf_cons, hlist]
  by_cases hsame : c'.firstTimestamp = c.firstTimestamp
  · refine ⟨s.chunks.insert k c', k, c', ?_, hc', hput, ?_, by rw [hput, hrun]⟩
    · rw [hstart, if_neg (by simp [hsame])]
      rfl
    · rw [hput]
      apply hlaid
      rw [← hhold'.firstTimestamp, hsame, hhold.firstTimestamp]
      by_cases hnil : c.toList = []
      · obtain ⟨hpre, -, hk⟩ := h.filed.of_nil hnil
        exact .inr ⟨hpre, hk⟩
      · exact h.filed.key hnil
  · -- The start moves only where the sample is the first of all.
    have hmoves : c.toList ≠ [] → ¬ Run.firstTimestamp c.toList ≤ sample.timestamp := by
      intro hne hle
      apply hsame
      rw [hhold'.firstTimestamp, hhold.firstTimestamp, hwritten.firstTimestamp_late hasc hne hle]
    have hearly : ∀ x ∈ c.toList, sample.timestamp < x.timestamp := fun x hx =>
      UInt64.lt_of_lt_of_le (UInt64.not_le.mp (hmoves (List.ne_nil_of_mem hx)))
        (hasc.firstTimestamp_le hx)
    have hpre : pre = [] := by
      apply Classical.byContradiction
      intro hne
      exact hmoves (h.filed.inner hne).nonempty (hhome.front hne)
    subst hpre
    have hfirst : c'.firstTimestamp = sample.timestamp := by
      rw [hhold'.firstTimestamp, hwritten.firstTimestamp_early hearly]
    have hkey : k = .ofTimestamp c.firstTimestamp ∨ k = seedKey := by
      by_cases hnil : c.toList = []
      · exact .inr (h.filed.of_nil hnil).2.2
      · rw [hhold.firstTimestamp]
        exact (h.filed.key hnil).imp_right And.right
    have habove : ∀ e ∈ post, compare (ChunkKey.ofTimestamp c'.firstTimestamp) e.1 = .lt :=
      hfirst ▸ lt_of_behind h.filed.behind hhome.behind
    obtain ⟨d, hd, hentries⟩ := refile_ok (s := { s with chunks := s.chunks.insert k c' }) hput
      hkey habove
    refine ⟨d, _, c', ?_, hc', hentries, ?_, by rw [hentries]; exact hrun _⟩
    · rw [hstart, if_pos hsame, bind_of_ok hd]
      rfl
    · rw [hentries]
      exact hlaid _ (.inl (by rw [← hhold'.firstTimestamp]))

/-! ## Writing at any time -/

section Upsert

variable {sample : Sample} {override fallback : DuplicatePolicy}

/-- A write that the run of the series rejects leaves the series as it is. -/
theorem upsert_error {e : StoreError} (h : Laid s.chunks.entries)
    (hu : Run.upsert (.resolve override s.policy fallback) sample s.toList = .error e) :
    upsert sample override fallback s = .error e s := by
  obtain ⟨hblocks, he, hheld⟩ := Run.upsert_error h.ascending hu
  obtain ⟨pre, k, c, post, hsplit, hhome, htarget⟩ := target_ok h sample.timestamp
  unfold upsert
  rw [bind_of_ok (get_apply s), bind_of_ok htarget]
  by_cases hchunk : ∃ x ∈ c.toList, x.timestamp = sample.timestamp
  · rcases makeRoom_held h hsplit hblocks hchunk with hroom | hroom
    · rw [bind_of_ok hroom, bind_of_error (writeInto_error h hsplit hhome hu)]
    · rw [bind_of_error hroom, he]
  · -- The sample that is in the way lies in the chunk that covers its timestamp.
    obtain ⟨x, hx, hxt⟩ := hheld
    simp only [hsplit, runOf_append, runOf_cons, List.mem_append] at hx
    rcases hx with hx | hx | hx
    · exact absurd (hhome.before x hx) (hxt ▸ UInt64.lt_irrefl _)
    · exact absurd ⟨x, hx, hxt⟩ hchunk
    · exact absurd (hhome.behind x hx) (hxt ▸ UInt64.lt_irrefl _)

/-- What a write leaves of the directory: the sample has gone into the chunk that was
chosen for it or into a half of that chunk, and nothing else has changed. -/
def Entered (s : Series) (sample : Sample) (policy : DuplicatePolicy) (done : Upserted)
    (d : Directory Chunk) : Prop :=
  ∃ pre k c post pre₁ k₁ c₁ post₁ k₂ c₂,
    s.chunks.entries = pre ++ (k, c) :: post ∧ target sample.timestamp s = .ok k s ∧
    Room (splitThreshold s.chunkSize.toNat) pre k c post pre₁ k₁ c₁ post₁ ∧
    c₁.upsert sample policy = .ok (c₂, done) ∧ d.entries = pre₁ ++ (k₂, c₂) :: post₁

/-- Any other write does to the run of the series what it does to a single run. -/
theorem upsert_entered {run : List Sample} {done : Upserted} (h : Laid s.chunks.entries)
    (hroom : 16 ≤ s.chunkSize.toNat)
    (hu : Run.upsert (.resolve override s.policy fallback) sample s.toList = .ok (run, done)) :
    ∃ d, upsert sample override fallback s =
        .ok (({ s with chunks := d } : Series).settle sample.timestamp done).2
          (({ s with chunks := d } : Series).settle sample.timestamp done).1 ∧
      Laid d.entries ∧ runOf d.entries = run ∧
      Entered s sample (.resolve override s.policy fallback) done d := by
  obtain ⟨pre, k, c, post, hsplit, hhome, htarget⟩ := target_ok h sample.timestamp
  have hfree : (DuplicatePolicy.resolve override s.policy fallback).blocks = true →
      ∀ x ∈ c.toList, x.timestamp ≠ sample.timestamp := by
    intro hblocks x hx hxt
    have hmem : x ∈ s.toList := by simp [toList, hsplit, hx]
    rw [show Run.upsert _ sample s.toList = _ from
      Run.upsert_rejected h.ascending hblocks ⟨x, hmem, hxt⟩] at hu
    cases hu
  obtain ⟨d, pre', k', c', post', hmake, hsplit', hmade, hlaid, hhome', hrun⟩ :=
    makeRoom_ok h hsplit hhome hroom hfree
  obtain ⟨d', k'', c'', hwrite, hchunk, hentries, hlaid', hrun'⟩ :=
    writeInto_ok (s := { s with chunks := d }) hlaid hsplit' hhome'
      (show Run.upsert _ sample (runOf d.entries) = _ from hrun ▸ hu)
  refine ⟨d', ?_, hlaid', hrun', pre, k, c, post, pre', k', c', post', k'', c'', hsplit, htarget,
    hmade, hchunk, hentries⟩
  unfold upsert
  rw [bind_of_ok (get_apply s), bind_of_ok htarget, bind_of_ok hmake, bind_of_ok hwrite]
  rfl

theorem upsert_ok {run : List Sample} {done : Upserted} (h : Laid s.chunks.entries)
    (hroom : 16 ≤ s.chunkSize.toNat)
    (hu : Run.upsert (.resolve override s.policy fallback) sample s.toList = .ok (run, done)) :
    ∃ d, upsert sample override fallback s =
        .ok (({ s with chunks := d } : Series).settle sample.timestamp done).2
          (({ s with chunks := d } : Series).settle sample.timestamp done).1 ∧
      Laid d.entries ∧ runOf d.entries = run := by
  obtain ⟨d, hup, hlaid, hrun, -⟩ := upsert_entered h hroom hu
  exact ⟨d, hup, hlaid, hrun⟩

end Upsert

end SeriesStore.Series
