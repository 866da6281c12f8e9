import SeriesStore.Proofs.Series.Writing

/-!
# Appending keeps the layout

A sample past all others ends the run of a series. It goes into the last chunk or
opens a new one, and only before the latter are chunks dropped, which are then
the first ones and never all of them.

Results:
1. `tooOld_iff`, `validFrom_eq`: the start of the retention window, however it is told.
2. `trim_ok`: what is dropped is a front part of the run, and its length is known.
3. `place_ok`: a sample is placed at the end of what is kept.
-/

namespace SeriesStore.Series

variable {s : Series} {pre : List (ChunkKey × Chunk)} {k : ChunkKey} {c : Chunk} {sample : Sample}

/-! ## The last chunk -/

/-- The last chunk holds the last sample, and none where there is none. -/
theorem lastTimestamp_runOf (h : Laid (pre ++ [(k, c)])) :
    Run.lastTimestamp (runOf (pre ++ [(k, c)])) = Run.lastTimestamp c.toList := by
  rw [runOf_append, runOf_cons, runOf_nil, List.append_nil]
  by_cases hnil : c.toList = []
  · rw [(h.filed.of_nil hnil).1]
    rfl
  · obtain ⟨front, last, hlast⟩ := (List.eq_nil_or_concat c.toList).resolve_left hnil
    rw [hlast, List.concat_eq_append, ← List.append_assoc, Run.lastTimestamp_concat,
      Run.lastTimestamp_concat]

/-! ## The retention window -/

theorem toNat_before (t : Timestamp) (span : UInt64) :
    (Timestamp.before t span).toNat = t.toNat - span.toNat := by
  unfold Timestamp.before
  split
  · rename_i hlt
    rw [UInt64.lt_iff_toNat_lt] at hlt
    rw [UInt64.toNat_zero]
    omega
  · rename_i hle
    exact UInt64.toNat_sub_of_le _ _ (UInt64.not_lt.mp hle)

/-- A series that keeps its samples for ever has a window over all time. -/
theorem oldest_of_forever (h : s.retention = 0) : s.oldest = 0 := by
  unfold oldest
  rw [if_pos h]

theorem toNat_oldest (h : s.retention ≠ 0) :
    s.oldest.toNat = s.lastTimestamp.toNat - s.retention.toNat := by
  unfold oldest
  rw [if_neg h, toNat_before]

/-- The window reaches back at least as far as samples are kept. -/
theorem toNat_oldest_le (s : Series) :
    s.oldest.toNat ≤ s.lastTimestamp.toNat - s.retention.toNat := by
  by_cases h : s.retention = 0
  · rw [oldest_of_forever h]
    exact Nat.zero_le _
  · exact Nat.le_of_eq (toNat_oldest h)

theorem oldest_le (s : Series) : s.oldest ≤ s.lastTimestamp :=
  UInt64.le_iff_toNat_le.mpr (Nat.le_trans s.toNat_oldest_le (Nat.sub_le _ _))

/-- Something lies before the window only where samples are not kept for ever. -/
theorem retention_ne_zero {t : Timestamp} (h : t < s.oldest) : s.retention ≠ 0 := fun hforever =>
  UInt64.not_lt_zero (oldest_of_forever hforever ▸ h)

/-- Then the window does not reach back to the beginning of time. -/
theorem sub_retention_eq {t : Timestamp} (h : t < s.oldest) :
    s.lastTimestamp - s.retention = s.oldest := by
  have hkept := retention_ne_zero h
  rw [UInt64.lt_iff_toNat_lt, toNat_oldest hkept] at h
  have hle : s.retention ≤ s.lastTimestamp := by
    rw [UInt64.le_iff_toNat_le]
    omega
  rw [← UInt64.toNat_inj, toNat_oldest hkept, UInt64.toNat_sub_of_le _ _ hle]

/-- The samples that are too old are those before the window. -/
theorem tooOld_iff {t : Timestamp} : s.tooOld t = true ↔ t < s.oldest := by
  unfold tooOld
  simp only [Bool.and_eq_true, decide_eq_true_iff]
  constructor
  · rintro ⟨⟨hkept, hlt⟩, hfar⟩
    rw [gt_iff_lt, UInt64.lt_iff_toNat_lt, UInt64.toNat_sub_of_le _ _ (UInt64.le_of_lt hlt)] at hfar
    rw [UInt64.lt_iff_toNat_lt, toNat_oldest (UInt64.pos_iff_ne_zero.mp hkept)]
    omega
  · intro hold
    have hkept := retention_ne_zero hold
    have hlt := UInt64.lt_of_lt_of_le hold s.oldest_le
    refine ⟨⟨UInt64.pos_iff_ne_zero.mpr hkept, hlt⟩, ?_⟩
    rw [UInt64.lt_iff_toNat_lt, toNat_oldest hkept] at hold
    rw [gt_iff_lt, UInt64.lt_iff_toNat_lt, UInt64.toNat_sub_of_le _ _ (UInt64.le_of_lt hlt)]
    omega

/-- Samples are valid from the start of the window on. -/
theorem validFrom_eq (s : Series) : s.validFrom = s.oldest := by
  unfold validFrom
  simp only [Bool.and_eq_true, decide_eq_true_iff]
  split
  · next hinside =>
    rw [← UInt64.toNat_inj, toNat_oldest (UInt64.pos_iff_ne_zero.mp hinside.1),
      UInt64.toNat_sub_of_le _ _ (UInt64.le_of_lt hinside.2)]
  · next houtside =>
    by_cases hforever : s.retention = 0
    · exact (oldest_of_forever hforever).symm
    · have hle := UInt64.not_lt.mp fun hlt =>
        houtside ⟨UInt64.pos_iff_ne_zero.mpr hforever, hlt⟩
      rw [← UInt64.toNat_inj, toNat_oldest hforever,
        Nat.sub_eq_zero_of_le (UInt64.le_iff_toNat_le.mp hle)]
      rfl

/-- Nothing lies before the window of a series that keeps its samples for ever. -/
theorem eq_nil_of_forever (hforever : s.retention = 0) {gone : List Sample}
    (hgone : ∀ x ∈ gone, x.timestamp < s.oldest) : gone = [] := by
  apply List.eq_nil_iff_forall_not_mem.mpr
  intro x hx
  exact retention_ne_zero (hgone x hx) hforever

/-! ## Dropping chunks -/

/-- The samples that are dropped are counted chunk by chunk. -/
theorem trim_count (s : Series) :
    s.trim.2 =
      ((s.chunks.entries.takeWhile fun e => expired s.oldest e.2).map (·.2.count)).sum := by
  unfold trim SortedMap.values
  simp only [List.takeWhile_map, List.foldl_map, List.sum_eq_foldl]
  rfl

/-- The chunks that are dropped are the first ones, and one is left. -/
theorem trim_ok (h : Laid s.chunks.entries)
    (hlast : s.lastTimestamp = Run.lastTimestamp s.toList) :
    ∃ d gone, s.trim = ({ s with
        chunks := d
        totalSamples := s.totalSamples - gone.length }, gone.length) ∧
      Laid d.entries ∧ s.toList = gone ++ runOf d.entries ∧
      (s.toList ≠ [] → runOf d.entries ≠ []) ∧ ∀ x ∈ gone, x.timestamp < s.oldest := by
  let stale := fun e : ChunkKey × Chunk => expired s.oldest e.2
  have happend : s.chunks.entries.takeWhile stale ++ s.chunks.entries.dropWhile stale =
      s.chunks.entries := List.takeWhile_append_dropWhile
  have hall : ∀ e ∈ s.chunks.entries.takeWhile stale, e.2.lastTimestamp < s.oldest := by
    intro e he
    have hstale := List.all_eq_true.mp List.all_takeWhile e he
    simpa [stale, expired] using hstale
  have hkept : s.chunks.entries.dropWhile stale ≠ [] := by
    rcases List.eq_nil_or_concat s.chunks.entries with hnil | ⟨front, ⟨k, c⟩, hentries⟩
    · exact absurd hnil h.filed.ne_nil
    rw [List.concat_eq_append] at hentries
    have hhold : c.Holds c.toList := h.holds (k, c) (by simp [hentries])
    have hends : c.lastTimestamp = s.lastTimestamp := by
      rw [hhold.lastTimestamp, hlast, toList, hentries, lastTimestamp_runOf (hentries ▸ h)]
    intro hnil
    rw [hnil, List.append_nil] at happend
    have hstale := hall (k, c) (by rw [happend, hentries]; simp)
    exact absurd s.oldest_le (UInt64.not_le.mpr (hends ▸ hstale))
  have hcount : s.trim.2 = (runOf (s.chunks.entries.takeWhile stale)).length :=
    (trim_count s).trans (length_runOf fun e he => h.holds e (List.takeWhile_subset _ he))
  refine ⟨s.chunks.dropWhile (expired s.oldest), runOf (s.chunks.entries.takeWhile stale), ?_,
    (happend.symm ▸ h).suffix hkept, ?_, fun hne hnil => ?_, fun x hx => ?_⟩
  · rw [← hcount]
    rfl
  · unfold toList
    rw [SortedMap.dropWhile, ← runOf_append, happend]
  · obtain ⟨e, rest, hrest⟩ := List.exists_cons_of_ne_nil hkept
    have hnil : runOf (e :: rest) = [] := hrest ▸ hnil
    rw [hrest] at happend
    have hchunk : e.2.toList = [] := (List.append_eq_nil_iff.mp hnil).1
    have hpre := (happend.symm ▸ h).filed.of_nil hchunk |>.1
    exact hne (by rw [toList, ← happend, hpre, List.nil_append, hnil])
  · obtain ⟨e, he, hxe⟩ := mem_runOf.mp hx
    have hentry := List.takeWhile_subset _ he
    refine UInt64.lt_of_le_of_lt ?_ (hall e he)
    rw [(h.holds e hentry).lastTimestamp]
    exact (h.ascending_of_mem hentry).le_lastTimestamp hxe

/-! ## Placing a sample -/

/-- A sample past all others opens a chunk behind all others. -/
theorem openChunk_ok (h : Laid s.chunks.entries) (hne : s.toList ≠ [])
    (hpast : ∀ x ∈ s.toList, x.timestamp < sample.timestamp) :
    ∃ d, openChunk sample s = .ok () { s with chunks := d } ∧ Laid d.entries ∧
      runOf d.entries = s.toList ++ [sample] := by
  have hgap : s.chunks.entries = s.chunks.entries ++ [] := by simp
  have haround : SortedMap.Around (ChunkKey.ofTimestamp sample.timestamp) s.chunks.entries [] := by
    refine ⟨fun e he => ?_, by simp⟩
    obtain ⟨pre, post, hsplit⟩ := List.append_of_mem he
    have hfull : e.2.toList ≠ [] := by
      intro hnil
      obtain ⟨hpre, hpost, -⟩ := (hsplit ▸ h).filed.of_nil hnil
      exact hne (by simp [toList, hsplit, hpre, hpost, hnil])
    obtain ⟨x, hx, hfirst⟩ := Run.firstTimestamp_mem hfull
    exact lt_of_key ((hsplit ▸ h).filed.key hfull)
      (hfirst ▸ hpast x (mem_runOf.mpr ⟨e, he, hx⟩))
  have hnew : s.chunks.contains (.ofTimestamp sample.timestamp) = false := by
    rw [SortedMap.contains_eq_isSome, SortedMap.get?_of_gap hgap haround]
    rfl
  have hempty := Chunk.empty_holds s.encoding s.chunkSize.toNat
  obtain ⟨c, hc⟩ := hempty.add_first sample
  have hhold : c.Holds [sample] := hempty.add hc
  have hentries := SortedMap.entries_insert_of_gap hgap haround c
  have hrun : runOf (s.chunks.entries ++ [(ChunkKey.ofTimestamp sample.timestamp, c)]) =
      s.toList ++ [sample] := by
    rw [runOf_append, runOf_cons, hhold.toList]
    rfl
  refine ⟨s.chunks.insert (.ofTimestamp sample.timestamp) c, ?_, ?_, by rw [hentries, hrun]⟩
  · unfold openChunk
    rw [bind_of_ok (get_apply s)]
    simp only [hnew, hc]
    rfl
  · rw [hentries]
    refine ⟨fun e he => ?_, ?_, h.filed.concat hne ⟨?_, ?_⟩⟩
    · rcases List.mem_append.mp he with he | he
      · exact h.holds e he
      · rw [List.mem_singleton.mp he]
        exact hhold.toList ▸ hhold
    · rw [hrun]
      refine Run.ascending_append.mpr ⟨h.ascending, by simp [Run.Ascending], fun x hx y hy => ?_⟩
      rw [List.mem_singleton.mp hy]
      exact hpast x hx
    · simp [hhold.toList]
    · rw [hhold.toList]
      rfl

/-- The last chunk takes a sample past all others. -/
theorem extend_laid {c' : Chunk} (h : Laid s.chunks.entries)
    (hsplit : s.chunks.entries = pre ++ [(k, c)])
    (hpast : ∀ x ∈ s.toList, x.timestamp < sample.timestamp) (hadd : c.add? sample = some c') :
    Laid (s.chunks.insert k c').entries ∧
      runOf (s.chunks.insert k c').entries = s.toList ++ [sample] := by
  have hhold : c.Holds c.toList := h.holds (k, c) (by simp [hsplit])
  have hhold' := hhold.add hadd
  have hlist : c'.toList = c.toList ++ [sample] := hhold'.toList
  have hrun : runOf (pre ++ [(k, c')]) = s.toList ++ [sample] := by
    simp [toList, hsplit, hlist]
  rw [SortedMap.entries_insert_of_split hsplit]
  have hothers := (forall_mem_between.mp (hsplit ▸ h.holds)).2
  refine ⟨⟨forall_mem_between.mpr ⟨hlist ▸ hhold', hothers⟩, ?_, ?_⟩, hrun⟩
  · rw [hrun]
    refine Run.ascending_append.mpr ⟨h.ascending, by simp [Run.Ascending], fun x hx y hy => ?_⟩
    rw [List.mem_singleton.mp hy]
    exact hpast x hx
  · have hfiled := hsplit ▸ h.filed
    refine hfiled.splice (by simp [hlist]) ?_ (by simp)
    by_cases hnil : c.toList = []
    · obtain ⟨hpre, -, hk⟩ := hfiled.of_nil hnil
      exact .inr ⟨hpre, hk⟩
    · have hfirst : Run.firstTimestamp c'.toList = Run.firstTimestamp c.toList := by
        rw [hlist]
        cases hc : c.toList with
        | nil => exact absurd hc hnil
        | cons => rfl
      rw [hfirst]
      exact hfiled.key hnil

/-- A sample past all others is placed at the end of what is kept of the run. -/
theorem place_ok (h : Laid s.chunks.entries) (hlast : s.lastTimestamp = Run.lastTimestamp s.toList)
    (hpast : ∀ x ∈ s.toList, x.timestamp < sample.timestamp) :
    ∃ d gone kept, place sample s = .ok () { s with
        chunks := d
        totalSamples := s.totalSamples - gone.length } ∧
      Laid d.entries ∧ s.toList = gone ++ kept ∧ runOf d.entries = kept ++ [sample] ∧
      ∀ x ∈ gone, x.timestamp < s.oldest := by
  rcases List.eq_nil_or_concat s.chunks.entries with hnil | ⟨pre, ⟨k, c⟩, hsplit⟩
  · exact absurd hnil h.filed.ne_nil
  rw [List.concat_eq_append] at hsplit
  have hmax : s.chunks.last? = some (k, c) := by rw [SortedMap.last?, hsplit]; simp
  have hhold : c.Holds c.toList := h.holds (k, c) (by simp [hsplit])
  cases hadd : c.add? sample with
  | some c' =>
    obtain ⟨hlaid, hrun⟩ := extend_laid h hsplit hpast hadd
    refine ⟨_, [], s.toList, ?_, hlaid, rfl, hrun, by simp⟩
    unfold place
    rw [bind_of_ok (get_apply s)]
    simp only [hmax, hadd]
    rfl
  | none =>
    obtain ⟨d, gone, htrim, hlaid, happend, hkept, hkeep⟩ := trim_ok h hlast
    have hfull : c.toList ≠ [] := by
      intro hnil
      obtain ⟨c', hc'⟩ := (hnil ▸ hhold).add_first sample
      rw [hc'] at hadd
      cases hadd
    have hne : runOf d.entries ≠ [] := hkept (by simp [toList, hsplit, hfull])
    have hpast' : ∀ x ∈ s.trim.1.toList, x.timestamp < sample.timestamp := by
      rw [htrim]
      exact fun x hx => hpast x (happend ▸ List.mem_append_right _ hx)
    obtain ⟨d', hopen, hlaid', hrun⟩ := openChunk_ok (htrim ▸ hlaid) (htrim ▸ hne) hpast'
    refine ⟨d', gone, runOf d.entries, ?_, hlaid', happend, ?_, hkeep⟩
    · unfold place
      rw [bind_of_ok (get_apply s)]
      simp only [hmax, hadd]
      show openChunk sample s.trim.1 = _
      rw [hopen, htrim]
    · rw [hrun, htrim]
      rfl

end SeriesStore.Series
