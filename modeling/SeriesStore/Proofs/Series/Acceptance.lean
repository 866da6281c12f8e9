import SeriesStore.Proofs.Series.Rules

/-!
# Seen and accepted samples

What a rule has seen of a series is compared with all samples that the series has
accepted since the rule was made. The buckets are the same and so is the last sample, but
a late sample makes the rule read its bucket again, and what was dropped of the bucket by
then is no longer seen.

Results:
1. `Accounts.placed`, `Accounts.put`: one more sample is accepted.
2. `Accounts.read`: what a destination tells of the accepted samples.
-/

namespace SeriesStore

/-- Samples in the order of their timestamps. -/
def inOrder (samples : List Sample) : List Sample :=
  samples.mergeSort fun x y => x.timestamp ≤ y.timestamp

theorem mem_inOrder {samples : List Sample} {x : Sample} : x ∈ inOrder samples ↔ x ∈ samples :=
  List.mem_mergeSort

theorem inOrder_ascending {samples : List Sample} (h : (samples.map (·.timestamp)).Nodup) :
    Run.Ascending (inOrder samples) := by
  have hsorted :
      (inOrder samples).Pairwise fun x y => decide (x.timestamp ≤ y.timestamp) = true := by
    refine List.pairwise_mergeSort (fun x y z hxy hyz => ?_) (fun x y => ?_) samples
    · exact decide_eq_true (UInt64.le_trans (of_decide_eq_true hxy) (of_decide_eq_true hyz))
    · rw [Bool.or_eq_true, decide_eq_true_eq, decide_eq_true_eq]
      exact UInt64.le_total _ _
  have hdistinct : (inOrder samples).Pairwise fun x y => x.timestamp ≠ y.timestamp := by
    have hperm := (List.mergeSort_perm samples fun x y => x.timestamp ≤ y.timestamp).map
      (·.timestamp)
    exact List.pairwise_map.mp (hperm.nodup_iff.mpr h)
  exact (hsorted.and hdistinct).imp fun ⟨hle, hne⟩ =>
    UInt64.lt_of_le_of_ne (of_decide_eq_true hle) hne

/-! ## What has been seen of the accepted samples -/

/-- How the samples that a rule has seen agree with those that were accepted: the last one
and the buckets are the same, and nothing of a whole bucket is missing. -/
structure Accounts (length : UInt64) (whole : Timestamp → Prop) (accepted run : List Sample) :
    Prop where
  within : ∀ y ∈ run, y ∈ accepted
  bounded : ∀ y ∈ accepted, y.timestamp ≤ Run.lastTimestamp run
  present : ∀ y ∈ accepted, ∃ z ∈ run,
    windowStart z.timestamp length = windowStart y.timestamp length
  complete : ∀ y ∈ accepted, whole (windowStart y.timestamp length) → y ∈ run

section Accounts

variable {length b : UInt64} {whole whole' : Timestamp → Prop} {accepted run run' : List Sample}
  {x : Sample} {s base : Series}

theorem Accounts.placed (h : Accounts length whole accepted run)
    (hpast : ∀ y ∈ run, y.timestamp < x.timestamp) (hwhole : ∀ b, whole' b → whole b) :
    Accounts length whole' (accepted ++ [x]) (run ++ [x]) := by
  refine ⟨fun y hy => ?_, fun y hy => ?_, fun y hy => ?_, fun y hy hb => ?_⟩
  · exact List.mem_append.mpr ((List.mem_append.mp hy).imp_left (h.within y))
  · rw [Run.lastTimestamp_concat]
    rcases List.mem_append.mp hy with hy | hy
    · obtain ⟨z, hz, -⟩ := h.present y hy
      obtain ⟨w, hw, hlast⟩ := Run.lastTimestamp_mem (List.ne_nil_of_mem hz)
      exact UInt64.le_trans (h.bounded y hy) (UInt64.le_of_lt (hlast ▸ hpast w hw))
    · rw [List.mem_singleton.mp hy]
      exact UInt64.le_refl _
  · rcases List.mem_append.mp hy with hy | hy
    · obtain ⟨z, hz, hsame⟩ := h.present y hy
      exact ⟨z, List.mem_append_left _ hz, hsame⟩
    · exact ⟨y, List.mem_append_right _ hy, rfl⟩
  · exact List.mem_append.mpr
      ((List.mem_append.mp hy).imp_left fun hy => h.complete y hy (hwhole _ hb))

/-- A late sample keeps its bucket whole only where all of it is still stored. -/
theorem Accounts.put (h : Accounts length whole accepted run) (hseen : s.Seen run)
    (hp : Series.Put s x base) (hrenewed : Renewed length x.timestamp base.toList run run')
    (hfresh : ∀ y ∈ accepted, y.timestamp ≠ x.timestamp) (hwhole : ∀ b, whole' b → whole b)
    (hfound : whole' (windowStart x.timestamp length) → ∀ y ∈ accepted,
      windowStart y.timestamp length = windowStart x.timestamp length → y ∈ s.toList) :
    Accounts length whole' (accepted ++ [x]) run' := by
  have hx := (hrenewed.own x rfl).mpr hp.stored
  refine ⟨fun y hy => ?_, fun y hy => ?_, fun y hy => ?_, fun y hy hb => ?_⟩
  · rw [List.mem_append, List.mem_singleton]
    by_cases hown : windowStart y.timestamp length = windowStart x.timestamp length
    · rcases hp.mem_iff.mp ((hrenewed.own y hown).mp hy) with rfl | ⟨-, hy⟩
      · exact .inr rfl
      · exact .inl (h.within y (hseen.stored y hy))
    · exact .inl (h.within y ((hrenewed.others y hown).mp hy))
  · rw [hrenewed.last]
    rcases List.mem_append.mp hy with hy | hy
    · exact h.bounded y hy
    · rw [List.mem_singleton.mp hy, hseen.last]
      exact hp.inside
  · by_cases hown : windowStart y.timestamp length = windowStart x.timestamp length
    · exact ⟨x, hx, hown.symm⟩
    · rcases List.mem_append.mp hy with hy | hy
      · obtain ⟨z, hz, hsame⟩ := h.present y hy
        exact ⟨z, (hrenewed.others z (hsame ▸ hown)).mpr hz, hsame⟩
      · exact absurd (by rw [List.mem_singleton.mp hy]) hown
  · by_cases hown : windowStart y.timestamp length = windowStart x.timestamp length
    · rcases List.mem_append.mp hy with hy | hy
      · have hstored := hfound (hown ▸ hb) y hy hown
        exact (hrenewed.own y hown).mpr ((hp.others y (hfresh y hy)).mpr hstored)
      · rw [List.mem_singleton.mp hy]
        exact hx
    · rcases List.mem_append.mp hy with hy | hy
      · exact (hrenewed.others y hown).mpr (h.complete y hy (hwhole _ hb))
      · exact absurd (by rw [List.mem_singleton.mp hy]) hown

theorem Accounts.lastTimestamp_eq (h : Accounts length whole accepted run)
    (hdistinct : (accepted.map (·.timestamp)).Nodup) :
    Run.lastTimestamp (inOrder accepted) = Run.lastTimestamp run := by
  by_cases hnil : run = []
  · have hnone : inOrder accepted = [] := by
      apply List.eq_nil_iff_forall_not_mem.mpr
      intro y hy
      obtain ⟨z, hz, -⟩ := h.present y (mem_inOrder.mp hy)
      rw [hnil] at hz
      cases hz
    rw [hnil, hnone]
  · obtain ⟨y, hy, hlast⟩ := Run.lastTimestamp_mem hnil
    have hmem := mem_inOrder.mpr (h.within y hy)
    obtain ⟨z, hz, hend⟩ := Run.lastTimestamp_mem (List.ne_nil_of_mem hmem)
    refine UInt64.le_antisymm (hend ▸ h.bounded z (mem_inOrder.mp hz)) ?_
    rw [← hlast]
    exact (inOrder_ascending hdistinct).le_lastTimestamp hmem

theorem Accounts.closed_iff (h : Accounts length whole accepted run) (hlength : length ≠ 0)
    (hdistinct : (accepted.map (·.timestamp)).Nodup) :
    Closed length b run ↔ Closed length b (inOrder accepted) := by
  have hlast := h.lastTimestamp_eq hdistinct
  have hfilled : length.toNat ∣ b.toNat →
      (bucketOf b length run ≠ [] ↔ bucketOf b length (inOrder accepted) ≠ []) := by
    intro haligned
    rw [bucketOf_eq hlength haligned, bucketOf_eq hlength haligned]
    constructor
    · intro hne
      obtain ⟨y, hy⟩ := List.exists_mem_of_ne_nil _ hne
      obtain ⟨hy, hown⟩ := List.mem_filter.mp hy
      exact List.ne_nil_of_mem (List.mem_filter.mpr ⟨mem_inOrder.mpr (h.within y hy), hown⟩)
    · intro hne
      obtain ⟨y, hy⟩ := List.exists_mem_of_ne_nil _ hne
      obtain ⟨hy, hown⟩ := List.mem_filter.mp hy
      obtain ⟨z, hz, hsame⟩ := h.present y (mem_inOrder.mp hy)
      exact List.ne_nil_of_mem (List.mem_filter.mpr ⟨hz, by rw [hsame]; exact hown⟩)
  constructor
  · rintro ⟨haligned, hbefore, hne⟩
    exact ⟨haligned, hlast.symm ▸ hbefore, (hfilled haligned).mp hne⟩
  · rintro ⟨haligned, hbefore, hne⟩
    exact ⟨haligned, hlast ▸ hbefore, (hfilled haligned).mpr hne⟩

/-- A whole bucket is seen as it was accepted. -/
theorem Accounts.bucketOf_eq (h : Accounts length whole accepted run) (hlength : length ≠ 0)
    (hb : length.toNat ∣ b.toNat) (hasc : Run.Ascending run)
    (hdistinct : (accepted.map (·.timestamp)).Nodup) (hwhole : whole b) :
    bucketOf b length run = bucketOf b length (inOrder accepted) := by
  rw [SeriesStore.bucketOf_eq hlength hb, SeriesStore.bucketOf_eq hlength hb]
  refine (inOrder_ascending hdistinct).filter_eq hasc fun y hy => ?_
  have hown := of_decide_eq_true hy
  rw [mem_inOrder]
  exact ⟨h.within y, fun hy => h.complete y hy (hown ▸ hwhole)⟩

end Accounts

/-- The destination holds one sample for each closed bucket, with the aggregate of its
samples where the bucket is whole. -/
structure DownsampledWhere (aggregation : Aggregation) (length : UInt64)
    (whole : Timestamp → Prop) (run dest : List Sample) : Prop where
  ascending : Run.Ascending dest
  starts : ∀ start, (∃ v, ⟨start, v⟩ ∈ dest) ↔ Closed length start run
  values : ∀ y ∈ dest, whole y.timestamp →
    bucketValue aggregation length y.timestamp run = some y.value

theorem Accounts.read {aggregation : Aggregation} {length : UInt64} {whole : Timestamp → Prop}
    {accepted run dest : List Sample} (h : Accounts length whole accepted run)
    (hlength : length ≠ 0) (hasc : Run.Ascending run)
    (hdistinct : (accepted.map (·.timestamp)).Nodup)
    (hd : Downsampled aggregation length run dest) :
    DownsampledWhere aggregation length whole (inOrder accepted) dest := by
  refine ⟨hd.ascending, fun start => ?_, fun y hy hwhole => ?_⟩
  · rw [hd.starts, h.closed_iff hlength hdistinct]
  · have hclosed := (hd.starts y.timestamp).mp ⟨y.value, hy⟩
    unfold bucketValue
    rw [← h.bucketOf_eq hlength hclosed.aligned hasc hdistinct hwhole]
    exact hd.values y hy

section DownsampledWhere

variable {aggregation : Aggregation} {length : UInt64} {whole : Timestamp → Prop}
  {run dest dest' : List Sample}

/-- Where all buckets are whole, the destination is downsampled from the run. -/
theorem DownsampledWhere.downsampled (h : DownsampledWhere aggregation length whole run dest)
    (hwhole : ∀ b, whole b) : Downsampled aggregation length run dest :=
  ⟨h.ascending, h.starts, fun y hy => h.values y hy (hwhole _)⟩

/-- The destination has the timestamps of one that is downsampled from the run. -/
theorem DownsampledWhere.timestamps_eq (h : DownsampledWhere aggregation length whole run dest)
    (h' : Downsampled aggregation length run dest') :
    dest.map (·.timestamp) = dest'.map (·.timestamp) := by
  have : Std.Irrefl fun t u : Timestamp => t < u := ⟨UInt64.lt_irrefl⟩
  have : Std.Antisymm fun t u : Timestamp => t < u :=
    ⟨fun _ _ hlt hgt => absurd hgt (UInt64.lt_asymm hlt)⟩
  have hmem : ∀ {dest : List Sample} {start : Timestamp},
      start ∈ dest.map (·.timestamp) ↔ ∃ v, ⟨start, v⟩ ∈ dest := by
    intro dest start
    rw [List.mem_map]
    exact ⟨fun ⟨y, hy, heq⟩ => ⟨y.value, heq ▸ hy⟩, fun ⟨v, hv⟩ => ⟨_, hv, rfl⟩⟩
  refine List.Pairwise.eq_of_mem_iff (List.pairwise_map.mpr h.ascending)
    (List.pairwise_map.mpr h'.ascending) fun start => ?_
  rw [hmem, hmem, h.starts, h'.starts]

/-- And it has the samples of that one where buckets are whole. -/
theorem DownsampledWhere.mem_iff (h : DownsampledWhere aggregation length whole run dest)
    (h' : Downsampled aggregation length run dest') {b : Timestamp} (hwhole : whole b) (v : Value) :
    ⟨b, v⟩ ∈ dest ↔ ⟨b, v⟩ ∈ dest' := by
  constructor
  · intro hv
    obtain ⟨u, hu⟩ := (h'.starts b).mpr ((h.starts b).mp ⟨v, hv⟩)
    have hvalue : some u = some v := (h'.values _ hu).symm.trans (h.values _ hv hwhole)
    cases hvalue
    exact hu
  · intro hv
    obtain ⟨u, hu⟩ := (h.starts b).mpr ((h'.starts b).mp ⟨v, hv⟩)
    have hvalue : some u = some v := (h.values _ hu hwhole).symm.trans (h'.values _ hv)
    cases hvalue
    exact hu

end DownsampledWhere

end SeriesStore
