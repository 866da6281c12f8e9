import SeriesStore.Proofs.Scans
import SeriesStore.Proofs.Series.Layout
import SeriesStore.Series.Reading

/-!
# Reading from a laid out directory

A scan begins in the chunk that covers the near end of its span. The chunks on one side of that
chunk lie before the span, and the scan goes through those on the other side, so it finds the
samples of the span, all of them and in the order of its direction.

Results:
1. `range_ok`: a range is the part of the run that lies in it.
2. `read_reverse_ok`: read from its end, it is the same part, latest first.
3. `firstTimestamp_entries`: the first timestamp of a series is that of its run.
-/

namespace SeriesStore

/-- A chunk of a run that misses a span lies behind it or before it. -/
theorem Chunk.Holds.misses {c : Chunk} {run : List Sample} (h : c.Holds run)
    (hasc : Run.Ascending run) {span : Span} (hmiss : span.misses c = true) :
    run ≠ [] ∧ ((∀ x ∈ run, span.high < x.timestamp) ∨ ∀ x ∈ run, x.timestamp < span.low) := by
  unfold Span.misses at hmiss
  rw [h.count, h.firstTimestamp, h.lastTimestamp] at hmiss
  simp only [Bool.and_eq_true, Bool.or_eq_true, decide_eq_true_eq] at hmiss
  obtain ⟨hcount, hside⟩ := hmiss
  refine ⟨List.length_pos_iff.mp hcount, hside.imp (fun hhigh x hx => ?_) fun hlow x hx => ?_⟩
  · exact UInt64.lt_of_lt_of_le hhigh (hasc.firstTimestamp_le hx)
  · exact UInt64.lt_of_le_of_lt (hasc.le_lastTimestamp hx) hlow

namespace Series

variable {s : Series}

/-- Where a scan begins and which chunks it goes through. -/
theorem scan_ok (h : Laid s.chunks.entries) (span : Span) :
    ∃ pre k c post, s.chunks.entries = pre ++ (k, c) :: post ∧ Home span.boundary pre c post ∧
      s.scan span = .ok ⟨span, some (c.scan span.reverse,
        if span.reverse then (pre.map (·.2)).reverse else post.map (·.2))⟩ := by
  obtain ⟨pre, k, c, post, hsplit, hhome, hseek⟩ := h.exists_home span.boundary
  refine ⟨pre, k, c, post, hsplit, hhome, ?_⟩
  rw [scan, hseek]
  simp only [chunksBehind, SortedMap.filter_below_of_split hsplit,
    SortedMap.filter_above_of_split hsplit]

theorem read_of_scan {span : Span} {scan : Scan} (h : s.scan span = .ok scan) :
    s.read span = scan.collect := by
  rw [read, h]
  rfl

/-- A range lists the samples that lie in it. -/
theorem range_ok (h : Laid s.chunks.entries) (low high : Timestamp) :
    s.range low high =
      .ok ((runOf s.chunks.entries).filter (({ low, high } : Span).holds ·.timestamp)) := by
  obtain ⟨pre, k, c, post, hsplit, hhome, hscan⟩ := scan_ok h { low, high }
  have hhold : c.Holds c.toList := h.holds (k, c) (by simp [hsplit])
  have hfirst : c.scan false = .ok c.toList := hhold.samples
  have hasc := h.ascending
  rw [hsplit, runOf_append, runOf_cons] at hasc
  have hbefore : (runOf pre).filter (({ low, high } : Span).holds ·.timestamp) = [] := by
    apply List.filter_eq_nil_iff.mpr
    intro x hx
    have hlow : ¬ low ≤ x.timestamp := UInt64.not_le.mpr (hhome.before x hx)
    simp [Span.holds, hlow]
  have hbehind : (post.map (·.2)).flatMap Chunk.toList = runOf post := by
    rw [List.flatMap_map]
    rfl
  rw [range, read_of_scan hscan]
  show Span.collect _ (c.scan false) (post.map (·.2)) = _
  rw [hfirst, Span.collect_ok Chunk.toList, hbehind, hsplit, runOf_append, runOf_cons,
    List.filter_append (runOf pre), hbefore, List.nil_append]
  · intro c' hc'
    obtain ⟨e, he, rfl⟩ := List.mem_map.mp hc'
    exact (h.holds e (by simp [hsplit, he])).samples
  · intro c' hc' hmiss
    obtain ⟨e, he, rfl⟩ := List.mem_map.mp hc'
    have hmem : e ∈ s.chunks.entries := by simp [hsplit, he]
    obtain ⟨hne, hhigh | hlow⟩ := (h.holds e hmem).misses (h.ascending_of_mem hmem) hmiss
    · exact ⟨hne, fun x hx => decide_eq_true (hhigh x hx)⟩
    · obtain ⟨x, hx⟩ := List.exists_mem_of_ne_nil _ hne
      have hpast := hhome.behind x (mem_runOf.mpr ⟨e, he, hx⟩)
      exact absurd (hlow x hx) (UInt64.lt_asymm hpast)
  · rw [hbehind]
    refine (Run.ascending_append.mp hasc).2.1.imp fun {x y} hxy hx => ?_
    exact decide_eq_true (UInt64.lt_trans (of_decide_eq_true hx) hxy)

/-- Read from its end, a range is the same, latest first. -/
theorem read_reverse_ok (h : Laid s.chunks.entries)
    (hplain : ∀ e ∈ s.chunks.entries, e.2.encoding = .plain) (low high : Timestamp) :
    s.read { low, high, reverse := true } =
      .ok ((runOf s.chunks.entries).filter (({ low, high } : Span).holds ·.timestamp)).reverse := by
  obtain ⟨pre, k, c, post, hsplit, hhome, hscan⟩ := scan_ok h { low, high, reverse := true }
  have hlast : c.scan true = .ok c.toList.reverse :=
    (h.holds (k, c) (by simp [hsplit])).scan_reverse (hplain (k, c) (by simp [hsplit]))
  have hasc := h.ascending
  rw [hsplit, runOf_append, runOf_cons, ← List.append_assoc] at hasc
  have hpost : (runOf post).filter (({ low, high } : Span).holds ·.timestamp) = [] := by
    apply List.filter_eq_nil_iff.mpr
    intro x hx
    have hhigh : ¬ x.timestamp ≤ high := UInt64.not_le.mpr (hhome.behind x hx)
    simp [Span.holds, hhigh]
  have hbehind : c.toList.reverse ++ (pre.map (·.2)).reverse.flatMap (·.toList.reverse) =
      (runOf pre ++ c.toList).reverse := by
    rw [List.reverse_append, runOf, List.reverse_flatMap, ← List.map_reverse, List.flatMap_map]
    rfl
  rw [read_of_scan hscan]
  show Span.collect _ (c.scan true) (pre.map (·.2)).reverse = _
  rw [hlast, Span.collect_ok (·.toList.reverse), hbehind, List.filter_reverse, hsplit,
    runOf_append, runOf_cons, ← List.append_assoc, List.filter_append _ (runOf post), hpost,
    List.append_nil]
  · rfl
  · intro c' hc'
    obtain ⟨e, he, rfl⟩ := List.mem_map.mp (List.mem_reverse.mp hc')
    have hmem : e ∈ s.chunks.entries := by simp [hsplit, he]
    exact (h.holds e hmem).scan_reverse (hplain e hmem)
  · intro c' hc' hmiss
    obtain ⟨e, he, rfl⟩ := List.mem_map.mp (List.mem_reverse.mp hc')
    have hmem : e ∈ s.chunks.entries := by simp [hsplit, he]
    obtain ⟨hne, hhigh | hlow⟩ := (h.holds e hmem).misses (h.ascending_of_mem hmem) hmiss
    · obtain ⟨x, hx⟩ := List.exists_mem_of_ne_nil _ hne
      have hbefore := hhome.before x (mem_runOf.mpr ⟨e, he, hx⟩)
      exact absurd (hhigh x hx) (UInt64.lt_asymm hbefore)
    · exact ⟨fun hnil => hne (List.reverse_eq_nil_iff.mp hnil), fun x hx =>
        decide_eq_true (hlow x (List.mem_reverse.mp hx))⟩
  · rw [hbehind]
    refine List.pairwise_reverse.mpr ((Run.ascending_append.mp hasc).1.imp fun {x y} hxy hy => ?_)
    exact decide_eq_true (UInt64.lt_trans hxy (of_decide_eq_true hy))

/-- The first chunk with samples begins where the run does. -/
theorem firstTimestamp_entries (h : Laid s.chunks.entries) (hne : runOf s.chunks.entries ≠ []) :
    (s.chunks.values.find? (·.count > 0)).map (·.firstTimestamp) =
      some (Run.firstTimestamp (runOf s.chunks.entries)) := by
  obtain ⟨e, rest, hentries⟩ := List.exists_cons_of_ne_nil h.filed.ne_nil
  have hhold : e.2.Holds e.2.toList := h.holds e (by simp [hentries])
  have hfull : e.2.toList ≠ [] := by
    intro hnil
    have hrest := (show Filed ([] ++ e :: rest) from hentries ▸ h.filed).of_nil hnil |>.2.1
    exact hne (by simp [hentries, hnil, hrest])
  have hcount : e.2.count > 0 := by
    rw [hhold.count]
    exact List.length_pos_iff.mpr hfull
  have hfirst : Run.firstTimestamp (runOf (e :: rest)) = Run.firstTimestamp e.2.toList := by
    rw [runOf_cons]
    cases hlist : e.2.toList with
    | nil => exact absurd hlist hfull
    | cons => rfl
  rw [SortedMap.values, hentries, List.map_cons, List.find?_cons_of_pos (by simpa using hcount),
    Option.map_some, hhold.firstTimestamp, hfirst]

end Series

end SeriesStore
