import SeriesStore.Proofs.Series.Uniformity

/-!
# Scanning a series

A series keeps the encoding that it is made with, and so do its chunks. A plain series can
therefore be scanned in both directions, a compressed one only forwards: scanned from its end,
it gives one failure and nothing behind it. A scan that succeeds gives the samples of its span,
and those are told by looking at each stored sample alone.

Results:
1. `Call.run_encoded`: whatever calls are made, the encoding stays.
2. `scans_run`: after any calls, what the scans of any span give, step by step and as a whole.
-/

namespace SeriesStore.Series

variable {encoding : Encoding} {s : Series}

/-! ## The encoding of a series -/

/-- The series and all of its chunks are of the encoding. -/
structure Encoded (encoding : Encoding) (s : Series) : Prop where
  series : s.encoding = encoding
  chunks : ∀ e ∈ s.chunks.entries, e.2.encoding = encoding

theorem encoded_iff : s.Encoded encoding ↔ s.Uniform (·.encoding = encoding) := by
  have hfresh := Chunk.encoding_empty s.encoding s.chunkSize.toNat
  exact ⟨fun h => ⟨hfresh.trans h.series, h.chunks⟩, fun h => ⟨hfresh.symm.trans h.fresh, h.chunks⟩⟩

theorem new_encoded (key : String) (options : SeriesOptions) :
    (new key options).Encoded options.encoding :=
  encoded_iff.mpr (new_uniform key options (Chunk.encoding_empty _ _))

/-- Whatever is done to a chunk, its encoding stays. -/
theorem kept_encoding (encoding : Encoding) : Kept (·.encoding = encoding) where
  add hc hadd := (Chunk.encoding_add hadd).trans hc
  upsert hc hu := (Chunk.encoding_upsert hu).trans hc
  split hc hcut := (Chunk.encoding_split hcut).imp (·.trans hc) (·.trans hc)

theorem Call.run_encoded (h : s.Encoded encoding) (calls : List Call) :
    (runAll perform calls s).Encoded encoding :=
  encoded_iff.mpr ((encoded_iff.mp h).run (kept_encoding encoding) calls)

/-! ## Scans -/

/-- A scan of the span can be opened, gives these items, one a step, and then nothing. -/
def Opens (s : Series) (span : Span) (items : List (Except StoreError Sample)) : Prop :=
  ∃ scan, s.scan span = .ok scan ∧ scan.Gives items

/-- What can be read of a span as a whole is what a scan of it gives. -/
theorem opens_of_read (h : Laid s.chunks.entries) {span : Span} {samples : List Sample}
    (hread : s.read span = .ok samples) : s.Opens span (samples.map .ok) := by
  obtain ⟨pre, k, c, post, -, -, hscan⟩ := scan_ok h span
  refine ⟨_, hscan, Scan.gives_of_collect ?_⟩
  rwa [read_of_scan hscan] at hread

/-- A compressed series is not scanned from its end. -/
theorem opens_reverse_compressed (h : Laid s.chunks.entries) (hcoded : s.Encoded .compressed)
    (low high : Timestamp) : s.Opens { low, high, reverse := true }
      [.error (.unsupported "reverse iteration over compressed chunks")] := by
  obtain ⟨pre, k, c, post, hsplit, -, hscan⟩ := scan_ok h { low, high, reverse := true }
  have hc : c.encoding = .compressed := hcoded.chunks (k, c) (by simp [hsplit])
  have hopen : c.scan ({ low, high, reverse := true } : Span).reverse = _ :=
    Chunk.scan_reverse_compressed hc
  rw [hopen] at hscan
  exact ⟨_, hscan, Scan.gives_of_unreadable rfl⟩

/-- Whatever calls are made on a new series, a range lists the samples that lie in it, in
ascending order; a plain series lists them in descending order as well, and a compressed one
gives a failure instead. What is read as a whole is what a scan gives step by step, and a scan
that has given nothing or a failure gives nothing any more. -/
theorem scans_run (key : String) (options : SeriesOptions) (calls : List Call)
    (low high : Timestamp) (h : Call.Admits calls (new key options)) :
    let s := runAll Call.perform calls (new key options)
    let inside := s.toList.filter fun x => low ≤ x.timestamp ∧ x.timestamp ≤ high
    Run.Ascending inside ∧
      s.range low high = .ok inside ∧
      s.Opens { low, high } (inside.map .ok) ∧
      (options.encoding = .plain →
        s.read { low, high, reverse := true } = .ok inside.reverse ∧
          s.Opens { low, high, reverse := true } (inside.reverse.map .ok)) ∧
      (options.encoding = .compressed → s.Opens { low, high, reverse := true }
        [.error (.unsupported "reverse iteration over compressed chunks")]) ∧
      ∀ reverse, ∃ scan, s.scan { low, high, reverse } = .ok scan ∧ ∀ n front item back,
        scan.outputs n = front ++ item :: back → Scan.Ends item → ∀ later ∈ back, later = none := by
  intro s inside
  have hvalid : s.Valid := Call.run_valid (new_valid key options) h
  have hencoded : s.Encoded options.encoding := Call.run_encoded (new_encoded key options) calls
  have hinside : s.toList.filter (({ low, high } : Span).holds ·.timestamp) = inside :=
    List.filter_congr fun x _ => by simp [Span.holds]
  have hrange : s.range low high = .ok inside := hinside ▸ hvalid.range low high
  refine ⟨hvalid.ascending.sublist List.filter_sublist, hrange, opens_of_read hvalid.laid hrange,
    fun hplain => ?_, fun hcoded => ?_, fun reverse => ?_⟩
  · have hread : s.read { low, high, reverse := true } = .ok inside.reverse :=
      hinside ▸ read_reverse_ok hvalid.laid (hplain ▸ hencoded).chunks low high
    exact ⟨hread, opens_of_read hvalid.laid hread⟩
  · exact opens_reverse_compressed hvalid.laid (hcoded ▸ hencoded) low high
  · obtain ⟨pre, k, c, post, -, -, hscan⟩ := scan_ok hvalid.laid { low, high, reverse }
    exact ⟨_, hscan, fun n front item back hout hends => Scan.outputs_ended hout hends⟩

/-- A run with a sample before the first one, read backwards from its middle. -/
theorem scans_run_backfill :
    let calls : List Call := [.add ⟨20, ⟨1⟩⟩, .add ⟨30, ⟨2⟩⟩, .upsert ⟨10, ⟨3⟩⟩ .unset .block,
      .add ⟨40, ⟨4⟩⟩]
    let options : SeriesOptions := { chunkSize := 16, encoding := .plain }
    let s := runAll Call.perform calls (new "s" options)
    Call.Admits calls (new "s" options) ∧ s.read { low := 15, high := 35, reverse := true } =
      .ok (s.toList.filter fun x => 15 ≤ x.timestamp ∧ x.timestamp ≤ 35).reverse :=
  have h := by decide +kernel
  ⟨h, ((scans_run _ _ _ 15 35 h).2.2.2.1 rfl).1⟩

end SeriesStore.Series
