import SeriesStore.Chunk

/-!
# Scans

A scan reads the samples of a span of time from a list of chunks. It skips the
samples before the span and ends at the first sample past it, at the first chunk
that lies outside it, or at the first failure.
-/

namespace SeriesStore

/-- The timestamps from `low` to `high`, read upwards or downwards. -/
structure Span where
  low : Timestamp
  high : Timestamp
  reverse : Bool := false
  deriving DecidableEq, Inhabited

namespace Span

/-- The timestamp at which a scan of the span begins. -/
def boundary (span : Span) : Timestamp := if span.reverse then span.high else span.low

/-- The sample comes before those of the span. -/
def isBefore (span : Span) (s : Sample) : Bool :=
  if span.reverse then s.timestamp > span.high else s.timestamp < span.low

/-- The sample comes after those of the span. -/
def isPast (span : Span) (s : Sample) : Bool :=
  if span.reverse then s.timestamp < span.low else s.timestamp > span.high

/-- The chunk holds samples, and all of them lie outside the span. -/
def misses (span : Span) (chunk : Chunk) : Bool :=
  chunk.count > 0 && (chunk.firstTimestamp > span.high || chunk.lastTimestamp < span.low)

/-- The first sample of the span among the samples of a chunk and the chunks that
follow, with the samples and the chunks behind it. -/
def find? (span : Span) : Except StoreError (List Sample) → List Chunk →
    Option (Except StoreError (Sample × List Sample × List Chunk))
  | .error e, _ => some (.error e)
  | .ok samples, chunks =>
    match samples.dropWhile (fun s => span.isBefore s && !span.isPast s) with
    | s :: rest => if span.isPast s then none else some (.ok (s, rest, chunks))
    | [] =>
      match chunks with
      | [] => none
      | chunk :: chunks =>
        if span.misses chunk then none else span.find? (chunk.scan span.reverse) chunks

/-- All samples of the span among the samples of a chunk and the chunks that
follow. -/
def collect (span : Span) : Except StoreError (List Sample) → List Chunk →
    Except StoreError (List Sample)
  | .error e, _ => .error e
  | .ok samples, chunks =>
    let inside := (samples.takeWhile (!span.isPast ·)).filter (!span.isBefore ·)
    if samples.any span.isPast then .ok inside
    else
      match chunks with
      | [] => .ok inside
      | chunk :: chunks =>
        if span.misses chunk then .ok inside
        else (span.collect (chunk.scan span.reverse) chunks).map (inside ++ ·)

end Span

/-- A scan under way. -/
structure Scan where
  span : Span
  -- The samples of the chunk that is being read and the chunks behind it; none
  -- once the scan has ended.
  ahead : Option (Except StoreError (List Sample) × List Chunk)

namespace Scan

/-- The next sample or the failure that ends the scan; nothing once it has
ended. -/
def next (scan : Scan) : Option (Except StoreError Sample) × Scan :=
  match scan.ahead.bind fun (samples, chunks) => scan.span.find? samples chunks with
  | none => (none, { scan with ahead := none })
  | some (.error e) => (some (.error e), { scan with ahead := none })
  | some (.ok (s, samples, chunks)) =>
    (some (.ok s), { scan with ahead := some (.ok samples, chunks) })

/-- All samples that are left. -/
def collect (scan : Scan) : Except StoreError (List Sample) :=
  match scan.ahead with
  | none => .ok []
  | some (samples, chunks) => scan.span.collect samples chunks

end Scan

end SeriesStore
