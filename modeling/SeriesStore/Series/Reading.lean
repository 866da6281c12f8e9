import SeriesStore.Scan
import SeriesStore.Series.Basic

/-!
# Reading a series

A scan of a series begins in the chunk that holds the near end of the span, or
in the first chunk where the span begins before all of them.
-/

namespace SeriesStore.Series

/-- The chunks behind a key in the order of a scan. -/
def chunksBehind (s : Series) (key : ChunkKey) (reverse : Bool) : List Chunk :=
  if reverse then ((s.chunks.entries.filter (SortedMap.isBelow key)).map (·.2)).reverse
  else (s.chunks.entries.filter (SortedMap.isAbove key)).map (·.2)

/-- Opens a scan. A chunk that cannot be read is reported by the first step. -/
def scan (s : Series) (span : Span) : Except StoreError Scan :=
  match s.chunks.atMost? (.ofTimestamp span.boundary) <|> s.chunks.first? with
  | none => .error (.noChunks s.key)
  | some (key, chunk) => .ok ⟨span, some (chunk.scan span.reverse, s.chunksBehind key span.reverse)⟩

/-- The samples of a span. -/
def read (s : Series) (span : Span) : Except StoreError (List Sample) := do
  (← s.scan span).collect

/-- The samples from `low` to `high`, in ascending order. -/
def range (s : Series) (low high : Timestamp) : Except StoreError (List Sample) :=
  s.read { low, high }

/-- The aggregate of the samples from `low` to `high`. -/
def aggregate (s : Series) (low high : Timestamp) (aggregation : Aggregation) :
    Except StoreError (Option Value) := do
  return (Accumulator.ofList aggregation ((← s.range low high).map (·.value))).result?

end SeriesStore.Series
