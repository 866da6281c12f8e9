import SeriesStore.Directory
import SeriesStore.Options
import SeriesStore.Rule

/-!
# Series

A series is a named sequence of samples, cut into chunks that are filed by their
first timestamps. It knows its last sample without reading a chunk, owns the
rules that downsample it, and may itself be the destination of one rule of
another series.
-/

namespace SeriesStore

/-- A named, chunked sequence of samples. -/
structure Series where
  key : String
  chunks : Directory Chunk
  encoding : Encoding
  chunkSize : UInt64
  retention : UInt64
  policy : DuplicatePolicy
  labels : List Label
  -- The key of the series that this one is downsampled from.
  source : Option String := none
  rules : List Rule := []
  -- The timestamp of the last sample, zero before the first.
  lastTimestamp : Timestamp := 0
  lastValue : Value := ⟨0⟩
  totalSamples : Nat := 0
  deriving DecidableEq

namespace Series

/-- The key of the chunk that a series begins with. -/
def seedKey : ChunkKey := .ofTimestamp 0

/-- The least byte budget of a chunk: room for one plain sample. -/
def leastChunkSize : UInt64 := Sample.sizeBytes.toUInt64

/-- A series without samples: a single chunk, which is empty. There are such
series for the chunk sizes that there are chunks for, up to `blockLimit`. -/
def new (key : String) (options : SeriesOptions) : Series :=
  let chunkSize := max options.chunkSize leastChunkSize
  { key, chunkSize
    chunks := SortedMap.empty.insert seedKey (.empty options.encoding chunkSize.toNat)
    encoding := options.encoding
    retention := options.retention
    policy := options.policy
    labels := options.labels }

/-- There is no sample. -/
def isEmpty (s : Series) : Bool := s.totalSamples == 0

/-- The last sample. -/
def lastSample? (s : Series) : Option Sample :=
  if s.isEmpty then none else some ⟨s.lastTimestamp, s.lastValue⟩

/-- The timestamp of the first sample. -/
def firstTimestamp? (s : Series) : Option Timestamp :=
  if s.isEmpty then none
  else (s.chunks.values.find? (·.count > 0)).map (·.firstTimestamp)

/-- The bytes that are reserved for samples. -/
def chunkMemory (s : Series) : Nat := s.chunks.values.foldl (· + ·.memory) 0

/-- The bytes that are reserved for samples and labels. -/
def memory (s : Series) : Nat := s.labels.foldl (· + ·.size) s.chunkMemory

/-- A change of a series that can fail. What was changed before a failure
stays. -/
abbrev Update := EStateM StoreError Series

end Series

end SeriesStore
