import SeriesStore.Series.Reading

/-!
# Retention

A series keeps the samples of a window that ends at its last sample. Older
samples are refused, passed over when the first valid one is asked for, and
dropped by whole chunks when room is needed. Each of the three tells the start of
the window in its own way.
-/

namespace SeriesStore.Series

/-- The start of the retention window; the beginning of time where samples are
kept for ever. -/
def oldest (s : Series) : Timestamp :=
  if s.retention = 0 then 0 else Timestamp.before s.lastTimestamp s.retention

/-- A sample at `t` would be further back from the last one than samples are
kept. -/
def tooOld (s : Series) (t : Timestamp) : Bool :=
  s.retention > 0 && t < s.lastTimestamp && s.lastTimestamp - t > s.retention

/-- The time from which on samples are valid. -/
def validFrom (s : Series) : Timestamp :=
  if s.retention > 0 && s.retention < s.lastTimestamp then s.lastTimestamp - s.retention else 0

/-- All samples of the chunk lie before `t`. -/
def expired (t : Timestamp) (chunk : Chunk) : Bool := chunk.lastTimestamp < t

/-- Drops the chunks at the start that lie before the retention window; also says
how many samples they held. -/
def trim (s : Series) : Series × Nat :=
  let dropped := s.chunks.values.takeWhile (expired s.oldest)
  let count := dropped.foldl (· + ·.count) 0
  ({ s with
    chunks := s.chunks.dropWhile (expired s.oldest)
    totalSamples := s.totalSamples - count }, count)

/-- The timestamp of the first valid sample, and how many samples are stored
before it. -/
def firstInWindow (s : Series) : Except StoreError (Timestamp × Nat) := do
  if s.isEmpty then return (0, 0)
  let samples ← s.range 0 s.lastTimestamp
  let before := samples.takeWhile (·.timestamp < s.validFrom)
  return (Run.lastTimestamp (samples.take (before.length + 1)), before.length)

end SeriesStore.Series
