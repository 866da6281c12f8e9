import SeriesStore.Accumulator
import SeriesStore.Sample

/-!
# Downsampling rules

A rule of a series cuts time into buckets of one length and owes a destination
series one sample for each bucket that is closed. The last bucket stays open: its
aggregate is kept up to date until a sample past it arrives.
-/

namespace SeriesStore

/-- A sample that a rule owes to its destination. -/
structure BucketWrite where
  dest : String
  sample : Sample
  deriving DecidableEq, Inhabited

/-- The start of the window that holds `t`, where windows of this length begin at
zero. -/
def windowStart (t : Timestamp) (length : UInt64) : Timestamp := t - t % length

/-- The last timestamp of the window of this length that begins at `start`. -/
def windowEnd (start : Timestamp) (length : UInt64) : Timestamp :=
  Timestamp.after start (length - 1)

/-- A rule from the series that owns it into a destination. -/
structure Rule where
  dest : String
  aggregation : Aggregation
  bucket : UInt64
  -- The aggregate of the open bucket so far.
  context : Accumulator Value
  -- The start of the open bucket, if a sample has been seen.
  bucketStart : Option Timestamp
  deriving DecidableEq

namespace Rule

/-- A rule that has seen no sample. -/
def new (dest : String) (aggregation : Aggregation) (bucket : UInt64) : Except StoreError Rule :=
  if bucket = 0 then .error .emptyBucket
  else .ok ⟨dest, aggregation, bucket, .start aggregation, none⟩

/-- The aggregate of the open bucket so far. -/
def current? (r : Rule) : Option Value := r.context.result?

/-- The write that a bucket with the given aggregate is owed, if it holds a
sample. -/
def owed (r : Rule) (start : Timestamp) (value : Option Value) : Option BucketWrite :=
  value.map fun v => ⟨r.dest, ⟨start, v⟩⟩

/-- Takes a sample that was appended to the series. A sample past the open bucket
closes it. -/
def append (r : Rule) (s : Sample) : Rule × Option BucketWrite :=
  let start := windowStart s.timestamp r.bucket
  let openStart := r.bucketStart.getD start
  if start > openStart then
    ({ r with context := r.context.reset.add s.value, bucketStart := some start },
      r.owed openStart r.current?)
  else ({ r with context := r.context.add s.value, bucketStart := some openStart }, none)

/-- Brings the rule up to date after a write at `t` into a series whose last
sample is at `last`; `read` lists the stored samples of a range. A write into the
open bucket renews its aggregate, and closes a bucket that the series has left
behind. A write into a closed bucket makes it owed anew. A rule whose samples
cannot be read stays as it is. -/
def revise (r : Rule) (read : Timestamp → Timestamp → Except StoreError (List Sample))
    (last t : Timestamp) : Rule × Option BucketWrite :=
  let openStart := windowStart last r.bucket
  if t ≥ openStart then
    match read openStart Timestamp.latest with
    | .error _ => (r, none)
    | .ok samples =>
      let stale := (r.bucketStart.filter (· < openStart)).bind fun start => r.owed start r.current?
      ({ r with
        context := .ofList r.aggregation (samples.map (·.value))
        bucketStart := some openStart }, stale)
  else
    let start := windowStart t r.bucket
    match read start (windowEnd start r.bucket) with
    | .error _ => (r, none)
    | .ok samples =>
      (r, r.owed start (Accumulator.ofList r.aggregation (samples.map (·.value))).result?)

end Rule

end SeriesStore
