import SeriesStore.Value

/-!
# Timestamps and samples
-/

namespace SeriesStore

/-- A point in time, in the unit the host has chosen. -/
abbrev Timestamp := UInt64

namespace Timestamp

/-- The end of time. -/
def latest : Timestamp := 0xffffffffffffffff

/-- The time a span after `t`, but no later than the end of time. -/
def after (t : Timestamp) (span : UInt64) : Timestamp := if t + span < t then latest else t + span

/-- The time a span before `t`, but no earlier than zero. -/
def before (t : Timestamp) (span : UInt64) : Timestamp := if t < span then 0 else t - span

end Timestamp

/-- A value at a point in time. -/
structure Sample where
  timestamp : Timestamp
  value : Value
  deriving DecidableEq, Inhabited

namespace Sample

/-- The size of a sample that is stored plainly, in bytes. -/
def sizeBytes : Nat := 16

end Sample

end SeriesStore
