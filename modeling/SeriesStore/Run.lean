import SeriesStore.DuplicatePolicy

/-!
# Runs of samples

A run is a list of samples in the order of their timestamps. Both chunk encodings
write into a run in the same way, and are cut in the same place.
-/

namespace SeriesStore

/-- What a write at an arbitrary timestamp did to a run. -/
structure Upserted where
  -- How many samples the run gained: one, or none where a duplicate was
  -- resolved.
  gained : Nat
  value : Value
  deriving DecidableEq, Inhabited

namespace Run

/-- The timestamps of a run ascend strictly. -/
def Ascending (run : List Sample) : Prop := run.Pairwise fun a b => a.timestamp < b.timestamp

/-- The timestamp of the first sample, zero where there is none. -/
def firstTimestamp (run : List Sample) : Timestamp := (run.head?.map (·.timestamp)).getD 0

/-- The timestamp of the last sample, zero where there is none. -/
def lastTimestamp (run : List Sample) : Timestamp := (run.getLast?.map (·.timestamp)).getD 0

/-- Writes a sample before the first that is not older. A sample at the same
timestamp is merged with it as the policy says. -/
def upsert (policy : DuplicatePolicy) (s : Sample) :
    List Sample → Except StoreError (List Sample × Upserted)
  | [] => .ok ([s], ⟨1, s.value⟩)
  | x :: run =>
    if x.timestamp < s.timestamp then
      (upsert policy s run).map fun (run, done) => (x :: run, done)
    else if x.timestamp = s.timestamp then
      (policy.merge x s).map fun value => ({ x with value } :: run, ⟨0, value⟩)
    else .ok (s :: x :: run, ⟨1, s.value⟩)

/-- A sample is stored at `t`, as far as the samples before the first one that is
not older tell. -/
def holds (t : Timestamp) (run : List Sample) : Bool :=
  (run.find? fun s => t ≤ s.timestamp).any (·.timestamp == t)

/-- The two halves of a run that can be cut; the earlier half has the odd
sample. -/
def halves? (run : List Sample) : Option (List Sample × List Sample) :=
  if run.length < 2 then none else some (run.splitAt (run.length - run.length / 2))

end Run

end SeriesStore
