import SeriesStore.Store.Basic

/-!
# Writing into a store

A write goes to one series; what its rules then owe is delivered to their
destinations.
-/

namespace SeriesStore.Store

/-- How many links in a row a write is passed on over. -/
def maxDepth : Nat := 1

/-- Delivers what rules owe over at most `depth` links in a row. What cannot be
delivered is dropped. -/
def deliverOver : Nat → List BucketWrite → Store → Store
  | 0, _, st => st
  | depth + 1, writes, st =>
    writes.foldl (fun st write =>
      match st.get? write.dest with
      | none => st
      | some dest =>
        match Series.receive write.sample dest with
        | .error _ dest => st.put write.dest dest
        | .ok more dest => deliverOver depth more (st.put write.dest dest)) st

/-- Delivers what rules owe. -/
def deliver (st : Store) (writes : List BucketWrite) : Store := deliverOver maxDepth writes st

/-- The destinations of a series that no longer exist. -/
def missing (st : Store) (s : Series) : List String := s.destinations.filter (!st.contains ·)

/-- Appends a sample, drops the rules into destinations that no longer exist, and
lets the others take the sample. -/
def appendPruned (sample : Sample) (missing : List String) : Series.Update (List BucketWrite) := do
  Series.add sample
  modifyGet fun s =>
    let (s, writes) := (missing.foldl Series.dropRule s).appended sample
    (writes, s)

/-- Adds a sample to a series: appends it past the last sample, and otherwise
writes it where it belongs. A sample before the retention window is refused. -/
def add (key : String) (sample : Sample) (override : DuplicatePolicy) : Update Timestamp := do
  let st ← get
  let s ← lookUp key
  if s.tooOld sample.timestamp then
    throw (.tooOld sample.timestamp (s.lastTimestamp - s.retention))
  let writes ←
    if !s.isEmpty && sample.timestamp ≤ s.lastTimestamp then
      within key (Series.upsert sample override st.config.policy)
    else within key (appendPruned sample (st.missing s))
  modify (·.deliver writes)
  return sample.timestamp

/-- Writes a sample of a series at any time. -/
def upsert (key : String) (sample : Sample) (override : DuplicatePolicy) : Update Unit := do
  let st ← get
  let writes ← within key (Series.upsert sample override st.config.policy)
  modify (·.deliver writes)

/-- Adds samples to a series until one fails; says how many there were. -/
def addBatch (key : String) (samples : List Sample) : Update Nat := do
  samples.forM fun sample => discard (add key sample .unset)
  return samples.length

end SeriesStore.Store
