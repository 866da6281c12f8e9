import SeriesStore.Series.Downsampling
import SeriesStore.Series.Retention
import SeriesStore.SplitThreshold

/-!
# Writing into a series

A sample past the last one is appended to the last chunk. A sample at any other
time is written into the chunk that covers it. A chunk that has grown past the
split threshold is cut before it is written into, and a chunk whose first
timestamp has changed is filed anew.
-/

namespace SeriesStore.Series

/-! ## Appending -/

/-- Files a new chunk that holds one sample. -/
def openChunk (sample : Sample) : Update Unit := do
  let s ← get
  let key := ChunkKey.ofTimestamp sample.timestamp
  if s.chunks.contains key then throw (.keyInUse sample.timestamp s.key)
  match (Chunk.empty s.encoding s.chunkSize.toNat).add? sample with
  | none => throw (.firstSampleRejected s.key)
  | some chunk => set { s with chunks := s.chunks.insert key chunk }

/-- Puts a sample at the end of the last chunk. Where that is full, chunks that
have expired are dropped and the sample opens a new chunk. -/
def place (sample : Sample) : Update Unit := do
  let s ← get
  match s.chunks.last? with
  | none => throw (.noChunks s.key)
  | some (key, chunk) =>
    match chunk.add? sample with
    | some chunk => set { s with chunks := s.chunks.insert key chunk }
    | none =>
      set s.trim.1
      openChunk sample

/-- The series with its counters moved on to a sample that was placed at its
end. -/
def advance (s : Series) (sample : Sample) : Series :=
  { s with
    lastTimestamp := sample.timestamp
    lastValue := sample.value
    totalSamples := s.totalSamples + 1 }

/-- Appends a sample; the rules do not take it yet. -/
def add (sample : Sample) : Update Unit := do
  place sample
  modify (·.advance sample)

/-- Appends a sample and lets the rules take it; lists what they owe. -/
def append (sample : Sample) : Update (List BucketWrite) := do
  add sample
  modifyGet fun s =>
    let (s, writes) := s.appended sample
    (writes, s)

/-! ## Writing at any time -/

/-- The chunk filed under `key`, which was chosen for a write at `t`. -/
def chunkAt (key : ChunkKey) (t : Timestamp) : Update Chunk := do
  let s ← get
  match s.chunks.get? key with
  | none => throw (.chunkNotFound t s.key)
  | some chunk => return chunk

/-- The key of the chunk that a sample at `t` belongs to: the last one, or where
it begins later, the one that covers `t`, or else the first. -/
def target (t : Timestamp) : Update ChunkKey := do
  let s ← get
  match s.chunks.last? with
  | none => throw (.noChunks s.key)
  | some (key, chunk) =>
    if t < chunk.firstTimestamp && s.chunks.size > 1 then
      match s.chunks.atMost? (.ofTimestamp t) <|> s.chunks.first? with
      | none => throw (.noChunks s.key)
      | some (key, _) => return key
    else return key

/-- Cuts a chunk that has grown past the split threshold and says which half a
sample at `t` belongs to. A write that is going to be rejected cuts nothing. -/
def makeRoom (key : ChunkKey) (t : Timestamp) (policy : DuplicatePolicy) : Update ChunkKey := do
  let s ← get
  let chunk ← chunkAt key t
  if chunk.size ≤ splitThreshold s.chunkSize.toNat then return key
  if policy.blocks then
    if Run.holds t (← MonadExcept.ofExcept chunk.samples) then throw (.blocked t)
  match chunk.split? with
  | none => throw (.splitRefused s.key)
  | some (head, tail) =>
    let chunks := s.chunks.insert key head
    let tailKey := ChunkKey.ofTimestamp tail.firstTimestamp
    set { s with chunks := chunks.insert tailKey tail }
    if chunks.contains tailKey then throw (.splitCollision tail.firstTimestamp s.key)
    return if t ≥ tail.firstTimestamp then tailKey else key

/-- Files the chunk under `key` anew after its first timestamp has changed from
`old` to `new`. -/
def refile (key : ChunkKey) (old new : Timestamp) : Update Unit := do
  let s ← get
  if key ≠ .ofTimestamp old ∧ key ≠ seedKey then throw (.misfiled old key.timestamp s.key)
  match s.chunks.get? key with
  | none => throw (.noChunks s.key)
  | some chunk =>
    let chunks := s.chunks.erase key
    let newKey := ChunkKey.ofTimestamp new
    set { s with chunks := chunks.insert newKey chunk }
    if chunks.contains newKey then throw (.rekeyCollision new s.key)

/-- Writes a sample into the chunk filed under `key`. -/
def writeInto (key : ChunkKey) (sample : Sample) (policy : DuplicatePolicy) : Update Upserted := do
  let chunk ← chunkAt key sample.timestamp
  let (changed, done) ← MonadExcept.ofExcept (chunk.upsert sample policy)
  modify fun s => { s with chunks := s.chunks.insert key changed }
  if changed.firstTimestamp ≠ chunk.firstTimestamp then
    refile key chunk.firstTimestamp changed.firstTimestamp
  return done

/-- Brings the counters and the rules up to date after a write at `t`; lists what
the rules owe. A write past the last sample moves the open buckets as an appended
sample does. -/
def settle (s : Series) (t : Timestamp) (done : Upserted) : Series × List BucketWrite :=
  let advances := s.isEmpty || t > s.lastTimestamp
  let s := { s with totalSamples := s.totalSamples + done.gained }
  if advances then
    { s with lastTimestamp := t, lastValue := done.value }.appended ⟨t, done.value⟩
  else if t = s.lastTimestamp then { s with lastValue := done.value }.revised t
  else s.revised t

/-- Writes a sample at any time, where the policy of the write comes before that
of the series and the fallback after it; lists what the rules owe. -/
def upsert (sample : Sample) (override fallback : DuplicatePolicy) : Update (List BucketWrite) := do
  let policy := DuplicatePolicy.resolve override (← get).policy fallback
  let key ← target sample.timestamp
  let key ← makeRoom key sample.timestamp policy
  let done ← writeInto key sample policy
  modifyGet fun s =>
    let (s, writes) := s.settle sample.timestamp done
    (writes, s)

/-- Takes a sample that a rule of another series owes to this one: a later bucket
is appended, any other replaces the sample stored at its start. -/
def receive (sample : Sample) : Update (List BucketWrite) := do
  let s ← get
  if s.isEmpty || sample.timestamp > s.lastTimestamp then append sample
  else upsert sample .last .last

end SeriesStore.Series
