import SeriesStore.Run

/-!
# Plain chunks

A plain chunk keeps its samples as they are. It takes a fixed number of appended
samples; writes into the middle may exceed that number.
-/

namespace SeriesStore

/-- A chunk whose samples are kept as they are. -/
structure PlainChunk where
  samples : List Sample := []
  -- How many samples the chunk holds before it refuses to append more.
  capacity : Nat := 0
  deriving DecidableEq, Inhabited

namespace PlainChunk

/-- An empty chunk for as many samples as the budget has room for, and for at
least one. Their room is one block of memory, so there are such chunks up to
`blockLimit`. -/
def ofBudget (budget : Nat) : PlainChunk := ⟨[], max (budget / Sample.sizeBytes) 1⟩

/-- How many samples the chunk holds. -/
def count (c : PlainChunk) : Nat := c.samples.length

/-- Appends a sample, unless the chunk is full. -/
def add? (c : PlainChunk) (s : Sample) : Option PlainChunk :=
  if c.count ≥ c.capacity then none else some { c with samples := c.samples ++ [s] }

/-- Writes a sample at its place in the run. -/
def upsert (c : PlainChunk) (s : Sample) (policy : DuplicatePolicy) :
    Except StoreError (PlainChunk × Upserted) := do
  let (samples, done) ← Run.upsert policy s c.samples
  return ({ c with samples }, done)

/-- Cuts the chunk in two, which are both full. -/
def split? (c : PlainChunk) : Option (PlainChunk × PlainChunk) :=
  (Run.halves? c.samples).map fun (head, tail) => (⟨head, head.length⟩, ⟨tail, tail.length⟩)

/-- The bytes that the samples take. -/
def size (c : PlainChunk) : Nat := Sample.sizeBytes * c.count

end PlainChunk

end SeriesStore
