import SeriesStore.Gorilla.Decoder
import SeriesStore.Run

/-!
# Compressed chunks

A compressed chunk keeps its samples as a coded stream. It takes samples until
the next one might not fit its budget of bytes. A write into the middle decodes
the stream, changes the run and encodes it again.
-/

namespace SeriesStore

/-- A chunk whose samples are a coded stream. -/
structure CompressedChunk where
  encoder : Gorilla.Encoder
  -- How many bytes the stream should stay within.
  budget : Nat
  deriving DecidableEq, Inhabited

namespace CompressedChunk

open Gorilla

/-- The chunk of a run. Its budget is the room of its buffer, so there are such
chunks up to `blockLimit`. -/
def ofSamples (run : List Sample) (budget : Nat) : CompressedChunk :=
  ⟨.ofSamples run budget, budget⟩

/-- The samples of a chunk. -/
def samples (c : CompressedChunk) : Except StoreError (List Sample) := c.encoder.samples

/-- How many samples the chunk holds. -/
def count (c : CompressedChunk) : Nat := c.encoder.count

/-- The longest code of a sample still fits the budget. -/
def hasRoom (c : CompressedChunk) : Bool :=
  (c.encoder.bitLength + maxSampleBits + 7) / 8 ≤ c.budget

/-- Appends a sample, unless the chunk is full. The first sample always finds
room. -/
def add? (c : CompressedChunk) (s : Sample) : Option CompressedChunk :=
  if c.count > 0 && !c.hasRoom then none else some { c with encoder := c.encoder.encode s }

/-- Writes a sample at its place in the run. -/
def upsert (c : CompressedChunk) (s : Sample) (policy : DuplicatePolicy) :
    Except StoreError (CompressedChunk × Upserted) := do
  let (run, done) ← Run.upsert policy s (← c.samples)
  return (ofSamples run c.budget, done)

/-- Cuts the chunk in two. -/
def split? (c : CompressedChunk) : Option (CompressedChunk × CompressedChunk) :=
  match c.samples with
  | .error _ => none
  | .ok run => (Run.halves? run).map fun (head, tail) =>
    (ofSamples head c.budget, ofSamples tail c.budget)

/-- The length of the stream in bytes. -/
def size (c : CompressedChunk) : Nat := c.encoder.size

/-- How many bytes are reserved for the stream. -/
def memory (c : CompressedChunk) : Nat := max c.encoder.capacity c.encoder.size

end CompressedChunk

end SeriesStore
