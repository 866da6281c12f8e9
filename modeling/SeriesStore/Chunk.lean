import SeriesStore.Chunk.Compressed
import SeriesStore.Chunk.Plain

/-!
# Chunks

A series keeps its samples in chunks, all of one encoding. The encodings differ
in the room they take and in the directions they can be read; as lists of
samples they behave alike.
-/

namespace SeriesStore

/-- How a chunk keeps its samples. -/
inductive Encoding
  | compressed
  | plain
  deriving DecidableEq, Inhabited

namespace Encoding

/-- All encodings. -/
def all : List Encoding := [compressed, plain]

/-- The encoding of a series that does not name one. -/
def preset : Encoding := compressed

/-- The name of an encoding. -/
def name : Encoding → String
  | compressed => "compressed"
  | plain => "uncompressed"

/-- The encoding with exactly this name. -/
def ofName? (s : String) : Option Encoding := all.find? (·.name == s)

end Encoding

/-- A chunk of either encoding. -/
inductive Chunk
  | compressed (c : CompressedChunk)
  | plain (c : PlainChunk)
  deriving DecidableEq

namespace Chunk

/-- An empty chunk with a budget of bytes. -/
def empty (encoding : Encoding) (budget : Nat) : Chunk :=
  match encoding with
  | .compressed => compressed (.ofSamples [] budget)
  | .plain => plain (.ofBudget budget)

instance : Inhabited Chunk := ⟨plain {}⟩

/-- How many samples the chunk holds. -/
def count : Chunk → Nat
  | compressed c => c.count
  | plain c => c.count

/-- The timestamp of the first sample, zero where there is none. -/
def firstTimestamp : Chunk → Timestamp
  | compressed c => c.encoder.firstTimestamp
  | plain c => Run.firstTimestamp c.samples

/-- The timestamp of the last sample, zero where there is none. -/
def lastTimestamp : Chunk → Timestamp
  | compressed c => c.encoder.lastTimestamp
  | plain c => Run.lastTimestamp c.samples

/-- The bytes that the samples take. -/
def size : Chunk → Nat
  | compressed c => c.size
  | plain c => c.size

/-- The bytes that are reserved for the samples. -/
def memory : Chunk → Nat
  | compressed c => c.memory
  | plain c => c.size

/-- Appends a sample, unless the chunk is full. -/
def add? (chunk : Chunk) (s : Sample) : Option Chunk :=
  match chunk with
  | compressed c => (c.add? s).map compressed
  | plain c => (c.add? s).map plain

/-- Writes a sample at its place in the run. -/
def upsert (chunk : Chunk) (s : Sample) (policy : DuplicatePolicy) :
    Except StoreError (Chunk × Upserted) :=
  match chunk with
  | compressed c => (c.upsert s policy).map fun (c, done) => (compressed c, done)
  | plain c => (c.upsert s policy).map fun (c, done) => (plain c, done)

/-- Cuts the chunk in an earlier and a later half. A chunk of fewer than two
samples is not cut. -/
def split? : Chunk → Option (Chunk × Chunk)
  | compressed c => c.split?.map fun (head, tail) => (compressed head, compressed tail)
  | plain c => c.split?.map fun (head, tail) => (plain head, plain tail)

/-- The samples of the chunk. -/
def samples : Chunk → Except StoreError (List Sample)
  | compressed c => c.samples
  | plain c => .ok c.samples

/-- The samples of the chunk in the order of a scan. A coded stream cannot be
read from its end. -/
def scan (chunk : Chunk) (reverse : Bool) : Except StoreError (List Sample) :=
  match chunk, reverse with
  | _, false => chunk.samples
  | plain c, true => .ok c.samples.reverse
  | compressed _, true => .error (.unsupported "reverse iteration over compressed chunks")

end Chunk

end SeriesStore
