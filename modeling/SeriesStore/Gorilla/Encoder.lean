import SeriesStore.Bits.Writer
import SeriesStore.Gorilla.Code

/-!
# Encoding samples

An `Encoder` appends the codes of samples to a bit stream, which can be read at
any time.
-/

namespace SeriesStore.Gorilla

/-- A stream of coded samples that can be appended to. -/
structure Encoder where
  writer : BitWriter := {}
  count : Nat := 0
  firstTimestamp : Timestamp := 0
  history : History := {}
  deriving DecidableEq, Inhabited

namespace Encoder

/-- An empty stream whose buffer has room for `capacity` bytes. -/
def ofCapacity (capacity : Nat) : Encoder := { writer := .ofCapacity capacity }

/-- The code that a sample gets next. -/
def codeOf (e : Encoder) (s : Sample) : List Field :=
  if e.count = 0 then History.firstCode s else e.history.code s

/-- Appends a sample. -/
def encode (e : Encoder) (s : Sample) : Encoder where
  writer := e.writer.writeCode (e.codeOf s)
  count := e.count + 1
  firstTimestamp := if e.count = 0 then s.timestamp else e.firstTimestamp
  history := if e.count = 0 then .start s else e.history.push s

/-- The stream of a list of samples, over a buffer with room for `capacity`
bytes. -/
def ofSamples (samples : List Sample) (capacity : Nat) : Encoder :=
  samples.foldl encode (ofCapacity capacity)

/-- The timestamp of the last sample, zero before the first. -/
def lastTimestamp (e : Encoder) : Timestamp := e.history.timestamp

/-- The bytes of the stream, the last one possibly in part. -/
def bytes (e : Encoder) : Array UInt8 := e.writer.bytes

/-- The length of the stream in bytes. -/
def size (e : Encoder) : Nat := e.writer.size

/-- The length of the stream in bits. -/
def bitLength (e : Encoder) : Nat := e.writer.bitLength

/-- How many bytes the buffer has room for. -/
def capacity (e : Encoder) : Nat := e.writer.capacity

end Encoder

end SeriesStore.Gorilla
