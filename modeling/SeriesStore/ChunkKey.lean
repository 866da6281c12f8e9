import SeriesStore.Sample

/-!
# Chunk keys

A chunk is filed under its first timestamp, written as eight bytes from the most
significant one down. Keys are compared as strings of bytes.
-/

namespace SeriesStore

/-- The key of a chunk: a timestamp as a string of eight bytes. -/
structure ChunkKey where
  bytes : List UInt8
  length_bytes : bytes.length = 8
  deriving DecidableEq

namespace ChunkKey

/-- Keys are compared byte by byte. -/
instance : Ord ChunkKey where
  compare a b := compare a.bytes b.bytes

instance : Std.TransOrd ChunkKey :=
  inferInstanceAs (Std.TransCmp fun a b : ChunkKey => compareOn bytes a b)

/-- The key of a timestamp. -/
def ofTimestamp (t : Timestamp) : ChunkKey where
  bytes := [t >>> 56, t >>> 48, t >>> 40, t >>> 32, t >>> 24, t >>> 16, t >>> 8, t].map (·.toUInt8)
  length_bytes := rfl

/-- The timestamp that a key stands for. -/
def timestamp (k : ChunkKey) : Timestamp :=
  k.bytes.foldl (fun t byte => (t <<< 8) ||| byte.toUInt64) 0

instance : Inhabited ChunkKey := ⟨ofTimestamp 0⟩

/-- The text shown for a key. -/
def display (k : ChunkKey) : String := s!"ChunkKey({k.timestamp})"

end ChunkKey

end SeriesStore
