import SeriesStore.ChunkKey
import SeriesStore.SortedMap

/-!
# Chunk directories

A directory files chunks under their keys. A scan is placed in it by a `Seek` and
then goes from neighbour to neighbour.
-/

namespace SeriesStore

/-- Chunks, filed under their keys in ascending order. -/
abbrev Directory (α : Type) := SortedMap ChunkKey α

/-- Where a scan of a directory is placed. -/
inductive Seek
  | first
  | last
  | greater (key : ChunkKey)
  | lessOrEqual (key : ChunkKey)
  deriving DecidableEq

namespace Directory

variable {α : Type}

/-- The entry at which a scan is placed. -/
def entry? (d : Directory α) : Seek → Option (ChunkKey × α)
  | .first => d.first?
  | .last => d.last?
  | .greater key => d.above? key
  | .lessOrEqual key => d.atMost? key

/-- The key at which a scan is placed. -/
def seek (d : Directory α) (place : Seek) : Option ChunkKey := (d.entry? place).map (·.1)

/-- Files a chunk under a key; also hands back the chunk it displaces. -/
def set (d : Directory α) (key : ChunkKey) (chunk : α) : Option α × Directory α :=
  (d.get? key, d.insert key chunk)

/-- Files a chunk under a key that is in use, and hands back the chunk it
displaces; the directory of a key that is not in use stays as it is. -/
def replace (d : Directory α) (key : ChunkKey) (chunk : α) : Option α × Directory α :=
  (d.get? key, d.modify key fun _ => chunk)

/-- Removes a key; also hands back its chunk. -/
def delete (d : Directory α) (key : ChunkKey) : Option α × Directory α :=
  (d.get? key, d.erase key)

/-- Changes the chunk with the greatest key. -/
def modifyLast (d : Directory α) (f : α → α) : Directory α :=
  match d.last? with
  | none => d
  | some (key, _) => d.modify key f

end Directory

end SeriesStore
