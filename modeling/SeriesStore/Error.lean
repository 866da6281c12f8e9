import SeriesStore.Sample

/-!
# Errors

Every operation of the store that can fail names its cause by a `StoreError`.
`StoreError.message` is the one place where causes become text.
-/

namespace SeriesStore

/-- Why an operation on the store failed. -/
inductive StoreError
  | blocked (timestamp : Timestamp)
  | notFound (what : String)
  | malformed (why : String)
  | unsupported (what : String)
  | invalidArgument (why : String)
  -- `timestamp` lies before `oldest`, the start of the retention window.
  | tooOld (timestamp oldest : Timestamp)
  | seriesExists (key : String)
  | compression (why : String)
  deriving DecidableEq, Inhabited

namespace StoreError

/-- The text shown for an error. -/
def message : StoreError → String
  | blocked t => s!"Duplicate sample blocked at timestamp {t}"
  | notFound what => s!"Not found: {what}"
  | malformed why => s!"Malformed series: {why}"
  | unsupported what => s!"Unsupported: {what}"
  | invalidArgument why => s!"Invalid argument: {why}"
  | tooOld t oldest => s!"Timestamp {t} is older than retention (min {oldest})"
  | seriesExists key => s!"Series already exists: {key}"
  | compression why => s!"Compression error: {why}"

/-- The error reports a rejected duplicate. -/
def isBlocked : StoreError → Bool
  | blocked _ => true
  | _ => false

/-- The error reports stored data that no run of the store can have written. -/
def isInvariantViolation : StoreError → Bool
  | malformed _ | compression _ => true
  | _ => false

/-! ## Causes with a fixed wording -/

/-- No series is stored under `key`. -/
def seriesNotFound (key : String) : StoreError := notFound s!"series {key}"

/-- `source` owns no rule into `dest`. -/
def ruleNotFound (source dest : String) : StoreError :=
  notFound s!"compaction rule {source} -> {dest}"

/-- The series `key` has no chunk to write to or read from. -/
def noChunks (key : String) : StoreError := malformed s!"series {key} has no chunks"

/-- The series `key` has no chunk under the key chosen for `t`. -/
def chunkNotFound (t : Timestamp) (key : String) : StoreError := notFound s!"chunk for {t} in {key}"

/-- A new chunk for `t` would displace another one. -/
def keyInUse (t : Timestamp) (key : String) : StoreError :=
  malformed s!"chunk key {t} already present in {key}"

/-- A new chunk has no room for a single sample. -/
def firstSampleRejected (key : String) : StoreError :=
  malformed s!"new chunk rejected its first sample in {key}"

/-- A chunk past the split threshold cannot be cut. -/
def splitRefused (key : String) : StoreError :=
  malformed s!"oversized chunk refused to split in {key}"

/-- The later half of a chunk displaced the chunk filed at `t`. -/
def splitCollision (t : Timestamp) (key : String) : StoreError :=
  malformed s!"split chunk collides at {t} in {key}"

/-- The chunk that began at `t` was filed under another timestamp. -/
def misfiled (t filed : Timestamp) (key : String) : StoreError :=
  malformed s!"chunk starting at {t} is keyed at {filed} in {key}"

/-- A chunk that was moved displaced the chunk filed at `t`. -/
def rekeyCollision (t : Timestamp) (key : String) : StoreError :=
  malformed s!"re-keyed chunk collides at {t} in {key}"

/-- A rule needs a bucket that is longer than zero. -/
def emptyBucket : StoreError := invalidArgument "compaction time bucket must be positive"

/-- The stream ends inside a sample. -/
def unexpectedEnd : StoreError := compression "Unexpected end of data"

/-- An explicit window that does not fit into 64 bits. -/
def invalidWindow (leading meaningful : Nat) : StoreError :=
  compression s!"Invalid value window: {leading} leading, {meaningful} meaningful"

end StoreError

end SeriesStore
