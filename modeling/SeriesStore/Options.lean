import SeriesStore.Aggregation
import SeriesStore.Chunk
import SeriesStore.Label

/-!
# Options

A store has a configuration, which new series inherit, and a series has options,
which are fixed when it is created.
-/

namespace SeriesStore

/-- The byte budget of a chunk where none is given. -/
def presetChunkSize : UInt64 := 4096

/-- A rule that every new series is given, with a destination of its own. -/
structure RuleTemplate where
  aggregation : Aggregation
  bucket : UInt64
  -- The retention of the destination, zero for none.
  retention : UInt64 := 0
  deriving DecidableEq, Inhabited

/-- The configuration of a store. -/
structure StoreConfig where
  chunkSize : UInt64 := presetChunkSize
  -- How long samples are kept, zero for ever.
  retention : UInt64 := 0
  -- The policy where neither the write nor the series sets one.
  policy : DuplicatePolicy := .block
  encoding : Encoding := .preset
  templates : List RuleTemplate := []
  deriving DecidableEq, Inhabited

/-- The options of a series. -/
structure SeriesOptions where
  chunkSize : UInt64 := presetChunkSize
  -- How long samples are kept, zero for ever.
  retention : UInt64 := 0
  policy : DuplicatePolicy := .unset
  encoding : Encoding := .preset
  labels : List Label := []
  deriving DecidableEq, Inhabited

namespace SeriesOptions

/-- The options of a series that takes everything from the store. -/
def ofConfig (config : StoreConfig) : SeriesOptions where
  chunkSize := config.chunkSize
  retention := config.retention
  encoding := config.encoding

/-- The options with one more label. -/
def withLabel (o : SeriesOptions) (label : Label) : SeriesOptions :=
  { o with labels := o.labels ++ [label] }

end SeriesOptions

end SeriesStore
