import SeriesStore.Series.Links

/-!
# Summaries of a series
-/

namespace SeriesStore

/-- What is told about a rule. -/
structure RuleSummary where
  dest : String
  aggregation : Aggregation
  bucket : UInt64
  deriving DecidableEq, Inhabited

/-- What is told about a series. -/
structure SeriesSummary where
  key : String
  totalSamples : UInt64
  memory : UInt64
  -- The timestamp of the first sample, zero where there is none.
  firstTimestamp : Timestamp
  lastTimestamp : Timestamp
  lastValue : Value
  retention : UInt64
  chunkCount : UInt64
  chunkSize : UInt64
  encoding : Encoding
  policy : DuplicatePolicy
  labels : List Label
  source : Option String
  rules : List RuleSummary
  deriving DecidableEq, Inhabited

/-- What a deleted series leaves to be cleaned up. -/
structure DeletedSeries where
  key : String
  labels : List Label
  source : Option String
  destinations : List String
  deriving DecidableEq, Inhabited

namespace Series

/-- What is told about a rule of a series. -/
def summarizeRule (r : Rule) : RuleSummary := ⟨r.dest, r.aggregation, r.bucket⟩

/-- What is told about a series. -/
def summary (s : Series) : SeriesSummary where
  key := s.key
  totalSamples := s.totalSamples.toUInt64
  memory := s.memory.toUInt64
  firstTimestamp := s.firstTimestamp?.getD 0
  lastTimestamp := s.lastTimestamp
  lastValue := s.lastValue
  retention := s.retention
  chunkCount := s.chunks.size.toUInt64
  chunkSize := s.chunkSize
  encoding := s.encoding
  policy := s.policy
  labels := s.labels
  source := s.source
  rules := s.rules.map summarizeRule

/-- What a series leaves to be cleaned up once it is deleted. -/
def deleted (s : Series) : DeletedSeries := ⟨s.key, s.labels, s.source, s.destinations⟩

end Series

end SeriesStore
