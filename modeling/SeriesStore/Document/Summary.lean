import SeriesStore.Document.Settings
import SeriesStore.Series.Summary

/-!
# Samples and summaries as documents

All fields have to be there when a document is read; only the source of a series
may be missing, which says that there is none.
-/

namespace SeriesStore

open Document

/-- A sample as a document. -/
def Sample.toDocument (s : Sample) : Document :=
  record [("timestamp", word s.timestamp), ("value", decimal s.value)]

/-- The sample that a document describes. -/
def Sample.ofDocument? (d : Document) : Option Sample := do
  let fields ← d.fields?
  let timestamp ← required fields "timestamp" word?
  let value ← required fields "value" number?
  return { timestamp, value }

/-- The summary of a rule as a document. -/
def RuleSummary.toDocument (r : RuleSummary) : Document :=
  record [("dest_key", text r.dest), ("aggregation", r.aggregation.toDocument),
    ("time_bucket", word r.bucket)]

/-- The summary of a rule that a document describes. -/
def RuleSummary.ofDocument? (d : Document) : Option RuleSummary := do
  let fields ← d.fields?
  let dest ← required fields "dest_key" text?
  let aggregation ← required fields "aggregation" Aggregation.ofDocument?
  let bucket ← required fields "time_bucket" word?
  return { dest, aggregation, bucket }

/-- The summary of a series as a document. -/
def SeriesSummary.toDocument (s : SeriesSummary) : Document :=
  record [("key", text s.key), ("total_samples", word s.totalSamples),
    ("memory_usage", word s.memory), ("first_timestamp", word s.firstTimestamp),
    ("last_timestamp", word s.lastTimestamp), ("last_value", decimal s.lastValue),
    ("retention_time", word s.retention), ("chunk_count", word s.chunkCount),
    ("chunk_size_bytes", word s.chunkSize), ("encoding", s.encoding.toDocument),
    ("duplicate_policy", s.policy.toDocument), ("labels", list (s.labels.map Label.toDocument)),
    ("src_key", optionalText s.source), ("rules", list (s.rules.map RuleSummary.toDocument))]

/-- The summary of a series that a document describes. -/
def SeriesSummary.ofDocument? (d : Document) : Option SeriesSummary := do
  let fields ← d.fields?
  let key ← required fields "key" text?
  let totalSamples ← required fields "total_samples" word?
  let memory ← required fields "memory_usage" word?
  let firstTimestamp ← required fields "first_timestamp" word?
  let lastTimestamp ← required fields "last_timestamp" word?
  let lastValue ← required fields "last_value" number?
  let retention ← required fields "retention_time" word?
  let chunkCount ← required fields "chunk_count" word?
  let chunkSize ← required fields "chunk_size_bytes" word?
  let encoding ← required fields "encoding" Encoding.ofDocument?
  let policy ← required fields "duplicate_policy" DuplicatePolicy.ofDocument?
  let labels ← required fields "labels" (list? Label.ofDocument?)
  let source ← optional fields "src_key" none optionalText?
  let rules ← required fields "rules" (list? RuleSummary.ofDocument?)
  return { key, totalSamples, memory, firstTimestamp, lastTimestamp, lastValue, retention,
           chunkCount, chunkSize, encoding, policy, labels, source, rules }

end SeriesStore
