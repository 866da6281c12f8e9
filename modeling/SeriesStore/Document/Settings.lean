import SeriesStore.Document.Basic
import SeriesStore.Options

/-!
# Configuration as documents

Every setting is written. When a configuration or the options of a series are
read, a setting that is missing has its preset value.
-/

namespace SeriesStore

open Document

/-! ## Names -/

/-- A policy as a document: its name. -/
def DuplicatePolicy.toDocument (p : DuplicatePolicy) : Document := text p.name

/-- The policy that a document names. -/
def DuplicatePolicy.ofDocument? (d : Document) : Option DuplicatePolicy := d.text?.bind ofName?

/-- An encoding as a document: its name. -/
def Encoding.toDocument (e : Encoding) : Document := text e.name

/-- The encoding that a document names. -/
def Encoding.ofDocument? (d : Document) : Option Encoding := d.text?.bind ofName?

/-- An aggregation as a document: its name. -/
def Aggregation.toDocument (a : Aggregation) : Document := text a.name

/-- The aggregation that a document names. -/
def Aggregation.ofDocument? (d : Document) : Option Aggregation := d.text?.bind ofName?

/-! ## Records -/

/-- A label as a document. -/
def Label.toDocument (l : Label) : Document :=
  record [("name", text l.name), ("value", text l.value)]

/-- The label that a document describes. -/
def Label.ofDocument? (d : Document) : Option Label := do
  let fields ← d.fields?
  let name ← required fields "name" text?
  let value ← required fields "value" text?
  return { name, value }

/-- A template as a document. -/
def RuleTemplate.toDocument (t : RuleTemplate) : Document :=
  record [("aggregation", t.aggregation.toDocument), ("time_bucket", word t.bucket),
    ("retention_time", word t.retention)]

/-- The template that a document describes. -/
def RuleTemplate.ofDocument? (d : Document) : Option RuleTemplate := do
  let fields ← d.fields?
  let aggregation ← required fields "aggregation" Aggregation.ofDocument?
  let bucket ← required fields "time_bucket" word?
  let retention ← optional fields "retention_time" 0 word?
  return { aggregation, bucket, retention }

/-- A configuration as a document. -/
def StoreConfig.toDocument (c : StoreConfig) : Document :=
  record [("chunk_size_bytes", word c.chunkSize), ("retention_time", word c.retention),
    ("duplicate_policy", c.policy.toDocument), ("encoding", c.encoding.toDocument),
    ("compaction_rules", list (c.templates.map RuleTemplate.toDocument))]

/-- The configuration that a document describes. -/
def StoreConfig.ofDocument? (d : Document) : Option StoreConfig := do
  let preset : StoreConfig := {}
  let fields ← d.fields?
  let chunkSize ← optional fields "chunk_size_bytes" preset.chunkSize word?
  let retention ← optional fields "retention_time" preset.retention word?
  let policy ← optional fields "duplicate_policy" preset.policy DuplicatePolicy.ofDocument?
  let encoding ← optional fields "encoding" preset.encoding Encoding.ofDocument?
  let templates ← optional fields "compaction_rules" preset.templates
    (list? RuleTemplate.ofDocument?)
  return { chunkSize, retention, policy, encoding, templates }

/-- The options of a series as a document. -/
def SeriesOptions.toDocument (o : SeriesOptions) : Document :=
  record [("chunk_size_bytes", word o.chunkSize), ("retention_time", word o.retention),
    ("duplicate_policy", o.policy.toDocument), ("encoding", o.encoding.toDocument),
    ("labels", list (o.labels.map Label.toDocument))]

/-- The options of a series that a document describes. -/
def SeriesOptions.ofDocument? (d : Document) : Option SeriesOptions := do
  let preset : SeriesOptions := {}
  let fields ← d.fields?
  let chunkSize ← optional fields "chunk_size_bytes" preset.chunkSize word?
  let retention ← optional fields "retention_time" preset.retention word?
  let policy ← optional fields "duplicate_policy" preset.policy DuplicatePolicy.ofDocument?
  let encoding ← optional fields "encoding" preset.encoding Encoding.ofDocument?
  let labels ← optional fields "labels" preset.labels (list? Label.ofDocument?)
  return { chunkSize, retention, policy, encoding, labels }

end SeriesStore
