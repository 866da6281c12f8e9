import SeriesStore.Document.Settings

/-!
# Configuration is read as it was written

A document that was written may lose fields before it is read: any fields of the record as a whole,
and the retention of any of its templates. A field that is there is read as it was written, whatever
the others are, and a field that is missing has its preset value.

Results:
1. `optional_without`: a field of a record that has lost some.
2. `list?_changeItems`: the items of a list, each changed in its own way.
3. `RuleTemplate.ofDocument?_without`, `StoreConfig.ofDocument?_partialDocument`,
   `SeriesOptions.ofDocument?_without`: what is read where fields are missing.
4. `settings_read_back`: whole documents are read as they were written, others with presets.
-/

namespace SeriesStore

namespace Document

variable {α β γ : Type}

/-! ## Documents that lose fields -/

/-- The document without the fields that have one of some names. -/
def without (removed : String → Bool) : Document → Document
  | record fields => record (fields.filter fun field => !removed field.1)
  | d => d

/-- The document with a change made to the fields of one name. -/
def changeField (name : String) (change : Document → Document) : Document → Document
  | record fields =>
    record (fields.map fun field => if field.1 = name then (name, change field.2) else field)
  | d => d

/-- The document with a change made to the items of a list, which may differ from place to place. -/
def changeItems (change : Nat → Document → Document) : Document → Document
  | list items => list (items.mapIdx change)
  | d => d

theorem without_nothing (d : Document) : d.without (fun _ => false) = d := by
  cases d <;> simp [without]

theorem changeItems_nothing (d : Document) : d.changeItems (fun _ item => item) = d := by
  cases d with
  | list items => exact congrArg list (List.ext_getElem (by simp) (by simp))
  | _ => rfl

theorem lookup_without (fields : List (String × Document)) (removed : String → Bool)
    (name : String) :
    (fields.filter fun field => !removed field.1).lookup name =
      if removed name then none else fields.lookup name := by
  induction fields with
  | nil => simp
  | cons field fields ih =>
    obtain ⟨other, d⟩ := field
    by_cases hname : name = other
    · subst hname
      cases hr : removed name with
      | true => simpa [hr] using ih
      | false => simp [hr]
    · have hne : (name == other) = false := by simpa using hname
      cases hr : removed other <;> simpa [hr, List.lookup_cons, hne] using ih

/-- A field that is there is read as it was written, and one that is missing has its preset
value. -/
theorem optional_without {fields : List (String × Document)} {name : String} {d : Document}
    {read : Document → Option α} {a : α} (removed : String → Bool) (preset : α)
    (hfield : fields.lookup name = some d) (hread : read d = some a) :
    optional (fields.filter fun field => !removed field.1) name preset read =
      some (if removed name then preset else a) := by
  unfold optional
  rw [lookup_without, hfield]
  cases removed name with
  | true => rfl
  | false => exact hread

theorem required_without {fields : List (String × Document)} {name : String} {d : Document}
    {read : Document → Option α} {a : α} {removed : String → Bool} (hkept : removed name = false)
    (hfield : fields.lookup name = some d) (hread : read d = some a) :
    required (fields.filter fun field => !removed field.1) name read = some a := by
  unfold required
  rw [lookup_without, hfield, hkept]
  exact hread

/-! ## Words and lists -/

@[simp] theorem word?_word (n : UInt64) : (word n).word? = some n := by
  have hsize : n.toNat < UInt64.size := n.toNat_lt
  simp [word, word?, hsize]

theorem mapM_mapIdx {read : β → Option γ} {write : Nat → α → β} {f : Nat → α → γ}
    (h : ∀ i a, read (write i a) = some (f i a)) (l : List α) :
    (l.mapIdx write).mapM read = some (l.mapIdx f) := by
  induction l generalizing write f with
  | nil => rfl
  | cons a l ih =>
    rw [List.mapIdx_cons, List.mapIdx_cons, List.mapM_cons, h, ih fun i a => h (i + 1) a]
    rfl

/-- A list is read item by item, so each item may have been changed in its own way. -/
theorem list?_changeItems {read : Document → Option γ} {write : α → Document}
    {change : Nat → Document → Document} {f : Nat → α → γ}
    (h : ∀ i a, read (change i (write a)) = some (f i a)) (l : List α) :
    ((list (l.map write)).changeItems change).list? read = some (l.mapIdx f) := by
  have hitems : (l.map write).mapIdx change = l.mapIdx fun i a => change i (write a) :=
    List.ext_getElem (by simp) (by simp)
  rw [changeItems, list?, hitems]
  exact mapM_mapIdx h l

theorem list?_map {read : Document → Option α} {write : α → Document}
    (h : ∀ a, read (write a) = some a) (l : List α) :
    (list (l.map write)).list? read = some l := by
  have hread : read ∘ write = fun a => pure a := funext h
  rw [list?, List.mapM_map, hread, List.mapM_pure, List.map_id']
  rfl

end Document

open Document

/-! ## Names -/

@[simp] theorem DuplicatePolicy.ofDocument?_toDocument (p : DuplicatePolicy) :
    ofDocument? p.toDocument = some p := by
  cases p <;> decide

@[simp] theorem Encoding.ofDocument?_toDocument (e : Encoding) :
    ofDocument? e.toDocument = some e := by
  cases e <;> decide

@[simp] theorem Aggregation.ofDocument?_toDocument (a : Aggregation) :
    ofDocument? a.toDocument = some a := by
  cases a <;> decide

/-! ## Records -/

theorem Label.ofDocument?_toDocument (l : Label) : ofDocument? l.toDocument = some l := rfl

/-- A template is read without its retention, but not without its other fields. -/
theorem RuleTemplate.ofDocument?_without (t : RuleTemplate) {removed : String → Bool}
    (haggregation : removed "aggregation" = false) (hbucket : removed "time_bucket" = false) :
    ofDocument? (t.toDocument.without removed) =
      some { t with retention := if removed "retention_time" then 0 else t.retention } := by
  simp only [ofDocument?, toDocument, without, fields?, Option.bind_eq_bind, Option.bind_some]
  rw [required_without haggregation rfl t.aggregation.ofDocument?_toDocument,
    required_without hbucket rfl (word?_word t.bucket),
    optional_without removed 0 rfl (word?_word t.retention)]
  rfl

/-- The configuration as a document that has lost some fields, and some templates in it their
retention. -/
def StoreConfig.partialDocument (c : StoreConfig) (removed : String → Bool) (bare : Nat → Bool) :
    Document :=
  (c.toDocument.changeField "compaction_rules" (changeItems fun i template =>
    template.without fun name => bare i && name == "retention_time")).without removed

theorem StoreConfig.partialDocument_nothing (c : StoreConfig) :
    c.partialDocument (fun _ => false) (fun _ => false) = c.toDocument := by
  simp [partialDocument, without_nothing, changeItems_nothing, toDocument, changeField]

theorem StoreConfig.ofDocument?_partialDocument (c : StoreConfig) (removed : String → Bool)
    (bare : Nat → Bool) :
    ofDocument? (c.partialDocument removed bare) = some
      { chunkSize := if removed "chunk_size_bytes" then 4096 else c.chunkSize
        retention := if removed "retention_time" then 0 else c.retention
        policy := if removed "duplicate_policy" then .block else c.policy
        encoding := if removed "encoding" then .compressed else c.encoding
        templates := if removed "compaction_rules" then [] else c.templates.mapIdx fun i t =>
          { t with retention := if bare i then 0 else t.retention } } := by
  have htemplate (i : Nat) (t : RuleTemplate) :
      RuleTemplate.ofDocument?
          (t.toDocument.without fun name => bare i && name == "retention_time") =
        some { t with retention := if bare i then 0 else t.retention } := by
    rw [t.ofDocument?_without (by simp) (by simp)]
    simp
  have hfields : c.partialDocument removed bare =
      (record [("chunk_size_bytes", word c.chunkSize), ("retention_time", word c.retention),
        ("duplicate_policy", c.policy.toDocument), ("encoding", c.encoding.toDocument),
        ("compaction_rules", (list (c.templates.map RuleTemplate.toDocument)).changeItems
          fun i template =>
            template.without fun name => bare i && name == "retention_time")]).without
        removed := by
    simp [partialDocument, toDocument, changeField]
  rw [hfields]
  simp only [ofDocument?, without, fields?, Option.bind_eq_bind, Option.bind_some]
  rw [optional_without removed _ rfl (word?_word c.chunkSize),
    optional_without removed _ rfl (word?_word c.retention),
    optional_without removed _ rfl c.policy.ofDocument?_toDocument,
    optional_without removed _ rfl c.encoding.ofDocument?_toDocument,
    optional_without removed _ rfl (list?_changeItems htemplate c.templates)]
  rfl

theorem SeriesOptions.ofDocument?_without (o : SeriesOptions) (removed : String → Bool) :
    ofDocument? (o.toDocument.without removed) = some
      { chunkSize := if removed "chunk_size_bytes" then 4096 else o.chunkSize
        retention := if removed "retention_time" then 0 else o.retention
        policy := if removed "duplicate_policy" then .unset else o.policy
        encoding := if removed "encoding" then .compressed else o.encoding
        labels := if removed "labels" then [] else o.labels } := by
  have hlabels := list?_map Label.ofDocument?_toDocument o.labels
  simp only [ofDocument?, toDocument, without, fields?, Option.bind_eq_bind, Option.bind_some]
  rw [optional_without removed _ rfl (word?_word o.chunkSize),
    optional_without removed _ rfl (word?_word o.retention),
    optional_without removed _ rfl o.policy.ofDocument?_toDocument,
    optional_without removed _ rfl o.encoding.ofDocument?_toDocument,
    optional_without removed _ rfl hlabels]
  rfl

/-! ## Whole documents and partial ones -/

/-- A configuration and the options of a series are read back as they were written. Where a document
has lost fields, the others are read as they were written, and each that is missing has its preset
value: by default duplicates are blocked by a store and left to it by a series. -/
theorem settings_read_back (c : StoreConfig) (o : SeriesOptions) :
    StoreConfig.ofDocument? c.toDocument = some c ∧
    SeriesOptions.ofDocument? o.toDocument = some o ∧
    ∀ removed : String → Bool,
      (∀ bare : Nat → Bool, StoreConfig.ofDocument? (c.partialDocument removed bare) = some
        { chunkSize := if removed "chunk_size_bytes" then 4096 else c.chunkSize
          retention := if removed "retention_time" then 0 else c.retention
          policy := if removed "duplicate_policy" then .block else c.policy
          encoding := if removed "encoding" then .compressed else c.encoding
          templates := if removed "compaction_rules" then [] else c.templates.mapIdx fun i t =>
            { t with retention := if bare i then 0 else t.retention } }) ∧
      SeriesOptions.ofDocument? (o.toDocument.without removed) = some
        { chunkSize := if removed "chunk_size_bytes" then 4096 else o.chunkSize
          retention := if removed "retention_time" then 0 else o.retention
          policy := if removed "duplicate_policy" then .unset else o.policy
          encoding := if removed "encoding" then .compressed else o.encoding
          labels := if removed "labels" then [] else o.labels } := by
  refine ⟨?_, ?_, fun removed => ⟨c.ofDocument?_partialDocument removed,
    o.ofDocument?_without removed⟩⟩
  · have hread := c.ofDocument?_partialDocument (fun _ => false) (fun _ => false)
    have hsame : c.templates.mapIdx (fun _ t => t) = c.templates :=
      List.ext_getElem (by simp) (by simp)
    rw [c.partialDocument_nothing] at hread
    simpa [hsame] using hread
  · have hread := o.ofDocument?_without (fun _ => false)
    rw [without_nothing] at hread
    exact hread

end SeriesStore
