import SeriesStore.Store.Basic

/-!
# Creating, deleting and renaming series

A new series is given a rule and a destination for each template of the
configuration. Deleting and renaming keep the links of other series and the
label index in step.
-/

namespace SeriesStore.Store

/-! ## Creating -/

/-- Adds a series without samples under a key that is not in use. -/
def insertNew (key : String) (options : SeriesOptions) : Update Unit := do
  let st ← get
  if st.contains key then throw (.seriesExists key)
  let s := Series.new key options
  set { st.put key s with index := st.index.add key s.labels }

/-- The key of the destination that a template gives a series. -/
def destinationKey (key : String) (template : RuleTemplate) : String :=
  s!"{key}_{template.aggregation.display}_{template.bucket}"

/-- The options of the destination that a template gives a series with these
labels. -/
def destinationOptions (config : StoreConfig) (labels : List Label) (template : RuleTemplate) :
    SeriesOptions :=
  { SeriesOptions.ofConfig config with
    retention := template.retention
    labels := labels ++
      [⟨"aggregation", template.aggregation.display⟩, ⟨"time_bucket", toString template.bucket⟩] }

/-- Gives a series the rule of a template and a new destination. A template whose
destination exists already is passed over. -/
def applyTemplate (key : String) (labels : List Label) (template : RuleTemplate) : Update Unit := do
  let st ← get
  let dest := destinationKey key template
  if st.contains dest then return
  let source ← lookUp key
  let source ← MonadExcept.ofExcept (source.addRule dest template.aggregation template.bucket)
  set (st.put key source)
  insertNew dest (destinationOptions st.config labels template)
  modify (·.alter dest (·.linkSource key))

/-- Creates a series, and a destination for each template. -/
def create (key : String) (options : SeriesOptions) : Update Unit := do
  insertNew key options
  (← get).config.templates.forM (applyTemplate key options.labels)

/-! ## Deleting -/

/-- Removes every link to a series that was deleted. -/
def unlink (st : Store) (gone : DeletedSeries) : Store :=
  let st := gone.destinations.foldl (fun st dest => st.alter dest (·.unlinkSource gone.key)) st
  match gone.source with
  | none => st
  | some source => st.alter source (·.dropRule gone.key)

/-- Deletes a series and every link to it. -/
def delete (key : String) : Update Unit := do
  let s ← lookUp key
  let gone := s.deleted
  modify fun st =>
    let st := { st with
      series := st.series.erase key
      index := st.index.remove gone.key gone.labels }
    st.unlink gone

/-! ## Renaming -/

/-- Lets the index and the links follow the series that is now stored under
`new` and was called `old`. -/
def relink (st : Store) (old new : String) : Store :=
  match st.get? new with
  | none => st
  | some s =>
    let st := { st with index := (st.index.remove old s.labels).add new s.labels }
    let st :=
      match s.source with
      | none => st
      | some source => st.alter source (·.retarget old new)
    s.destinations.foldl (fun st dest => st.alter dest fun d => { d with source := some new }) st

/-- Renames a series. A series that has the new name already is deleted. -/
def rename (old new : String) : Update Unit := do
  let _ ← lookUp old
  if old = new then return
  if (← get).contains new then delete new
  let s ← lookUp old
  modify fun st =>
    let st := { st with series := st.series.erase old }
    (st.put new { s with key := new }).relink old new

end SeriesStore.Store
