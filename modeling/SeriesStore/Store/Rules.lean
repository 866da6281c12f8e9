import SeriesStore.Store.Basic

/-!
# Linking series by rules

A rule links a source to a destination, one level deep: a source is no
destination, and a destination is no source and has a single one.
-/

namespace SeriesStore.Store

/-- The source and the destination of a rule are the same series. -/
def selfLink : StoreError := .invalidArgument "source and destination key cannot be equal"

/-- The source of a rule is a destination itself. -/
def sourceIsDestination (source : String) : StoreError :=
  .invalidArgument s!"{source} is already a compaction destination"

/-- The destination of a rule is linked already. -/
def destinationIsLinked (dest : String) : StoreError :=
  .invalidArgument s!"{dest} already has a source or owns rules"

/-- Links `source` to `dest` by a new rule. -/
def createRule (source dest : String) (aggregation : Aggregation) (bucket : UInt64) :
    Update Unit := do
  if source = dest then throw selfLink
  if bucket = 0 then throw .emptyBucket
  let s ← lookUp source
  if s.source.isSome then throw (sourceIsDestination source)
  let d ← lookUp dest
  if d.source.isSome || !d.rules.isEmpty then throw (destinationIsLinked dest)
  let s ← MonadExcept.ofExcept (s.addRule dest aggregation bucket)
  modify fun st => (st.put source s).alter dest (·.linkSource source)

/-- Removes the rule from `source` into `dest`. -/
def deleteRule (source dest : String) : Update Unit := do
  let s ← lookUp source
  if !s.hasRule dest then throw (.ruleNotFound source dest)
  modify fun st => (st.put source (s.dropRule dest)).alter dest (·.unlinkSource source)

end SeriesStore.Store
