import SeriesStore.Series.Basic

/-!
# Links between series

A rule links two series: the source owns the rule, which names the destination,
and the destination names the source. The operations here change one end of a
link.
-/

namespace SeriesStore.Series

/-- The keys of the destinations, in the order of the rules. -/
def destinations (s : Series) : List String := s.rules.map (·.dest)

/-- Adds a rule after the others. -/
def addRule (s : Series) (dest : String) (aggregation : Aggregation) (bucket : UInt64) :
    Except StoreError Series := do
  let rule ← Rule.new dest aggregation bucket
  return { s with rules := s.rules ++ [rule] }

/-- The series owns a rule into `dest`. -/
def hasRule (s : Series) (dest : String) : Bool := s.rules.any (·.dest == dest)

/-- Removes the first rule into `dest`. -/
def dropRule (s : Series) (dest : String) : Series :=
  { s with rules := s.rules.eraseP (·.dest == dest) }

/-- Names the source, if none is named. -/
def linkSource (s : Series) (source : String) : Series :=
  { s with source := s.source <|> some source }

/-- Forgets the source, if it is this one. -/
def unlinkSource (s : Series) (source : String) : Series :=
  if s.source = some source then { s with source := none } else s

/-- Lets the first of some rules that writes into `old` write into `new`. -/
def retargetFirst (old new : String) : List Rule → List Rule
  | [] => []
  | r :: rules =>
    if r.dest = old then { r with dest := new } :: rules else r :: retargetFirst old new rules

/-- Lets the first rule into `old` write into `new` instead. -/
def retarget (s : Series) (old new : String) : Series :=
  { s with rules := retargetFirst old new s.rules }

end SeriesStore.Series
