import SeriesStore.Series.Reading

/-!
# Downsampling a series

The rules of a series are independent of each other: each takes a change of the
series into account and may owe its destination one sample.
-/

namespace SeriesStore.Series

/-- Lets every rule take a step, and lists what they owe. -/
def stepRules (s : Series) (step : Rule → Rule × Option BucketWrite) : Series × List BucketWrite :=
  let steps := s.rules.map step
  ({ s with rules := steps.map (·.1) }, steps.filterMap (·.2))

/-- Lets every rule take a sample that was appended. -/
def appended (s : Series) (sample : Sample) : Series × List BucketWrite :=
  s.stepRules (·.append sample)

/-- Lets every rule take a write at `t` into account. -/
def revised (s : Series) (t : Timestamp) : Series × List BucketWrite :=
  s.stepRules (·.revise s.range s.lastTimestamp t)

end SeriesStore.Series
