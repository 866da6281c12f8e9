import SeriesStore.Store.Basic

/-!
# Reading a store
-/

namespace SeriesStore

/-- The size of a store. -/
structure StoreStats where
  seriesCount : Nat
  totalSamples : Nat
  totalChunks : Nat
  memory : Nat
  deriving DecidableEq, Inhabited

namespace Store

/-- The keys of all series, ascending. -/
def keys (st : Store) : List String := st.series.keys

/-- The samples of a span of a series. -/
def read (st : Store) (key : String) (span : Span) : Except StoreError (List Sample) := do
  (← st.find key).read span

/-- The last sample of a series. -/
def latest? (st : Store) (key : String) : Except StoreError (Option Sample) :=
  (st.find key).map Series.lastSample?

/-- What is told about a series. -/
def summary (st : Store) (key : String) : Except StoreError SeriesSummary :=
  (st.find key).map Series.summary

/-- How many samples a series holds. -/
def countSamples (st : Store) (key : String) : Except StoreError Nat :=
  (st.find key).map Series.totalSamples

/-- The size of the store. -/
def stats (st : Store) : StoreStats where
  seriesCount := st.series.size
  totalSamples := st.series.values.foldl (· + ·.totalSamples) 0
  totalChunks := st.series.values.foldl (· + ·.chunks.size) 0
  memory := st.series.values.foldl (· + ·.memory) 0

end Store

end SeriesStore
