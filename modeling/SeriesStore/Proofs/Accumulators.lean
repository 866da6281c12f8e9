import SeriesStore.Accumulator

/-!
# Accumulators of lists

What an accumulator holds is a fold over its values, so it goes on from a list by
one more value, and begins anew after a reset. There is an aggregate exactly where
there is a value.

Results:
1. `ofList_concat`, `reset_ofList`: taking one more value and forgetting all.
2. `result?_ofList_eq_none`: where there is no aggregate.
-/

namespace SeriesStore.Accumulator

variable {α : Type} [Arithmetic α]

theorem reset_start (aggregation : Aggregation) :
    (start aggregation : Accumulator α).reset = start aggregation := by
  cases aggregation <;> rfl

theorem reset_add (a : Accumulator α) (x : α) : (a.add x).reset = a.reset := by
  cases a with
  | min least => cases least <;> rfl
  | max greatest => cases greatest <;> rfl
  | first value => cases value <;> rfl
  | range bounds => cases bounds <;> rfl
  | sum | mean | count | last | variance | deviation => rfl

theorem ofList_concat (aggregation : Aggregation) (values : List α) (x : α) :
    ofList aggregation (values ++ [x]) = (ofList aggregation values).add x := by
  unfold ofList
  rw [List.foldl_append]
  rfl

theorem reset_foldl_add (a : Accumulator α) (values : List α) :
    (values.foldl add a).reset = a.reset := by
  induction values generalizing a with
  | nil => rfl
  | cons x values ih => rw [List.foldl_cons, ih, reset_add]

/-- A reset forgets the values and keeps the aggregation. -/
theorem reset_ofList (aggregation : Aggregation) (values : List α) :
    (ofList aggregation values).reset = start aggregation := by
  unfold ofList
  rw [reset_foldl_add, reset_start]

theorem result?_start (aggregation : Aggregation) :
    (start aggregation : Accumulator α).result? = none := by
  cases aggregation <;> rfl

theorem isSome_variance? (m : Moments α) (ofSample : Bool) (h : m.count ≠ 0) :
    (m.variance? ofSample).isSome = true := by
  unfold Moments.variance?
  split
  · contradiction
  · rfl
  · rfl

/-- One value is enough for an aggregate. -/
theorem isSome_result?_add (a : Accumulator α) (x : α) : (a.add x).result?.isSome = true := by
  cases a with
  | min least => cases least <;> rfl
  | max greatest => cases greatest <;> rfl
  | first value => cases value <;> rfl
  | range bounds => cases bounds <;> rfl
  | sum | mean | count | last => rfl
  | variance m ofSample => exact isSome_variance? _ _ (Nat.succ_ne_zero m.count)
  | deviation m ofSample =>
    unfold add
    rw [result?, Option.isSome_map]
    exact isSome_variance? _ _ (Nat.succ_ne_zero m.count)

/-- There is an aggregate exactly where there is a value. -/
theorem result?_ofList_eq_none {aggregation : Aggregation} {values : List α} :
    (ofList aggregation values).result? = none ↔ values = [] := by
  constructor
  · intro hnone
    rcases List.eq_nil_or_concat values with rfl | ⟨front, x, hvalues⟩
    · rfl
    · have hsome := isSome_result?_add (ofList aggregation front) x
      rw [← ofList_concat, ← List.concat_eq_append, ← hvalues, hnone] at hsome
      cases hsome
  · rintro rfl
    exact result?_start aggregation

end SeriesStore.Accumulator
