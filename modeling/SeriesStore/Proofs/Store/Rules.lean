import SeriesStore.Proofs.Store.Sound
import SeriesStore.Store.Rules

/-!
# Rules that come and go

Making and removing a rule keep a store sound.

Results:
1. `createRule_cases`, `Linkable.createRule_ok`: a rule is made between two series
   that may be linked, and else nothing is changed.
2. `deleteRule_cases`: a rule that exists is removed, and else nothing is changed.
3. `createRule_sound`, `deleteRule_sound`: a store stays sound.
-/

namespace SeriesStore.Store

variable {st st' : Store} {key k : String} {s d : Series}

/-! ## Making rules -/

/-- A new rule that has seen no sample. -/
def newRule (dest : String) (aggregation : Aggregation) (bucket : UInt64) : Rule :=
  ⟨dest, aggregation, bucket, .start aggregation, none⟩

theorem newRule_waiting (dest : String) (aggregation : Aggregation) (bucket : UInt64) :
    (newRule dest aggregation bucket).Follows [] := ⟨rfl, rfl⟩

theorem linkSource_free (h : d.source = none) (source : String) :
    d.linkSource source = { d with source := some source } := by
  unfold Series.linkSource
  rw [h]
  rfl

theorem addRule_eq (s : Series) (dest : String) (aggregation : Aggregation) {bucket : UInt64}
    (h : bucket ≠ 0) : s.addRule dest aggregation bucket =
      .ok { s with rules := s.rules ++ [newRule dest aggregation bucket] } := by
  unfold Series.addRule
  rw [Rule.new, if_neg h]
  rfl

theorem addRule_zero (s : Series) (dest : String) (aggregation : Aggregation) :
    s.addRule dest aggregation 0 = .error .emptyBucket := rfl

/-- A rule between two series that are not linked. -/
theorem Sound.link (h : st.Sound) {r : Rule} (hne : key ≠ r.dest)
    (hs : st.get? key = some s) (hd : st.get? r.dest = some d) (hsource : s.source = none)
    (hfree : d.source = none) (hrules : d.rules = []) (hpos : r.bucket ≠ 0)
    (hwaiting : r.Follows []) (hget : ∀ k, st'.get? k =
      if k = r.dest then some { d with source := some key }
      else if k = key then some { s with rules := s.rules ++ [r] } else st.get? k) :
    st'.Sound := by
  refine ⟨h.links.link hne hs hd hsource hfree hrules hget, fun k q hq => ?_⟩
  rw [hget] at hq
  split at hq
  · cases hq
    exact ‹k = r.dest› ▸ (h.stored r.dest d hd).linkedTo (some key)
  split at hq
  · cases hq
    exact ‹k = key› ▸ (h.stored key s hs).ruled hpos hwaiting
  · exact h.stored k q hq

/-- Two series may be linked by a rule with buckets of this length. -/
structure Linkable (st : Store) (source dest : String) (bucket : UInt64) (s d : Series) : Prop where
  ne : source ≠ dest
  pos : bucket ≠ 0
  from_source : st.get? source = some s
  to_dest : st.get? dest = some d
  root : s.source = none
  free : d.source = none
  leaf : d.rules = []

section Steps

variable {source dest : String} {bucket : UInt64}

theorem createRule_found (aggregation : Aggregation) (hne : source ≠ dest) (hpos : bucket ≠ 0)
    (hs : st.get? source = some s) : createRule source dest aggregation bucket st = (do
      if s.source.isSome then throw (sourceIsDestination source)
      let d ← lookUp dest
      if d.source.isSome || !d.rules.isEmpty then throw (destinationIsLinked dest)
      let s ← MonadExcept.ofExcept (s.addRule dest aggregation bucket)
      modify fun st => (st.put source s).alter dest (·.linkSource source) : Update Unit) st := by
  unfold createRule
  rw [if_neg hne, if_neg hpos]
  exact bind_of_ok (lookUp_ok hs)

theorem createRule_both (aggregation : Aggregation) (hne : source ≠ dest) (hpos : bucket ≠ 0)
    (hs : st.get? source = some s) (hroot : ¬ s.source.isSome = true)
    (hd : st.get? dest = some d) : createRule source dest aggregation bucket st = (do
      if d.source.isSome || !d.rules.isEmpty then throw (destinationIsLinked dest)
      let s ← MonadExcept.ofExcept (s.addRule dest aggregation bucket)
      modify fun st => (st.put source s).alter dest (·.linkSource source) : Update Unit) st := by
  rw [createRule_found aggregation hne hpos hs, if_neg hroot]
  exact bind_of_ok (lookUp_ok hd)

/-- Two series that may be linked are linked. -/
theorem Linkable.createRule_ok (h : st.Linkable source dest bucket s d)
    (aggregation : Aggregation) : ∃ st', createRule source dest aggregation bucket st = .ok () st' ∧
      (st'.config = st.config ∧ st'.index = st.index) ∧ ∀ k, st'.get? k =
        if k = dest then some { d with source := some source }
        else if k = source then
          some { s with rules := s.rules ++ [newRule dest aggregation bucket] }
        else st.get? k := by
  refine ⟨(st.put source { s with rules := s.rules ++ [newRule dest aggregation bucket] }).alter
    dest (·.linkSource source), ?_, ⟨rfl, rfl⟩, fun k => ?_⟩
  · have hroot : ¬ s.source.isSome = true := by simp [h.root]
    have hfree : ¬ (d.source.isSome || !d.rules.isEmpty) = true := by simp [h.free, h.leaf]
    rw [createRule_both aggregation h.ne h.pos h.from_source hroot h.to_dest, if_neg hfree,
      addRule_eq s dest aggregation h.pos]
    rfl
  · rw [get?_alter, get?_put]
    split
    · rw [‹k = dest›, if_neg (Ne.symm h.ne), h.to_dest, Option.map_some, linkSource_free h.free]
    · rfl

end Steps

/-- A rule is made between series that may be linked, and else nothing is changed. -/
theorem createRule_cases (st : Store) (source dest : String) (aggregation : Aggregation)
    (bucket : UInt64) :
    (∃ e, createRule source dest aggregation bucket st = .error e st) ∨
      ∃ s d, st.Linkable source dest bucket s d := by
  by_cases hne : source = dest
  · refine .inl ⟨selfLink, ?_⟩
    unfold createRule
    rw [if_pos hne]
    rfl
  by_cases hpos : bucket = 0
  · refine .inl ⟨.emptyBucket, ?_⟩
    unfold createRule
    rw [if_neg hne, if_pos hpos]
    rfl
  cases hs : st.get? source with
  | none =>
    refine .inl ⟨.seriesNotFound source, ?_⟩
    unfold createRule
    rw [if_neg hne, if_neg hpos]
    exact bind_of_error (lookUp_error hs)
  | some s =>
    by_cases hroot : s.source.isSome = true
    · refine .inl ⟨sourceIsDestination source, ?_⟩
      rw [createRule_found aggregation hne hpos hs, if_pos hroot]
      rfl
    cases hd : st.get? dest with
    | none =>
      refine .inl ⟨.seriesNotFound dest, ?_⟩
      rw [createRule_found aggregation hne hpos hs, if_neg hroot]
      exact bind_of_error (lookUp_error hd)
    | some d =>
      by_cases hlinked : (d.source.isSome || !d.rules.isEmpty) = true
      · refine .inl ⟨destinationIsLinked dest, ?_⟩
        rw [createRule_both aggregation hne hpos hs hroot hd, if_pos hlinked]
        rfl
      obtain ⟨hfree, hleaf⟩ : d.source = none ∧ d.rules = [] := by
        simpa using hlinked
      exact .inr ⟨s, d, hne, hpos, hs, hd, by simpa using hroot, hfree, hleaf⟩

/-- What is found after a rule was made. -/
theorem get?_createRule {source dest : String} {aggregation : Aggregation} {bucket : UInt64}
    (hs : st.get? source = some s) (hd : st.get? dest = some d)
    (h : createRule source dest aggregation bucket st = .ok () st') :
    source ≠ dest ∧ ∀ k, st'.get? k =
      if k = dest then some { d with source := some source }
      else if k = source then
        some { s with rules := s.rules ++ [newRule dest aggregation bucket] }
      else st.get? k := by
  rcases createRule_cases st source dest aggregation bucket with ⟨e, hfail⟩ | ⟨q, p, hlinkable⟩
  · rw [h] at hfail
    cases hfail
  obtain ⟨st₁, hok, -, hget⟩ := hlinkable.createRule_ok aggregation
  obtain rfl : st₁ = st' := by
    rw [h] at hok
    cases hok
    rfl
  obtain rfl : q = s := Option.some.inj (hlinkable.from_source.symm.trans hs)
  obtain rfl : p = d := Option.some.inj (hlinkable.to_dest.symm.trans hd)
  exact ⟨hlinkable.ne, hget⟩

theorem createRule_sound (h : st.Sound) (source dest : String) (aggregation : Aggregation)
    (bucket : UInt64) : (stateAfter (createRule source dest aggregation bucket) st).Sound := by
  rcases createRule_cases st source dest aggregation bucket with
    ⟨e, hfail⟩ | ⟨s, d, hlinkable⟩
  · rw [stateAfter_of_error hfail]
    exact h
  · obtain ⟨st', hok, -, hget⟩ := hlinkable.createRule_ok aggregation
    rw [stateAfter_of_ok hok]
    exact h.link (r := newRule dest aggregation bucket) hlinkable.ne hlinkable.from_source
      hlinkable.to_dest hlinkable.root hlinkable.free hlinkable.leaf hlinkable.pos
      (newRule_waiting dest aggregation bucket) hget

/-! ## Removing rules -/

theorem hasRule_iff : s.hasRule dest = true ↔ dest ∈ s.destinations := by
  simp [Series.hasRule, Series.destinations]

/-- A rule that exists is removed, and else nothing is changed. -/
theorem deleteRule_cases (h : st.Sound) (source dest : String) :
    (∃ e, deleteRule source dest st = .error e st) ∨
      ∃ s st', st.get? source = some s ∧ dest ∈ s.destinations ∧
        deleteRule source dest st = .ok () st' ∧
        (st'.config = st.config ∧ st'.index = st.index) ∧ ∀ k, st'.get? k =
          if k = dest then (st.get? dest).map (·.unlinkSource source)
          else if k = source then some (s.dropRule dest) else st.get? k := by
  cases hs : st.get? source with
  | none =>
    refine .inl ⟨.seriesNotFound source, ?_⟩
    unfold deleteRule
    rw [bind_of_error (lookUp_error hs)]
  | some s =>
    by_cases hrule : s.hasRule dest = true
    · have hmem := hasRule_iff.mp hrule
      have hne : dest ≠ source := by
        rintro rfl
        exact h.links.not_mem_own hs hmem
      refine .inr ⟨s, (st.put source (s.dropRule dest)).alter dest (·.unlinkSource source), rfl,
        hmem, ?_, ⟨rfl, rfl⟩, fun k => ?_⟩
      · unfold deleteRule
        rw [bind_of_ok (lookUp_ok hs), if_neg (by simp [hrule])]
        rfl
      · rw [get?_alter, get?_put]
        split
        · rw [‹k = dest›, if_neg hne]
        · rfl
    · refine .inl ⟨.ruleNotFound source dest, ?_⟩
      unfold deleteRule
      rw [bind_of_ok (lookUp_ok hs), if_pos (by simpa using hrule)]
      rfl

theorem deleteRule_sound (h : st.Sound) (source dest : String) :
    (stateAfter (deleteRule source dest) st).Sound := by
  rcases deleteRule_cases h source dest with ⟨e, hfail⟩ | ⟨s, st', hs, hmem, hok, -, hget⟩
  · rw [stateAfter_of_error hfail]
    exact h
  rw [stateAfter_of_ok hok]
  refine ⟨h.links.unlinkRule hs hmem hget, fun k q hq => ?_⟩
  rw [hget] at hq
  split at hq
  · obtain ⟨p, hp, rfl⟩ := Option.map_eq_some_iff.mp hq
    exact ‹k = dest› ▸ (h.stored dest p hp).unlinkSource source
  split at hq
  · cases hq
    exact ‹k = source› ▸ (h.stored source s hs).dropRule dest
  · exact h.stored k q hq

end SeriesStore.Store
