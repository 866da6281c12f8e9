import SeriesStore.Proofs.Store.Indexing

/-!
# Renaming substitutes names

A key occurs in five places of a store: a series is filed under it, is called by it, names it
as its source, writes into it by a rule, and is listed by it in the index. A renaming looks up
each of them on its own: one rule of the source, the source of each destination, the labels of
the series. In a sound and indexed store that comes to replacing the name everywhere.

Results:
1. `moved_eq_translated`: a series that moves to a free key.
2. `rename_translates`: a renaming replaces the name everywhere, and can be undone.
-/

namespace SeriesStore

/-- The series with every key that it names replaced. -/
def Series.translated (f : String → String) (s : Series) : Series :=
  { s with
    key := f s.key
    source := s.source.map f
    rules := s.rules.map fun r => { r with dest := f r.dest } }

namespace Store

/-- The store with every key replaced, wherever it occurs. -/
def translated (f : String → String) (st : Store) : Store :=
  { st with
    series := st.series.translate f (Series.translated f)
    index := st.index.translate f }

variable {st : Store} {old new key : String} {s q : Series}

/-! ## Names that occur -/

theorem ne_of_get? (hnew : st.get? new = none) (hq : st.get? key = some q) : key ≠ new := by
  rintro rfl
  rw [hq] at hnew
  cases hnew

/-- Keys of series that are listed or filed stay apart where the new name is free. -/
theorem apart_of_free (hnew : st.get? new = none) :
    ∀ k ∈ st.series.keys, ∀ k' ∈ st.series.keys,
      renamed old new k = renamed old new k' → k = k' := by
  intro k hk k' hk' heq
  obtain ⟨q, hq⟩ := SortedMap.mem_keys_iff.mp hk
  obtain ⟨q', hq'⟩ := SortedMap.mem_keys_iff.mp hk'
  exact renamed_inj (ne_of_get? hnew hq) (ne_of_get? hnew hq') heq

theorem Indexed.get?_of_lists (h : st.Indexed) {label : Label} (hlists : st.index.Lists label key) :
    ∃ q, st.get? key = some q := by
  obtain ⟨labels, hlabels, -⟩ := (h.listed label key).mp hlists
  obtain ⟨q, hq, -⟩ := Option.map_eq_some_iff.mp hlabels
  exact ⟨q, hq⟩

theorem Indexed.apart_of_free (h : st.Indexed) (old : String) (hnew : st.get? new = none)
    (label : Label) :
    ∀ k k', st.index.Lists label k → st.index.Lists label k' →
      renamed old new k = renamed old new k' → k = k' := by
  intro k k' hk hk' heq
  obtain ⟨q, hq⟩ := h.get?_of_lists hk
  obtain ⟨q', hq'⟩ := h.get?_of_lists hk'
  exact renamed_inj (ne_of_get? hnew hq) (ne_of_get? hnew hq') heq

/-! ## One series -/

theorem source_renamed {source : Option String} (h : source ≠ some old) :
    source.map (renamed old new) = source := by
  cases source with
  | none => rfl
  | some k => exact congrArg some (renamed_of_ne new fun heq => h (congrArg some heq))

/-- The series that moves names itself nowhere else. -/
theorem Sound.translated_self (h : st.Sound) (hs : st.get? old = some s) :
    s.translated (renamed old new) = { s with key := new } := by
  have hself := h.links.not_mem_own hs
  have hsource : s.source ≠ some old := by
    rw [← sourceOf?_of_get? hs, ne_eq, ← h.links.linked]
    exact h.links.not_mem_self old
  unfold Series.translated
  rw [(h.stored old s hs).named, source_renamed hsource, map_rules_renamed new hself,
    renamed_self]

/-- Of the other series, the source is retargeted and the destinations are given the new
name. -/
theorem Sound.translated_other (h : st.Sound) (hq : st.get? key = some q) (hne : key ≠ old) :
    q.translated (renamed old new) =
      if st.sourceOf? old = some key then q.retarget old new
      else if key ∈ st.dests old then { q with source := some new } else q := by
  have hkey : renamed old new q.key = q.key :=
    renamed_of_ne new ((h.stored key q hq).named.symm ▸ hne)
  have hdests := h.links.linked key old
  have hsource := h.links.linked old key
  rw [dests_of_get? hq] at hdests
  rw [sourceOf?_of_get? hq] at hsource
  unfold Series.translated
  split
  · -- A source has no source of its own.
    have hmem := hdests.mpr ‹_›
    have hroot : q.source = none := by
      by_contra hsome
      rw [Series.destinations, h.links.leaf hq hsome] at hmem
      cases hmem
    unfold Series.retarget
    rw [hkey, hroot, retargetFirst_eq old new (h.links.nodup_destinations hq)]
    rfl
  · have hfree : old ∉ q.destinations := mt hdests.mp ‹_›
    rw [hkey, map_rules_renamed new hfree]
    split
    · rw [hsource.mp ‹_›, Option.map_some, renamed_self]
    · rw [source_renamed (mt hsource.mpr ‹_›)]

/-! ## The whole store -/

theorem get?_translated (hnew : st.get? new = none) {k : String} :
    (st.translated (renamed old new)).get? k = some q ↔
      ∃ k₀ p, st.get? k₀ = some p ∧ renamed old new k₀ = k ∧ p.translated (renamed old new) = q :=
  SortedMap.get?_translate_iff (apart_of_free hnew)

/-- Every series is found under its new name, with all names in it replaced. -/
theorem get?_moved_renamed (h : st.Sound) (hs : st.get? old = some s) (hnew : st.get? new = none)
    (hq : st.get? key = some q) :
    (st.moved s old new).get? (renamed old new key) = some (q.translated (renamed old new)) := by
  rw [get?_moved h hs hnew]
  by_cases hold : key = old
  · subst hold
    obtain rfl := Option.some.inj (hs.symm.trans hq)
    rw [h.translated_self hs, renamed_self, if_neg (ne_of_get? hnew hs).symm, if_pos rfl]
  · rw [renamed_of_ne new hold, if_neg hold, if_neg (ne_of_get? hnew hq), hq,
      h.translated_other hq hold, apply_ite some, apply_ite some]
    rfl

/-- Nothing else is found. -/
theorem exists_of_get?_moved (h : st.Sound) (hs : st.get? old = some s) (hnew : st.get? new = none)
    {k : String} (hq : (st.moved s old new).get? k = some q) :
    ∃ k₀ p, st.get? k₀ = some p ∧ renamed old new k₀ = k := by
  rw [get?_moved h hs hnew] at hq
  by_cases hold : k = old
  · rw [if_pos hold] at hq
    cases hq
  by_cases hkey : k = new
  · exact ⟨old, s, hs, by rw [renamed_self, hkey]⟩
  cases hp : st.get? k with
  | none => simp [hold, hkey, hp] at hq
  | some p => exact ⟨k, p, hp, renamed_of_ne new hold⟩

/-- To take a series off the index and to add it under a free key is to replace its name. -/
theorem Indexed.index_moved (h : st.Indexed) (hs : st.get? old = some s)
    (hnew : st.get? new = none) :
    (st.index.remove old s.labels).add new s.labels = st.index.translate (renamed old new) := by
  have hapart := h.apart_of_free old hnew
  refine ((h.tight.remove old s.labels).add new s.labels).ext (h.tight.translate hapart)
    fun label k => ?_
  rw [LabelIndex.lists_add, LabelIndex.lists_remove]
  refine Iff.trans ?_ (LabelIndex.lists_translate (hapart label)).symm
  have hold : st.index.Lists label old ↔ label ∈ s.labels := by
    rw [h.listed, labelsOf?_of_get? hs]
    simp
  constructor
  · rintro (⟨hlists, hother⟩ | ⟨rfl, hlabel⟩)
    · refine ⟨k, hlists, renamed_of_ne new ?_⟩
      rintro rfl
      exact hother ⟨rfl, hold.mp hlists⟩
    · exact ⟨old, hold.mpr hlabel, renamed_self old k⟩
  · rintro ⟨k₀, hlists, rfl⟩
    by_cases hk : k₀ = old
    · subst hk
      exact .inr ⟨renamed_self k₀ new, hold.mp hlists⟩
    · rw [renamed_of_ne new hk]
      exact .inl ⟨hlists, fun heq => hk heq.1⟩

/-- A series that moves to a free key has its name replaced everywhere. -/
theorem moved_eq_translated (h : st.Sound) (hindexed : st.Indexed) (hs : st.get? old = some s)
    (hnew : st.get? new = none) : st.moved s old new = st.translated (renamed old new) := by
  obtain ⟨hconfig, hindex⟩ := rest_moved st s old new
  refine ext_get? hconfig (hindex.trans (hindexed.index_moved hs hnew)) fun k =>
    Option.ext fun q => ?_
  rw [get?_translated hnew]
  constructor
  · intro hq
    obtain ⟨k₀, p, hp, rfl⟩ := exists_of_get?_moved h hs hnew hq
    exact ⟨k₀, p, hp, rfl, Option.some.inj ((get?_moved_renamed h hs hnew hp).symm.trans hq)⟩
  · rintro ⟨k₀, p, hp, rfl, rfl⟩
    exact get?_moved_renamed h hs hnew hp

/-- A name that was free is taken back everywhere. -/
theorem translated_undone (h : st.Sound) (hindexed : st.Indexed) (hnew : st.get? new = none) :
    (st.translated (renamed old new)).translated (renamed new old) = st := by
  have hseries :
      (st.series.translate (renamed old new) (Series.translated (renamed old new))).translate
        (renamed new old) (Series.translated (renamed new old)) = st.series := by
    refine SortedMap.translate_undone fun k q hq => ⟨renamed_back old (ne_of_get? hnew hq), ?_⟩
    have hkey := renamed_back old ((h.stored k q hq).named.symm ▸ ne_of_get? hnew hq)
    have hsource : (q.source.map (renamed old new)).map (renamed new old) = q.source := by
      cases hsource : q.source with
      | none => rfl
      | some source =>
        have hne := h.links.source_ne hnew hq
        rw [hsource] at hne
        exact congrArg some (renamed_back old fun heq => hne (congrArg some heq))
    have hrules : (q.rules.map fun r => { r with dest := renamed old new r.dest }).map
        (fun r => { r with dest := renamed new old r.dest }) = q.rules := by
      rw [List.map_map, List.map_congr_left (g := id), List.map_id]
      intro r hr
      have hne : r.dest ≠ new := fun heq =>
        h.links.not_mem_destinations hnew hq (List.mem_map.mpr ⟨r, hr, heq⟩)
      simp only [Function.comp_apply, renamed_back old hne, id]
    unfold Series.translated
    rw [hkey, hsource, hrules]
  have hindex : (st.index.translate (renamed old new)).translate (renamed new old) = st.index := by
    refine LabelIndex.translate_undone fun label k hlists => ?_
    obtain ⟨q, hq⟩ := hindexed.get?_of_lists hlists
    exact renamed_back old (ne_of_get? hnew hq)
  unfold translated
  rw [hseries, hindex]

/-! ## Renamings -/

/-- In a store that calls reach, a renaming makes the new name free and replaces the old one
by it everywhere. Where the new name was free before, renaming back restores the store. -/
theorem rename_translates (hst : st.Reachable) (hold : st.contains old = true) (hne : old ≠ new) :
    ∃ st₁, makeFree new st = .ok () st₁ ∧ st₁.contains new = false ∧
      rename old new st = .ok () (st₁.translated (renamed old new)) ∧
      (st.contains new = false →
        rename new old (st₁.translated (renamed old new)) = .ok () st) := by
  have h := hst.sound
  have hindexed := hst.indexed
  rw [contains_eq] at hold
  obtain ⟨s, hs⟩ := Option.isSome_iff_exists.mp hold
  obtain ⟨st₁, s₁, hfree, hsound, hold₁, hnew, hok⟩ := rename_ok h hs hne
  have hindexed₁ := makeFree_indexed h hindexed hfree
  have hmoved := moved_eq_translated hsound hindexed₁ hold₁ hnew
  refine ⟨st₁, hfree, by rw [contains_eq, hnew]; rfl, by rw [hok, hmoved], fun hunused => ?_⟩
  have hnone : st.get? new = none := by
    simpa [contains_eq] using hunused
  obtain rfl : st₁ = st := by
    rw [makeFree_free hnone] at hfree
    cases hfree
    rfl
  -- The renamed store is one in which the old name is free.
  have hsound' := moved_sound hsound hold₁ hnew
  have hindexed' := moved_indexed hsound hindexed₁ hold₁ hnew
  have hget := get?_moved hsound hold₁ hnew
  have hold' : (st₁.moved s₁ old new).get? old = none := by rw [hget, if_pos rfl]
  have hnew' : (st₁.moved s₁ old new).get? new = some { s₁ with key := new } := by
    rw [hget, if_neg hne.symm, if_pos rfl]
  obtain ⟨st₂, s₂, hfree₂, hsound₂, hold₂, hnew₂, hok₂⟩ := rename_ok hsound' hnew' hne.symm
  obtain rfl : st₁.moved s₁ old new = st₂ := by
    rw [makeFree_free hold'] at hfree₂
    cases hfree₂
    rfl
  rw [← hmoved, hok₂, moved_eq_translated hsound₂ hindexed' hold₂ hnew₂, hmoved,
    translated_undone hsound hindexed₁ hnew]

/-- A destination is renamed and called by its old name again. -/
theorem rename_translates_destination :
    let options : SeriesOptions := { encoding := .plain, labels := [⟨"unit", "bytes"⟩] }
    let st : Store := runAll Call.perform [.create "s" options, .create "d" options,
      .createRule "s" "d" .sum 10, .add "s" ⟨5, ⟨1⟩⟩ .unset, .add "s" ⟨25, ⟨2⟩⟩ .unset]
      { config := {} }
    st.contains "d" = true ∧ "d" ≠ "t" ∧ st.contains "t" = false ∧
      ∃ st₁, makeFree "t" st = .ok () st₁ ∧ st₁.contains "t" = false ∧
        rename "d" "t" st = .ok () (st₁.translated (renamed "d" "t")) ∧
        (st.contains "t" = false →
          rename "t" "d" (st₁.translated (renamed "d" "t")) = .ok () st) := by
  intro options st
  have hst : st.Reachable := ⟨_, _, rfl⟩
  have hold : st.contains "d" = true := by decide +kernel
  have hne : "d" ≠ "t" := by decide
  exact ⟨hold, hne, by decide +kernel, rename_translates hst hold hne⟩

end Store

end SeriesStore
