import SeriesStore.Proofs.Store.Access
import SeriesStore.Store.Lifecycle
import SeriesStore.Store.Rules

/-!
# Links are two-sided

A series names the destinations of its rules, and a destination names its source.
In a linked store the two agree: a series is among the destinations of another one
exactly where it names that one as its source. Links are one level deep and no two
rules of a series have the same destination.

All this is read off two views of a store, `dests` and `sourceOf?`. Each change of a
store is given by what is found under a key afterwards; its two views follow, and
the rest is a distinction of keys.

Results:
1. `Linked.insertNew`, `Linked.link`, `Linked.unlinkRule`, `Linked.erase`,
   `Linked.move`: links stay two-sided when series and rules come, go and are
   renamed.
2. `Linked.congr`: links do not depend on samples.
-/

namespace SeriesStore.Store

/-- The destinations of the series under a key. -/
def dests (st : Store) (key : String) : List String :=
  ((st.get? key).map Series.destinations).getD []

/-- The source of the series under a key. -/
def sourceOf? (st : Store) (key : String) : Option String := (st.get? key).bind (·.source)

/-- Links are two-sided and one level deep. -/
structure Linked (st : Store) : Prop where
  linked : ∀ key dest, dest ∈ st.dests key ↔ st.sourceOf? dest = some key
  single : ∀ key, (st.dests key).Nodup
  level : ∀ key, st.sourceOf? key ≠ none → st.dests key = []

variable {st st' : Store} {key dest k : String} {s d : Series}

theorem dests_of_get? (h : st.get? key = some s) : st.dests key = s.destinations := by
  unfold dests
  rw [h]
  rfl

theorem sourceOf?_of_get? (h : st.get? key = some s) : st.sourceOf? key = s.source := by
  unfold sourceOf?
  rw [h]
  rfl

theorem dests_of_missing (h : st.get? key = none) : st.dests key = [] := by
  unfold dests
  rw [h]
  rfl

theorem sourceOf?_of_missing (h : st.get? key = none) : st.sourceOf? key = none := by
  unfold sourceOf?
  rw [h]
  rfl

/-- The store without series. -/
theorem Linked.empty (config : StoreConfig) : Linked { config } := by
  have hnone : ∀ key, ({ config } : Store).get? key = none := fun key => rfl
  have hdests := fun key => dests_of_missing (hnone key)
  have hsource := fun key => sourceOf?_of_missing (hnone key)
  refine ⟨fun key dest => ?_, fun key => ?_, fun key _ => hdests key⟩
  · rw [hdests, hsource]
    simp
  · rw [hdests]
    exact .nil

/-- No series is its own destination. -/
theorem Linked.not_mem_self (h : st.Linked) (key : String) : key ∉ st.dests key := by
  intro hmem
  have hsource := (h.linked key key).mp hmem
  rw [h.level key (by rw [hsource]; simp)] at hmem
  cases hmem

/-- A key that is free is no source. -/
theorem Linked.source_ne (h : st.Linked) (hfree : st.get? k = none) (hs : st.get? key = some s) :
    s.source ≠ some k := by
  intro hsource
  rw [← sourceOf?_of_get? hs, ← h.linked, dests_of_missing hfree] at hsource
  cases hsource

/-- A key that is free is no destination. -/
theorem Linked.not_mem_destinations (h : st.Linked) (hfree : st.get? k = none)
    (hs : st.get? key = some s) : k ∉ s.destinations := by
  rw [← dests_of_get? hs, h.linked, sourceOf?_of_missing hfree]
  simp

/-- No series is among its destinations. -/
theorem Linked.not_mem_own (h : st.Linked) (hs : st.get? key = some s) : key ∉ s.destinations :=
  dests_of_get? hs ▸ h.not_mem_self key

/-- No two rules of a series have the same destination. -/
theorem Linked.nodup_destinations (h : st.Linked) (hs : st.get? key = some s) :
    s.destinations.Nodup :=
  dests_of_get? hs ▸ h.single key

/-- A series that has a source owns no rules. -/
theorem Linked.leaf (h : st.Linked) (hs : st.get? key = some s) (hsource : s.source ≠ none) :
    s.rules = [] := by
  have hempty := h.level key (by rwa [sourceOf?_of_get? hs])
  rw [dests_of_get? hs] at hempty
  exact List.map_eq_nil_iff.mp hempty

/-- A destination exists, names the series as its source and owns no rules. -/
theorem Linked.exists_dest (h : st.Linked) (hs : st.get? key = some s)
    (hmem : dest ∈ s.destinations) :
    ∃ d, st.get? dest = some d ∧ d.source = some key ∧ d.rules = [] := by
  rw [← dests_of_get? hs, h.linked] at hmem
  obtain ⟨d, hd, hsource⟩ := Option.bind_eq_some_iff.mp hmem
  exact ⟨d, hd, hsource, h.leaf hd (by simp [hsource])⟩

/-- No destination is missing. -/
theorem Linked.missing_eq (h : st.Linked) (hs : st.get? key = some s) : st.missing s = [] := by
  apply List.filter_eq_nil_iff.mpr
  intro dest hdest
  obtain ⟨d, hd, -⟩ := h.exists_dest hs hdest
  simp [contains_eq, hd]

/-- Links are the same where the two views are. -/
theorem Linked.of_views (h : st.Linked) (hdests : ∀ k, st'.dests k = st.dests k)
    (hsources : ∀ k, st'.sourceOf? k = st.sourceOf? k) : st'.Linked := by
  refine ⟨fun k dest => ?_, fun k => ?_, fun k => ?_⟩
  · rw [hdests, hsources]
    exact h.linked k dest
  · rw [hdests]
    exact h.single k
  · rw [hdests, hsources]
    exact h.level k

/-- What the links of a series are read off: neither its samples nor the state of its
rules. -/
def linksOf (s : Series) : Option String × List String := (s.source, s.destinations)

theorem Linked.congr (h : st.Linked)
    (hsame : ∀ k, (st'.get? k).map linksOf = (st.get? k).map linksOf) : st'.Linked := by
  apply h.of_views
  · intro k
    have hk := congrArg (Option.map (·.2)) (hsame k)
    rw [Option.map_map, Option.map_map] at hk
    exact congrArg (Option.getD · []) hk
  · intro k
    have hk := congrArg (Option.bind · (·.1)) (hsame k)
    rw [sourceOf?, sourceOf?]
    simpa only [Option.bind_map, Function.comp_def, linksOf] using hk

/-! ## New series -/

/-- A new series without links. -/
theorem Linked.insertNew (h : st.Linked) (hnew : st.get? key = none)
    (hsource : s.source = none) (hrules : s.rules = [])
    (hget : ∀ k, st'.get? k = if k = key then some s else st.get? k) : st'.Linked := by
  apply h.of_views
  · intro k
    by_cases hk : k = key
    · subst hk
      simp [dests, hget, hnew, Series.destinations, hrules]
    · simp [dests, hget, hk]
  · intro k
    by_cases hk : k = key
    · subst hk
      simp [sourceOf?, hget, hnew, hsource]
    · simp [sourceOf?, hget, hk]

/-! ## Rules that come and go -/

/-- A rule between two series that are not linked. -/
theorem Linked.link (h : st.Linked) {rule : Rule} (hne : key ≠ rule.dest)
    (hs : st.get? key = some s) (hd : st.get? rule.dest = some d) (hsource : s.source = none)
    (hfree : d.source = none) (hrules : d.rules = [])
    (hget : ∀ k, st'.get? k =
      if k = rule.dest then some { d with source := some key }
      else if k = key then some { s with rules := s.rules ++ [rule] } else st.get? k) :
    st'.Linked := by
  have hdests : ∀ k, st'.dests k = if k = key then st.dests key ++ [rule.dest] else st.dests k := by
    intro k
    rw [dests, hget]
    by_cases hk : k = rule.dest
    · subst hk
      simp [Ne.symm hne, dests_of_get? hd, Series.destinations, hrules]
    · by_cases hk' : k = key
      · subst hk'
        simp [hk, dests_of_get? hs, Series.destinations]
      · simp [hk, hk', dests]
  have hsources : ∀ k, st'.sourceOf? k = if k = rule.dest then some key else st.sourceOf? k := by
    intro k
    rw [sourceOf?, hget]
    by_cases hk : k = rule.dest
    · simp [hk]
    · by_cases hk' : k = key
      · subst hk'
        simp [hk, sourceOf?_of_get? hs]
      · simp [hk, hk', sourceOf?]
  have hnone : ∀ k, rule.dest ∉ st.dests k := by
    intro k hk
    rw [h.linked, sourceOf?_of_get? hd, hfree] at hk
    cases hk
  have hempty : st.dests rule.dest = [] := by
    rw [dests_of_get? hd, Series.destinations, hrules]
    rfl
  have hroot := sourceOf?_of_get? hs
  refine ⟨fun k x => ?_, fun k => ?_, fun k => ?_⟩
  · have := h.linked
    grind
  · have := h.single
    grind
  · have := h.level
    grind

theorem destinations_dropRule (s : Series) (dest : String) :
    (s.dropRule dest).destinations = s.destinations.erase dest := by
  rw [Series.dropRule, Series.destinations, Series.destinations, List.erase_eq_eraseP',
    List.eraseP_map]
  rfl

@[simp] theorem rules_unlinkSource (s : Series) (source : String) :
    (s.unlinkSource source).rules = s.rules := by
  unfold Series.unlinkSource
  split <;> rfl

/-- The rule into a destination goes, and the destination forgets its source. -/
theorem Linked.unlinkRule (h : st.Linked) (hs : st.get? key = some s)
    (hlinked : dest ∈ s.destinations)
    (hget : ∀ k, st'.get? k =
      if k = dest then (st.get? dest).map (·.unlinkSource key)
      else if k = key then some (s.dropRule dest) else st.get? k) : st'.Linked := by
  rw [← dests_of_get? hs] at hlinked
  have hsource := (h.linked key dest).mp hlinked
  have hempty := h.level dest (by simp [hsource])
  have hne : key ≠ dest := by
    rintro rfl
    exact h.not_mem_self key hlinked
  obtain ⟨d, hd, hdsource⟩ := Option.bind_eq_some_iff.mp hsource
  have hdests : ∀ k, st'.dests k = if k = key then (st.dests key).erase dest else st.dests k := by
    intro k
    rw [dests, hget]
    by_cases hk : k = dest
    · subst hk
      rw [dests_of_get? hd] at hempty
      simp [Ne.symm hne, hd, dests_of_get? hd, Series.unlinkSource, hdsource, Series.destinations]
    · by_cases hk' : k = key
      · subst hk'
        simp [hk, dests_of_get? hs, destinations_dropRule]
      · simp [hk, hk', dests]
  have hsources : ∀ k, st'.sourceOf? k = if k = dest then none else st.sourceOf? k := by
    intro k
    rw [sourceOf?, hget]
    by_cases hk : k = dest
    · simp [hk, hd, Series.unlinkSource, hdsource]
    · by_cases hk' : k = key
      · subst hk'
        simp [hk, sourceOf?_of_get? hs, Series.dropRule]
      · simp [hk, hk', sourceOf?]
  refine ⟨fun k x => ?_, fun k => ?_, fun k => ?_⟩
  · have := h.linked
    have := h.single
    grind [List.Nodup.mem_erase_iff]
  · have := h.single
    grind
  · have := h.level
    grind

/-! ## Series that go -/

/-- A series goes, and every link to it. -/
theorem Linked.erase (h : st.Linked)
    (hget : ∀ k, st'.get? k =
      if k = key then none
      else if st.sourceOf? key = some k then (st.get? k).map (·.dropRule key)
      else if k ∈ st.dests key then (st.get? k).map (·.unlinkSource key)
      else st.get? k) : st'.Linked := by
  have hdests : ∀ k, st'.dests k = if k = key then [] else (st.dests k).erase key := by
    intro k
    rw [dests, hget]
    by_cases hk : k = key
    · simp [hk]
    · have hnot : st.sourceOf? key ≠ some k → (st.dests k).erase key = st.dests k := fun hne =>
        List.erase_of_not_mem (mt (h.linked k key).mp hne)
      by_cases hsource : st.sourceOf? key = some k
      · cases hq : st.get? k with
        | none => simp [hk, hsource, dests_of_missing hq]
        | some q => simp [hk, hsource, dests_of_get? hq, destinations_dropRule]
      · rw [if_neg hk, if_neg hk, if_neg hsource, hnot hsource]
        split
        · cases hq : st.get? k with
          | none => simp [dests_of_missing hq]
          | some q => simp [dests_of_get? hq, Series.destinations]
        · rfl
  have hsources : ∀ k, st'.sourceOf? k =
      if k = key then none else if k ∈ st.dests key then none else st.sourceOf? k := by
    intro k
    unfold sourceOf?
    rw [hget]
    by_cases hk : k = key
    · simp [hk]
    · rw [if_neg hk, if_neg hk]
      by_cases hsource : st.sourceOf? key = some k
      · have hempty := h.level key (by simp [hsource])
        rw [if_pos hsource, hempty, if_neg List.not_mem_nil, Option.bind_map]
        rfl
      · rw [if_neg hsource]
        split
        · have hlink := (h.linked key k).mp ‹_›
          obtain ⟨q, hq, hqsource⟩ := Option.bind_eq_some_iff.mp hlink
          simp [hq, Series.unlinkSource, hqsource]
        · rfl
  refine ⟨fun k x => ?_, fun k => ?_, fun k => ?_⟩
  · have := h.linked
    have := h.single
    grind [List.Nodup.mem_erase_iff]
  · have := h.single
    grind
  · have := h.level
    grind

/-! ## Series that are renamed -/

/-- The name a series has after a renaming. -/
def renamed (old new key : String) : String := if key = old then new else key

theorem renamed_self (old new : String) : renamed old new old = new := if_pos rfl

theorem renamed_of_ne {old : String} (new : String) (h : key ≠ old) : renamed old new key = key :=
  if_neg h

/-- Keys stay apart where none of them is the new name. -/
theorem renamed_inj {old new k k' : String} (hk : k ≠ new) (hk' : k' ≠ new)
    (heq : renamed old new k = renamed old new k') : k = k' := by
  unfold renamed at heq
  split at heq <;> split at heq
  · exact ‹k = old›.trans ‹k' = old›.symm
  · exact absurd heq.symm hk'
  · exact absurd heq hk
  · exact heq

/-- A name that is not in use is where it was after it was given and taken back. -/
theorem renamed_back (old : String) {new : String} (h : key ≠ new) :
    renamed new old (renamed old new key) = key := by
  by_cases heq : key = old
  · rw [heq, renamed_self, renamed_self]
  · rw [renamed_of_ne new heq, renamed_of_ne old h]

theorem map_renamed {old : String} (new : String) {keys : List String} (h : old ∉ keys) :
    keys.map (renamed old new) = keys := by
  rw [List.map_congr_left (g := id), List.map_id]
  intro key hkey
  exact renamed_of_ne new fun heq => h (heq ▸ hkey)

/-- No rule changes that writes into another key. -/
theorem map_rules_renamed {old : String} (new : String) {rules : List Rule}
    (h : old ∉ rules.map (·.dest)) :
    rules.map (fun r => { r with dest := renamed old new r.dest }) = rules := by
  rw [List.map_congr_left (g := id), List.map_id]
  intro r hr
  rw [renamed_of_ne new fun heq => h (List.mem_map.mpr ⟨r, hr, heq⟩)]
  rfl

/-- Where at most one rule writes into the old key, the first such rule is every such
rule. -/
theorem retargetFirst_eq (old new : String) {rules : List Rule}
    (hsingle : (rules.map (·.dest)).Nodup) :
    Series.retargetFirst old new rules =
      rules.map fun r => { r with dest := renamed old new r.dest } := by
  induction rules with
  | nil => rfl
  | cons r rules ih =>
    obtain ⟨hr, hrules⟩ := List.nodup_cons.mp hsingle
    unfold Series.retargetFirst
    split
    · subst old
      rw [List.map_cons, map_rules_renamed new hr, renamed_self]
    · rw [List.map_cons, ih hrules, renamed_of_ne new ‹_›]

theorem destinations_retarget {old new : String} (hsingle : s.destinations.Nodup) :
    (s.retarget old new).destinations = s.destinations.map (renamed old new) := by
  unfold Series.retarget Series.destinations
  rw [retargetFirst_eq old new hsingle, List.map_map, List.map_map]
  rfl

/-- A series moves to a key that is free, and every link to it follows. -/
theorem Linked.move (h : st.Linked) {old new : String} (hs : st.get? old = some s)
    (hnew : st.get? new = none)
    (hget : ∀ k, st'.get? k =
      if k = old then none
      else if k = new then some { s with key := new }
      else if st.sourceOf? old = some k then (st.get? k).map (·.retarget old new)
      else if k ∈ st.dests old then (st.get? k).map fun d => { d with source := some new }
      else st.get? k) : st'.Linked := by
  have hself := h.not_mem_self old
  have hdests : ∀ k, st'.dests k =
      if k = old then [] else if k = new then st.dests old
      else (st.dests k).map (renamed old new) := by
    intro k
    rw [dests, hget]
    by_cases hold : k = old
    · simp [hold]
    by_cases hkey : k = new
    · simp [hkey, show new ≠ old from hkey ▸ hold, dests_of_get? hs, Series.destinations]
    rw [if_neg hold, if_neg hkey, if_neg hold, if_neg hkey]
    cases hq : st.get? k with
    | none => simp [dests_of_missing hq]
    | some q =>
      by_cases hsource : st.sourceOf? old = some k
      · have hsingle := h.single k
        rw [dests_of_get? hq] at hsingle
        simp [hsource, dests_of_get? hq, destinations_retarget hsingle]
      · rw [if_neg hsource, map_renamed new (mt (h.linked k old).mp hsource), dests_of_get? hq]
        split <;> rfl
  have hsources : ∀ k, st'.sourceOf? k =
      if k = old then none else if k = new then st.sourceOf? old
      else if k ∈ st.dests old then some new else st.sourceOf? k := by
    intro k
    rw [sourceOf?, hget]
    by_cases hold : k = old
    · simp [hold]
    by_cases hkey : k = new
    · simp [hkey, show new ≠ old from hkey ▸ hold, sourceOf?_of_get? hs]
    rw [if_neg hold, if_neg hkey, if_neg hold, if_neg hkey]
    by_cases hsource : st.sourceOf? old = some k
    · have hempty := h.level old (by simp [hsource])
      rw [if_pos hsource, hempty, if_neg List.not_mem_nil, Option.bind_map]
      rfl
    · rw [if_neg hsource]
      split
      · have hlink := (h.linked old k).mp ‹_›
        obtain ⟨q, hq, -⟩ := Option.bind_eq_some_iff.mp hlink
        simp [hq]
      · rfl
  have hne : new ≠ old := by
    rintro rfl
    rw [hs] at hnew
    cases hnew
  have hnewDests := dests_of_missing hnew
  have hnewSource := sourceOf?_of_missing hnew
  have hfree : ∀ k, new ∉ st.dests k := by
    intro k hk
    rw [h.linked, hnewSource] at hk
    cases hk
  have hroot : ∀ k, st.sourceOf? k ≠ some new := by
    intro k hk
    rw [← h.linked, hnewDests] at hk
    cases hk
  refine ⟨fun k x => ?_, fun k => ?_, fun k => ?_⟩
  · have := h.linked
    have := h.level
    have hmem : x ∈ (st.dests k).map (renamed old new) ↔
        x ≠ old ∧ if x = new then old ∈ st.dests k else x ∈ st.dests k := by
      have := hfree k
      grind [renamed]
    rw [hdests, hsources]
    by_cases hold : k = old
    · grind
    by_cases hkey : k = new
    · grind
    rw [if_neg hold, if_neg hkey, hmem]
    grind
  · rw [hdests]
    split
    · exact .nil
    split
    · exact h.single old
    · refine (h.single k).map_on fun x hx y hy hxy => ?_
      have := hfree k
      grind [renamed]
  · intro hk
    have := h.level
    have := h.linked
    grind

end SeriesStore.Store
