import SeriesStore.Proofs.Store.Rules
import SeriesStore.Store.Lifecycle

/-!
# Series that come, go and are renamed

Creating, deleting and renaming keep a store sound. Each of them is taken apart into
what is found under a key afterwards.

Results:
1. `create_keeps`: what goes on holding while a series is created.
2. `delete_ok`, `rename_ok`: what deleting and renaming come to.
3. `create_sound`, `delete_sound`, `rename_sound`: a store stays sound.
-/

namespace SeriesStore.Store

variable {st st' : Store} {key old new dest k : String} {s d : Series}

/-! ## Creating -/

theorem insertNew_used (h : st.contains key = true) (options : SeriesOptions) :
    insertNew key options st = .error (.seriesExists key) st := by
  unfold insertNew
  rw [bind_of_ok (get_apply st), if_pos h]
  rfl

/-- A series without samples has been added under a key that was free. -/
structure Inserted (st : Store) (key : String) (options : SeriesOptions) (st' : Store) : Prop where
  config : st'.config = st.config
  index : st'.index = st.index.add key options.labels
  found : ∀ k, st'.get? k = if k = key then some (Series.new key options) else st.get? k

theorem insertNew_free (h : st.get? key = none) (options : SeriesOptions) :
    ∃ st', insertNew key options st = .ok () st' ∧ st.Inserted key options st' := by
  have hfree : ¬ st.contains key = true := by
    rw [contains_eq, h]
    exact Bool.false_ne_true
  refine ⟨{ st.put key (Series.new key options) with index := st.index.add key options.labels },
    ?_, rfl, rfl, get?_put st key (Series.new key options)⟩
  unfold insertNew
  rw [bind_of_ok (get_apply st), if_neg hfree]
  rfl

theorem Sound.insertNew (h : st.Sound) (hnew : st.get? key = none) (options : SeriesOptions)
    (hget : ∀ k, st'.get? k = if k = key then some (Series.new key options) else st.get? k) :
    st'.Sound := by
  refine ⟨h.links.insertNew hnew rfl rfl hget, fun k q hq => ?_⟩
  rw [hget] at hq
  split at hq
  · cases hq
    exact ‹k = key› ▸ Series.new_storedAs key options
  · exact h.stored k q hq

section Templates

variable (labels : List Label) {template : RuleTemplate}

theorem applyTemplate_used (hused : st.contains (destinationKey key template) = true) :
    applyTemplate key labels template st = .ok () st := by
  unfold applyTemplate
  rw [bind_of_ok (get_apply st), if_pos hused]
  rfl

theorem applyTemplate_free (hs : st.get? key = some s)
    (hfree : st.get? (destinationKey key template) = none) :
    applyTemplate key labels template st = (do
      let source ← MonadExcept.ofExcept
        (s.addRule (destinationKey key template) template.aggregation template.bucket)
      set (st.put key source)
      Store.insertNew (destinationKey key template) (destinationOptions st.config labels template)
      modify (·.alter (destinationKey key template) (·.linkSource key)) : Update Unit) st := by
  have hused : ¬ st.contains (destinationKey key template) = true := by
    rw [contains_eq, hfree]
    exact Bool.false_ne_true
  unfold applyTemplate
  rw [bind_of_ok (get_apply st), if_neg hused]
  exact bind_of_ok (lookUp_ok hs)

theorem applyTemplate_zero (hs : st.get? key = some s)
    (hfree : st.get? (destinationKey key template) = none) (hbucket : template.bucket = 0) :
    applyTemplate key labels template st = .error .emptyBucket st := by
  rw [applyTemplate_free labels hs hfree, hbucket, addRule_zero]
  rfl

/-- A series has been given a rule into a destination that is new. -/
structure Attached (st : Store) (key : String) (s : Series) (rule : Rule) (options : SeriesOptions)
    (st' : Store) : Prop where
  config : st'.config = st.config
  index : st'.index = st.index.add rule.dest options.labels
  found : ∀ k, st'.get? k =
    if k = rule.dest then some { Series.new rule.dest options with source := some key }
    else if k = key then some { s with rules := s.rules ++ [rule] }
    else st.get? k

/-- The rule of a template. -/
def templateRule (key : String) (template : RuleTemplate) : Rule :=
  newRule (destinationKey key template) template.aggregation template.bucket

theorem dest_templateRule (key : String) (template : RuleTemplate) :
    (templateRule key template).dest = destinationKey key template := rfl

theorem bucket_templateRule (key : String) (template : RuleTemplate) :
    (templateRule key template).bucket = template.bucket := rfl

/-- The destination of a template is new, and linked to the series. -/
theorem applyTemplate_ok (hs : st.get? key = some s)
    (hfree : st.get? (destinationKey key template) = none) (hbucket : template.bucket ≠ 0) :
    ∃ st' options, applyTemplate key labels template st = .ok () st' ∧
      st.Attached key s (templateRule key template) options st' := by
  have hopen := applyTemplate_free labels hs hfree
  rw [addRule_eq s _ template.aggregation hbucket] at hopen
  generalize destinationOptions st.config labels template = options at hopen
  change applyTemplate key labels template st = _ at hopen
  have hmissing : (st.put key { s with rules := s.rules ++ [templateRule key template] }).get?
      (destinationKey key template) = none := by
    have hne : destinationKey key template ≠ key := by
      intro heq
      rw [heq, hs] at hfree
      cases hfree
    rw [get?_put, if_neg hne, hfree]
  obtain ⟨st₁, hins, hconfig, hindex, hfound⟩ := insertNew_free hmissing options
  refine ⟨st₁.alter (destinationKey key template) (·.linkSource key), options, ?_, hconfig, hindex,
    fun k => ?_⟩
  · rw [hopen, bind_of_ok (ofExcept_ok _ st), bind_of_ok (set_apply st _)]
    exact bind_of_ok hins
  · change _ = if k = destinationKey key template then some { Series.new
      (destinationKey key template) options with source := some key } else _
    rw [get?_alter, hfound]
    split
    · rw [Option.map_some, linkSource_free rfl]
    · rw [get?_put]

/-- A template whose destination exists is passed over. One whose buckets are empty is
refused, and any other gives its series a rule. -/
theorem applyTemplate_cases (hs : st.get? key = some s) (template : RuleTemplate) :
    applyTemplate key labels template st = .ok () st ∨
      st.get? (destinationKey key template) = none ∧
        (template.bucket = 0 ∧ applyTemplate key labels template st = .error .emptyBucket st ∨
          template.bucket ≠ 0 ∧ ∃ st' options, applyTemplate key labels template st = .ok () st' ∧
            st.Attached key s (templateRule key template) options st') := by
  cases hfree : st.get? (destinationKey key template) with
  | some d =>
    have hused : st.contains (destinationKey key template) = true := by
      rw [contains_eq, hfree]
      rfl
    exact .inl (applyTemplate_used labels hused)
  | none =>
    refine .inr ⟨rfl, ?_⟩
    by_cases hbucket : template.bucket = 0
    · exact .inl ⟨hbucket, applyTemplate_zero labels hs hfree hbucket⟩
    · exact .inr ⟨hbucket, applyTemplate_ok labels hs hfree hbucket⟩

end Templates

/-- A rule into a new destination keeps a store sound. The destination comes first, and
the rule between the two after it. -/
theorem Sound.attach (h : st.Sound) {rule : Rule} {options : SeriesOptions}
    (hs : st.get? key = some s) (hsource : s.source = none) (hfree : st.get? rule.dest = none)
    (hbucket : rule.bucket ≠ 0) (hwaiting : rule.Follows [])
    (hatt : st.Attached key s rule options st') : st'.Sound := by
  have hne : key ≠ rule.dest := by
    intro heq
    rw [← heq, hs] at hfree
    cases hfree
  have hins := get?_put st rule.dest (Series.new rule.dest options)
  have hinserted := h.insertNew hfree options hins
  refine hinserted.link hne ((hins key).trans (by rw [if_neg hne, hs]))
    ((hins rule.dest).trans (if_pos rfl)) hsource rfl rfl hbucket hwaiting fun k => ?_
  rw [hatt.found, hins]
  split <;> rfl

/-- A series that is no destination stays one while templates are applied to it. -/
def SoundRoot (key : String) (st : Store) : Prop :=
  st.Sound ∧ ∃ s, st.get? key = some s ∧ s.source = none

theorem SoundRoot.attach (h : SoundRoot key st) {template : RuleTemplate} {options : SeriesOptions}
    (hs : st.get? key = some s) (hfree : st.get? (destinationKey key template) = none)
    (hbucket : template.bucket ≠ 0)
    (hatt : st.Attached key s (templateRule key template) options st') : SoundRoot key st' := by
  obtain ⟨hsound, _, hs', hsource⟩ := h
  obtain rfl := Option.some.inj (hs.symm.trans hs')
  have hwaiting : (templateRule key template).Follows [] := newRule_waiting _ _ _
  rw [← dest_templateRule] at hfree
  rw [← bucket_templateRule key] at hbucket
  generalize templateRule key template = rule at hfree hbucket hwaiting hatt
  have hne : key ≠ rule.dest := by
    intro heq
    rw [← heq, hs] at hfree
    cases hfree
  have hkey := hatt.found key
  rw [if_neg hne, if_pos rfl] at hkey
  exact ⟨hsound.attach hs hsource hfree hbucket hwaiting hatt, _, hkey, hsource⟩

theorem create_used (h : st.contains key = true) (options : SeriesOptions) :
    create key options st = .error (.seriesExists key) st := by
  unfold create
  rw [bind_of_error (insertNew_used h options)]

theorem create_free (h : st.get? key = none) (options : SeriesOptions) :
    ∃ st', st.Inserted key options st' ∧ create key options st =
      st.config.templates.forM (applyTemplate key options.labels) st' := by
  obtain ⟨st', hins, hinserted⟩ := insertNew_free h options
  refine ⟨st', hinserted, ?_⟩
  unfold create
  rw [bind_of_ok hins, bind_of_ok (get_apply st'), hinserted.config]

/-- What goes on holding when a series is given a rule into a new destination holds after any
templates. -/
theorem templates_keep {p : Store → Prop} (hroot : SoundRoot key st) (hp : p st)
    (hattach : ∀ (st st' : Store) s template options, SoundRoot key st → p st →
      st.get? key = some s → st.get? (destinationKey key template) = none → template.bucket ≠ 0 →
      st.Attached key s (templateRule key template) options st' → p st')
    (labels : List Label) (templates : List RuleTemplate) :
    SoundRoot key (stateAfter (templates.forM (applyTemplate key labels)) st) ∧
      p (stateAfter (templates.forM (applyTemplate key labels)) st) := by
  refine stateAfter_forM (p := fun st => SoundRoot key st ∧ p st) (fun template st h => ?_)
    templates ⟨hroot, hp⟩
  obtain ⟨hroot, hp⟩ := h
  obtain ⟨s, hs, -⟩ := hroot.2
  rcases applyTemplate_cases labels hs template with
    hok | ⟨hfree, ⟨-, hfail⟩ | ⟨hbucket, st', options', hok, hatt⟩⟩
  · rw [stateAfter_of_ok hok]
    exact ⟨hroot, hp⟩
  · rw [stateAfter_of_error hfail]
    exact ⟨hroot, hp⟩
  · rw [stateAfter_of_ok hok]
    exact ⟨hroot.attach hs hfree hbucket hatt,
      hattach st st' s template options' hroot hp hs hfree hbucket hatt⟩

theorem Inserted.root {options : SeriesOptions} (hinserted : st.Inserted key options st')
    (h : st.Sound) (hfree : st.get? key = none) : SoundRoot key st' :=
  ⟨h.insertNew hfree options hinserted.found, _, (hinserted.found key).trans (if_pos rfl), rfl⟩

/-- What holds of a store, and goes on holding when a series without samples is added and
when a series is given a rule into a new destination, holds after a creation. -/
theorem create_keeps {p : Store → Prop} (h : st.Sound) (key : String) (options : SeriesOptions)
    (hused : st.contains key = true → p st)
    (hinsert : ∀ st', st.get? key = none → st.Inserted key options st' → p st')
    (hattach : ∀ (st st' : Store) s template options, SoundRoot key st → p st →
      st.get? key = some s → st.get? (destinationKey key template) = none → template.bucket ≠ 0 →
      st.Attached key s (templateRule key template) options st' → p st') :
    p (stateAfter (create key options) st) := by
  by_cases hcontains : st.contains key = true
  · rw [stateAfter_of_error (create_used hcontains options)]
    exact hused hcontains
  have hfree : st.get? key = none := by
    simpa [contains_eq] using hcontains
  obtain ⟨st₁, hinserted, hcreate⟩ := create_free hfree options
  unfold stateAfter
  rw [hcreate, ← stateAfter]
  exact (templates_keep (hinserted.root h hfree) (hinsert st₁ hfree hinserted) hattach
    options.labels st.config.templates).2

theorem create_sound (h : st.Sound) (key : String) (options : SeriesOptions) :
    (stateAfter (create key options) st).Sound :=
  create_keeps h key options (fun _ => h)
    (fun _ hfree hinserted => h.insertNew hfree options hinserted.found)
    fun _ _ _ _ _ hroot _ hs hfree hbucket hatt => (hroot.attach hs hfree hbucket hatt).1

/-! ## Deleting -/

/-- A series has a source or destinations, not both, so that one of the two ends of
its links is all there is to change. -/
theorem get?_unlink (h : st.Sound) (hs : st.get? key = some s) (index : LabelIndex) (k : String) :
    (({ st with series := st.series.erase key, index } : Store).unlink s.deleted).get? k =
      if k = key then none
      else if st.sourceOf? key = some k then (st.get? k).map (·.dropRule key)
      else if k ∈ st.dests key then (st.get? k).map (·.unlinkSource key)
      else st.get? k := by
  have hkey : s.key = key := (h.stored key s hs).named
  rw [sourceOf?_of_get? hs, dests_of_get? hs, unlink, Series.deleted, hkey]
  cases hsource : s.source with
  | none =>
    rw [get?_alterAll _ (h.links.nodup_destinations hs), get?_erase]
    by_cases hk : k = key
    · simp [hk]
    · simp [hk]
  | some source =>
    have hleaf := h.links.leaf hs (by simp [hsource])
    rw [Series.destinations, hleaf, List.map_nil, List.foldl_nil, get?_alter, get?_erase]
    by_cases hk : k = key
    · simp [hk]
    · simp [hk, eq_comm]

theorem rest_unlink (st : Store) (gone : DeletedSeries) :
    (st.unlink gone).config = st.config ∧ (st.unlink gone).index = st.index := by
  unfold unlink
  cases gone.source with
  | none => exact rest_alterAll _ gone.destinations st
  | some source => exact rest_alterAll _ gone.destinations st

theorem delete_missing (h : st.get? key = none) :
    delete key st = .error (.seriesNotFound key) st := by
  unfold delete
  rw [bind_of_error (lookUp_error h)]

theorem delete_ok (h : st.Sound) (hs : st.get? key = some s) :
    ∃ st', delete key st = .ok () st' ∧ st'.Sound ∧
      (st'.config = st.config ∧ st'.index = st.index.remove key s.labels) ∧ ∀ k, st'.get? k =
      if k = key then none
      else if st.sourceOf? key = some k then (st.get? k).map (·.dropRule key)
      else if k ∈ st.dests key then (st.get? k).map (·.unlinkSource key)
      else st.get? k := by
  have hget := get?_unlink h hs (st.index.remove s.deleted.key s.deleted.labels)
  have hrest := rest_unlink { st with
    series := st.series.erase key
    index := st.index.remove s.deleted.key s.deleted.labels } s.deleted
  have hkey : s.deleted.key = key := (h.stored key s hs).named
  refine ⟨_, ?_, ⟨h.links.erase hget, fun k q hq => ?_⟩, hkey ▸ hrest, hget⟩
  · unfold delete
    rw [bind_of_ok (lookUp_ok hs)]
    rfl
  · rw [hget] at hq
    split at hq
    · cases hq
    split at hq
    · obtain ⟨p, hp, rfl⟩ := Option.map_eq_some_iff.mp hq
      exact (h.stored k p hp).dropRule key
    split at hq
    · obtain ⟨p, hp, rfl⟩ := Option.map_eq_some_iff.mp hq
      exact (h.stored k p hp).unlinkSource key
    · exact h.stored k q hq

theorem delete_sound (h : st.Sound) (key : String) : (stateAfter (delete key) st).Sound := by
  cases hs : st.get? key with
  | none =>
    rw [stateAfter_of_error (delete_missing hs)]
    exact h
  | some s =>
    obtain ⟨st', hok, hsound, -⟩ := delete_ok h hs
    rw [stateAfter_of_ok hok]
    exact hsound

/-! ## Renaming -/

/-- The links of the series that is now stored under `new` follow it there. -/
theorem get?_relink {q : Series} (old : String) {new : String} (hq : st.get? new = some q)
    (hsingle : q.destinations.Nodup) (k : String) :
    (st.relink old new).get? k =
      if k ∈ q.destinations then
        (if q.source = some k then (st.get? k).map (·.retarget old new) else st.get? k).map
          fun d => { d with source := some new }
      else if q.source = some k then (st.get? k).map (·.retarget old new) else st.get? k := by
  unfold relink
  rw [hq]
  cases hsource : q.source with
  | none =>
    simp only [hsource]
    rw [get?_alterAll _ hsingle]
    rfl
  | some source =>
    simp only [hsource]
    rw [get?_alterAll _ hsingle, get?_alter]
    simp only [Option.some.injEq, eq_comm (a := source)]
    rfl

/-- The store after the series `s` was moved from `old` to `new`. -/
def moved (st : Store) (s : Series) (old new : String) : Store :=
  (({ st with series := st.series.erase old } : Store).put new { s with key := new }).relink old new

theorem rest_moved (st : Store) (s : Series) (old new : String) :
    (st.moved s old new).config = st.config ∧
      (st.moved s old new).index = (st.index.remove old s.labels).add new s.labels := by
  have hnew := get?_put { st with series := st.series.erase old } new { s with key := new } new
  rw [if_pos rfl] at hnew
  unfold moved relink
  rw [hnew]
  cases s.source with
  | none => exact rest_alterAll _ s.destinations _
  | some source => exact rest_alterAll _ s.destinations _

/-- A series moves to a key that is free, and every link to it follows. -/
theorem get?_moved (h : st.Sound) (hs : st.get? old = some s) (hnew : st.get? new = none)
    (k : String) : (st.moved s old new).get? k =
      if k = old then none
      else if k = new then some { s with key := new }
      else if st.sourceOf? old = some k then (st.get? k).map (·.retarget old new)
      else if k ∈ st.dests old then (st.get? k).map fun d => { d with source := some new }
      else st.get? k := by
  have hput : ∀ k, (({ st with series := st.series.erase old } : Store).put new
      { s with key := new }).get? k =
        if k = new then some { s with key := new } else if k = old then none else st.get? k := by
    intro k
    rw [get?_put, get?_erase st old st.index k]
  have hne : new ≠ old := by
    rintro rfl
    rw [hs] at hnew
    cases hnew
  have hsingle := h.links.nodup_destinations hs
  have hfree := h.links.not_mem_destinations hnew hs
  have hroot := h.links.source_ne hnew hs
  unfold moved
  rw [get?_relink old ((hput new).trans (if_pos rfl)) hsingle, hput, dests_of_get? hs,
    sourceOf?_of_get? hs, show ({ s with key := new } : Series).destinations = s.destinations from
      rfl]
  by_cases hold : k = old
  · simp [hold, hne.symm]
  by_cases hkey : k = new
  · simp [hkey, hne, hroot, hfree]
  by_cases hsource : s.source = some k
  · have hleaf := h.links.leaf hs (by simp [hsource])
    simp [hold, hkey, hsource, Series.destinations, hleaf]
  · simp [hold, hkey, hsource]

theorem moved_sound (h : st.Sound) (hs : st.get? old = some s) (hnew : st.get? new = none) :
    (st.moved s old new).Sound := by
  have hget := get?_moved h hs hnew
  refine ⟨h.links.move hs hnew hget, fun k q hq => ?_⟩
  rw [hget] at hq
  split at hq
  · cases hq
  split at hq
  · cases hq
    exact ‹k = new› ▸ (h.stored old s hs).renamed new
  split at hq
  · obtain ⟨p, hp, rfl⟩ := Option.map_eq_some_iff.mp hq
    exact (h.stored k p hp).retarget old new
  split at hq
  · obtain ⟨p, hp, rfl⟩ := Option.map_eq_some_iff.mp hq
    exact (h.stored k p hp).linkedTo (some new)
  · exact h.stored k q hq

/-- Makes the key `new` free. -/
def makeFree (new : String) : Update Unit := do
  if (← get).contains new then delete new

theorem makeFree_free (hused : st.get? new = none) : makeFree new st = .ok () st := by
  have hfree : ¬ st.contains new = true := by
    rw [contains_eq, hused]
    exact Bool.false_ne_true
  unfold makeFree
  rw [bind_of_ok (get_apply st), if_neg hfree]
  rfl

theorem makeFree_used (hused : st.get? new = some d) : makeFree new st = delete new st := by
  have hcontains : st.contains new = true := by
    rw [contains_eq, hused]
    rfl
  unfold makeFree
  rw [bind_of_ok (get_apply st), if_pos hcontains]

theorem makeFree_ok (h : st.Sound) (hs : st.get? old = some s)
    (hne : old ≠ new) : ∃ st' s', makeFree new st = .ok () st' ∧ st'.Sound ∧
      st'.get? old = some s' ∧ st'.get? new = none := by
  cases hused : st.get? new with
  | none => exact ⟨st, s, makeFree_free hused, h, hs, hused⟩
  | some q =>
    obtain ⟨st', hok, hsound, -, hget⟩ := delete_ok h hused
    have hold : ∃ s', st'.get? old = some s' := by
      rw [hget, if_neg hne, hs]
      split
      · exact ⟨_, rfl⟩
      split <;> exact ⟨_, rfl⟩
    obtain ⟨s', hs'⟩ := hold
    exact ⟨st', s', (makeFree_used hused).trans hok, hsound, hs', by rw [hget, if_pos rfl]⟩

theorem rename_missing (h : st.get? old = none) (new : String) :
    rename old new st = .error (.seriesNotFound old) st := by
  unfold rename
  rw [bind_of_error (lookUp_error h)]

theorem rename_self (hs : st.get? old = some s) : rename old old st = .ok () st := by
  unfold rename
  rw [bind_of_ok (lookUp_ok hs), if_pos rfl]
  rfl

theorem rename_eq (hs : st.get? old = some s) (hne : old ≠ new) :
    rename old new st = (do
      makeFree new
      let s ← lookUp old
      modify (·.moved s old new) : Update Unit) st := by
  unfold rename
  rw [bind_of_ok (lookUp_ok hs), if_neg hne]
  unfold makeFree
  rw [bind_assoc, bind_of_ok (get_apply st), bind_of_ok (get_apply st)]
  split <;> rfl

/-- A series is renamed by making the new name free and moving the series there. -/
theorem rename_ok (h : st.Sound) (hs : st.get? old = some s) (hne : old ≠ new) :
    ∃ st₁ s₁, makeFree new st = .ok () st₁ ∧ st₁.Sound ∧ st₁.get? old = some s₁ ∧
      st₁.get? new = none ∧ rename old new st = .ok () (st₁.moved s₁ old new) := by
  obtain ⟨st₁, s₁, hfree, hsound, hold, hnew⟩ := makeFree_ok h hs hne
  refine ⟨st₁, s₁, hfree, hsound, hold, hnew, ?_⟩
  rw [rename_eq hs hne, bind_of_ok hfree, bind_of_ok (lookUp_ok hold)]
  rfl

theorem rename_sound (h : st.Sound) (old new : String) :
    (stateAfter (rename old new) st).Sound := by
  cases hs : st.get? old with
  | none =>
    rw [stateAfter_of_error (rename_missing hs new)]
    exact h
  | some s =>
    by_cases heq : old = new
    · subst heq
      rw [stateAfter_of_ok (rename_self hs)]
      exact h
    obtain ⟨st₁, s₁, -, hsound, hold, hnew, hok⟩ := rename_ok h hs heq
    rw [stateAfter_of_ok hok]
    exact moved_sound hsound hold hnew

end SeriesStore.Store
