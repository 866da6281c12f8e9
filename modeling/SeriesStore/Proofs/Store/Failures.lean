import SeriesStore.Proofs.Store.Reachable

/-!
# Failures

A call that fails changes nothing, but for one: a creation adds its series before it turns to
the templates of the configuration, and comes to a halt at a template whose buckets are empty.
What was done until then stays.

Results:
1. `create_stranded`: how a creation fails once it has begun.
2. `perform_cases`: any other call refuses before it changes anything, or succeeds.
3. `failed_unchanged_iff`: which failures change nothing.
-/

namespace SeriesStore.Store

variable {st st' : Store} {key : String} {options : SeriesOptions} {e : StoreError}

/-- A creation adds its series, and one of the destinations it is to add needs a rule with
empty buckets. -/
inductive Stranded (st : Store) : Call → Prop
  | create {key : String} {options : SeriesOptions} {template : RuleTemplate} :
      st.get? key = none → template ∈ st.config.templates → template.bucket = 0 →
      st.get? (destinationKey key template) = none → Stranded st (.create key options)

/-- Templates take no series away. -/
theorem templates_grow (hroot : SoundRoot key st) (labels : List Label)
    (templates : List RuleTemplate) {k : String}
    (hk : (stateAfter (templates.forM (applyTemplate key labels)) st).get? k = none) :
    st.get? k = none := by
  have hgrow := (templates_keep (p := fun st' => ∀ k, st'.get? k = none → st.get? k = none) hroot
    (fun k hk => hk) (fun st₁ st₂ s template options hroot hp hs hfree hbucket hatt k hk => ?_)
    labels templates).2
  · exact hgrow k hk
  · apply hp
    rw [hatt.found] at hk
    split at hk
    · cases hk
    split at hk
    · cases hk
    · exact hk

/-- Once it has begun, a creation fails only at a template whose buckets are empty, and then
leaves its series behind. -/
theorem create_stranded (h : st.Sound) (hfree : st.get? key = none)
    (hfail : create key options st = .error e st') :
    e = .emptyBucket ∧ st.Stranded (.create key options) ∧ SoundRoot key st' := by
  obtain ⟨st₁, hinserted, hcreate⟩ := create_free hfree options
  rw [hcreate] at hfail
  obtain ⟨before, template, after, st₂, htemplates, hbefore, hfail⟩ := forM_error hfail
  have hroot₁ := hinserted.root h hfree
  have hroot₂ := (templates_keep (p := fun _ => True) hroot₁ trivial (fun _ _ _ _ _ _ _ _ _ _ _ =>
    trivial) options.labels before).1
  rw [stateAfter_of_ok hbefore] at hroot₂
  obtain ⟨s, hs, -⟩ := hroot₂.2
  rcases applyTemplate_cases options.labels hs template with
    hok | ⟨hdest, ⟨hbucket, hfail'⟩ | ⟨-, st₃, options', hok, -⟩⟩
  · rw [hfail] at hok
    cases hok
  · rw [hfail] at hfail'
    cases hfail'
    have hdest₁ : st₁.get? (destinationKey key template) = none := by
      apply templates_grow hroot₁ options.labels before
      rwa [stateAfter_of_ok hbefore]
    refine ⟨rfl, .create hfree (by rw [htemplates]; simp) hbucket ?_, hroot₂⟩
    rw [hinserted.found] at hdest₁
    split at hdest₁
    · cases hdest₁
    · exact hdest₁
  · rw [hfail] at hok
    cases hok

theorem delete_cases (h : st.Sound) (key : String) :
    (∃ e, delete key st = .error e st) ∨ ∃ a st', delete key st = .ok a st' := by
  cases hs : st.get? key with
  | none => exact .inl ⟨_, delete_missing hs⟩
  | some s =>
    obtain ⟨st', hok, -⟩ := delete_ok h hs
    exact .inr ⟨(), st', hok⟩

theorem rename_cases (h : st.Sound) (old new : String) :
    (∃ e, rename old new st = .error e st) ∨ ∃ a st', rename old new st = .ok a st' := by
  cases hs : st.get? old with
  | none => exact .inl ⟨_, rename_missing hs new⟩
  | some s =>
    by_cases heq : old = new
    · subst heq
      exact .inr ⟨(), st, rename_self hs⟩
    · obtain ⟨st₁, s₁, -, -, -, -, hok⟩ := rename_ok h hs heq
      exact .inr ⟨(), _, hok⟩

/-- A call that is no creation refuses before it changes anything, or succeeds. -/
theorem perform_cases (h : st.Sound) {call : Call}
    (hother : ∀ key options, call ≠ .create key options) :
    (∃ e, call.perform st = .error e st) ∨ ∃ a st', call.perform st = .ok a st' := by
  cases call with
  | create key options => exact absurd rfl (hother key options)
  | delete key => exact delete_cases h key
  | rename old new => exact rename_cases h old new
  | createRule source dest aggregation bucket =>
    rcases createRule_cases st source dest aggregation bucket with hfail | ⟨s, d, hlinkable⟩
    · exact .inl hfail
    · obtain ⟨st', hok, -⟩ := hlinkable.createRule_ok aggregation
      exact .inr ⟨(), st', hok⟩
  | deleteRule source dest =>
    rcases deleteRule_cases h source dest with hfail | ⟨s, st', -, -, hok, -⟩
    · exact .inl hfail
    · exact .inr ⟨(), st', hok⟩
  | add key sample override =>
    rcases add_step h key sample override with ⟨e, hfail⟩ | ⟨s, x, s', writes, -, -, -, hok⟩
    · exact .inl ⟨e, map_of_error _ hfail⟩
    · exact .inr ⟨(), _, map_of_ok _ hok⟩
  | upsert key sample override =>
    rcases upsert_step h key sample override with ⟨e, hfail⟩ | ⟨s, x, s', writes, -, -, -, hok⟩
    · exact .inl ⟨e, hfail⟩
    · exact .inr ⟨(), _, hok⟩

/-- A creation refuses a key that is taken. Of any other it leaves the series behind when it
fails. -/
theorem create_unchanged_iff (h : st.Sound) (hfail : outcome (create key options) st = .error e) :
    stateAfter (create key options) st = st ↔ ¬ st.Stranded (.create key options) := by
  cases hfree : st.get? key with
  | some s =>
    have hused : st.contains key = true := by
      rw [contains_eq, hfree]
      rfl
    refine iff_of_true (stateAfter_of_error (create_used hused options)) ?_
    rintro ⟨hnone⟩
    rw [hfree] at hnone
    cases hnone
  | none =>
    cases hcreate : create key options st with
    | ok a st' =>
      rw [outcome_of_ok hcreate] at hfail
      cases hfail
    | error e' st' =>
      obtain ⟨-, hstranded, -, s, hs, -⟩ := create_stranded h hfree hcreate
      refine iff_of_false (fun heq => ?_) (not_not_intro hstranded)
      rw [stateAfter_of_error hcreate] at heq
      rw [heq, hfree] at hs
      cases hs

/-- A call that fails on a store that calls reach changes nothing, unless it is a creation that
is stranded. -/
theorem failed_unchanged_iff (hst : st.Reachable) {call : Call}
    (hfail : outcome call.perform st = .error e) :
    stateAfter call.perform st = st ↔ ¬ st.Stranded call := by
  have h := hst.sound
  by_cases hcreate : ∃ key options, call = .create key options
  · obtain ⟨key, options, rfl⟩ := hcreate
    exact create_unchanged_iff h hfail
  refine iff_of_true ?_ fun hstranded => ?_
  · rcases perform_cases h fun key options heq => hcreate ⟨key, options, heq⟩ with
      ⟨e', hrefused⟩ | ⟨a, st', hok⟩
    · exact stateAfter_of_error hrefused
    · rw [outcome_of_ok hok] at hfail
      cases hfail
  · cases hstranded
    exact hcreate ⟨_, _, rfl⟩

/-- A creation that fails and leaves its series behind. -/
theorem failed_create_changes :
    let st : Store := { config := { templates := [{ aggregation := .avg, bucket := 0 }] } }
    let call : Call := .create "s" {}
    outcome call.perform st = .error .emptyBucket ∧ stateAfter call.perform st ≠ st := by
  intro st call
  have hst : st.Reachable := ⟨_, [], rfl⟩
  have hfail : outcome call.perform st = .error .emptyBucket := by decide +kernel
  have hstranded : st.Stranded call := .create rfl List.mem_cons_self rfl rfl
  exact ⟨hfail, fun heq => (failed_unchanged_iff hst hfail).mp heq hstranded⟩

end SeriesStore.Store
