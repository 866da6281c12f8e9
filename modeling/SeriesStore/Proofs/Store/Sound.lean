import SeriesStore.Proofs.Series.Rules
import SeriesStore.Proofs.Store.Links

/-!
# Sound stores

A store is sound where its links are two-sided and each series is valid and is stored
under its own name. No rule has empty buckets, and the rules of a series without samples
have seen none. What is done to the series alone is settled here; `Linked` is about all
of them together.

Results:
1. `StoredAs.relinked`, `StoredAs.changed`: a series goes on being what may be stored
   when its links or its samples change.
-/

namespace SeriesStore

namespace Series

variable {s s' : Series} {key : String} {x : Sample} {writes : List BucketWrite}

/-- The series may be stored under this key. -/
structure StoredAs (s : Series) (key : String) : Prop where
  named : s.key = key
  valid : s.Valid
  positive : ∀ r ∈ s.rules, r.bucket ≠ 0
  -- Rules wait for the first sample.
  waiting : s.toList = [] → ∀ r ∈ s.rules, r.Follows []

theorem new_storedAs (key : String) (options : SeriesOptions) : (new key options).StoredAs key :=
  ⟨rfl, new_valid key options, fun _ hr => absurd hr List.not_mem_nil,
    fun _ _ hr => absurd hr List.not_mem_nil⟩

/-- Neither names nor links matter to the samples. -/
theorem Valid.relinked (h : s.Valid) (key : String) (source : Option String) (rules : List Rule) :
    Valid { s with key, source, rules } :=
  ⟨h.laid, h.total, h.last, h.roomy⟩

theorem StoredAs.linkedTo (h : s.StoredAs key) (source : Option String) :
    StoredAs { s with source } key :=
  ⟨h.named, h.valid.relinked _ _ _, h.positive, h.waiting⟩

theorem StoredAs.ruled (h : s.StoredAs key) {r : Rule} (hpos : r.bucket ≠ 0)
    (hwaiting : r.Follows []) : StoredAs { s with rules := s.rules ++ [r] } key := by
  refine ⟨h.named, h.valid.relinked _ _ _, fun q hq => ?_, fun hnil q hq => ?_⟩
  · rcases List.mem_append.mp hq with hq | hq
    · exact h.positive q hq
    · rwa [List.mem_singleton.mp hq]
  · rcases List.mem_append.mp hq with hq | hq
    · exact h.waiting hnil q hq
    · rwa [List.mem_singleton.mp hq]

theorem StoredAs.dropRule (h : s.StoredAs key) (dest : String) : (s.dropRule dest).StoredAs key :=
  ⟨h.named, h.valid.relinked _ _ _, fun r hr => h.positive r (List.mem_of_mem_eraseP hr),
    fun hnil r hr => h.waiting hnil r (List.mem_of_mem_eraseP hr)⟩

theorem StoredAs.unlinkSource (h : s.StoredAs key) (source : String) :
    (s.unlinkSource source).StoredAs key := by
  unfold Series.unlinkSource
  split
  · exact h.linkedTo none
  · exact h

theorem StoredAs.renamed (h : s.StoredAs key) (new : String) : StoredAs { s with key := new } new :=
  ⟨rfl, h.valid.relinked _ _ _, h.positive, h.waiting⟩

theorem exists_of_retargetFirst {old new : String} {rules : List Rule} {r : Rule}
    (hr : r ∈ retargetFirst old new rules) : ∃ q ∈ rules, ∃ dest, r = { q with dest } := by
  induction rules with
  | nil => cases hr
  | cons q rules ih =>
    unfold retargetFirst at hr
    split at hr
    · rcases List.mem_cons.mp hr with rfl | hr
      · exact ⟨q, List.mem_cons_self, new, rfl⟩
      · exact ⟨r, List.mem_cons_of_mem _ hr, r.dest, rfl⟩
    · rcases List.mem_cons.mp hr with rfl | hr
      · exact ⟨r, List.mem_cons_self, r.dest, rfl⟩
      · obtain ⟨p, hp, hsame⟩ := ih hr
        exact ⟨p, List.mem_cons_of_mem _ hp, hsame⟩

theorem StoredAs.retarget (h : s.StoredAs key) (old new : String) :
    (s.retarget old new).StoredAs key := by
  refine ⟨h.named, h.valid.relinked _ _ _, fun r hr => ?_, fun hnil r hr => ?_⟩
  · obtain ⟨q, hq, dest, rfl⟩ := exists_of_retargetFirst hr
    exact h.positive q hq
  · obtain ⟨q, hq, dest, rfl⟩ := exists_of_retargetFirst hr
    have hwaiting := h.waiting hnil q hq
    exact ⟨hwaiting.start, hwaiting.context⟩

/-- A write changes samples and the state of rules, and neither the name nor the links. -/
theorem StoredAs.changed (h : s.StoredAs key) (hchange : Change s x s' writes) :
    s'.StoredAs key ∧ Store.linksOf s' = Store.linksOf s := by
  obtain ⟨step, hstepped⟩ := hchange.stepped
  have hkeeps := hstepped.keeps
  refine ⟨⟨hchange.alike.key.trans h.named, hchange.valid, fun r hr => ?_, fun hnil => ?_⟩, ?_⟩
  · rw [hstepped.rules] at hr
    obtain ⟨q, hq, rfl⟩ := List.mem_map.mp hr
    rw [hkeeps.bucket]
    exact h.positive q hq
  · exact absurd hnil (List.ne_nil_of_mem hchange.stored)
  · simp [Store.linksOf, hchange.alike.source, destinations, hstepped.rules, hkeeps.dest]

end Series

namespace Store

/-- Links are two-sided, and each series is what may be stored under its key. -/
structure Sound (st : Store) : Prop where
  links : st.Linked
  stored : ∀ key s, st.get? key = some s → s.StoredAs key

theorem Sound.valid {st : Store} (h : st.Sound) {key : String} {s : Series}
    (hs : st.get? key = some s) : s.Valid := (h.stored key s hs).valid

theorem Sound.empty (config : StoreConfig) : Sound { config } := by
  refine ⟨.empty config, fun key s hs => ?_⟩
  cases hs

end Store

end SeriesStore
