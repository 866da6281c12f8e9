import SeriesStore.Proofs.Store.Reachable

/-!
# What is owed arrives

A delivery says nothing of a write that it cannot make. There is none: the destinations of a
series exist, no two of its rules share one, and as destinations own no rules, nothing is owed
for what they take. What is owed to a series it always takes, whatever it holds already.

Results:
1. `Awaited.arrive`: writes that are awaited by their destinations arrive.
2. `awaited_of_change`: the writes of a series are awaited.
3. `writes_arrive`: so they are after any calls.
-/

namespace SeriesStore

/-- Of an ascending run, a span of one timestamp holds one sample. -/
theorem Run.Ascending.filter_at {run : List Sample} (h : Run.Ascending run) {x : Sample}
    (hx : x ∈ run) :
    run.filter (({ low := x.timestamp, high := x.timestamp } : Span).holds ·.timestamp) = [x] := by
  have hone : Run.Ascending [x] := by simp [Run.Ascending]
  refine Run.Ascending.ext (h.filter _) hone fun y => ?_
  rw [List.mem_filter, List.mem_singleton]
  constructor
  · rintro ⟨hy, hholds⟩
    have hat : x.timestamp ≤ y.timestamp ∧ y.timestamp ≤ x.timestamp := by
      simpa [Span.holds] using hholds
    exact h.eq_of_timestamp hy hx (UInt64.le_antisymm hat.2 hat.1)
  · rintro rfl
    exact ⟨hx, by simp [Span.holds]⟩

/-- A series without rules owes nothing for what it takes. -/
theorem Series.receive_leaf {d : Series} (h : d.Valid) (hleaf : d.rules = []) (sample : Sample) :
    receive sample d = .ok [] (received sample d) ∧ Change d sample (received sample d) [] := by
  obtain ⟨d', writes, hreceive, hchange⟩ := receive_cases h sample
  obtain ⟨step, hstepped⟩ := hchange.stepped
  obtain rfl : writes = [] := by
    rw [hstepped.writes, hleaf]
    rfl
  rw [received, stateAfter_of_ok hreceive]
  exact ⟨hreceive, hchange⟩

namespace Store

/-- Each write is made when its turn comes, owes nothing, and is what is then stored. -/
structure Arrive (st : Store) (writes : List BucketWrite) : Prop where
  single : (writes.map (·.dest)).Nodup
  taken : ∀ before w after, writes = before ++ w :: after → ∃ d d',
    (st.deliver before).get? w.dest = some d ∧ Series.receive w.sample d = .ok [] d'
  stored : ∀ w ∈ writes, ∃ d, (st.deliver writes).get? w.dest = some d ∧
    d.range w.sample.timestamp w.sample.timestamp = .ok [w.sample]
  -- No chain of links is longer than the writes are passed on over.
  bounded : ∀ depth, deliverOver (depth + 1) writes st = st.deliver writes

/-- Each write is for a series of its own, which owns no rules. -/
structure Awaited (st : Store) (writes : List BucketWrite) : Prop where
  single : (writes.map (·.dest)).Nodup
  leaf : ∀ w ∈ writes, ∃ d, st.get? w.dest = some d ∧ d.Valid ∧ d.rules = []

variable {st st' : Store} {key : String} {s s' : Series} {x : Sample} {w : BucketWrite}
  {writes before after : List BucketWrite}

/-- What is delivered before leaves a destination as it was. -/
theorem Awaited.get?_before (h : st.Awaited (before ++ w :: after)) :
    (st.deliver before).get? w.dest = st.get? w.dest := by
  have hsingle := h.single
  rw [List.map_append, List.nodup_append] at hsingle
  have hnone : before.filter (·.dest == w.dest) = [] := List.filter_eq_nil_iff.mpr fun v hv => by
    rw [beq_iff_eq]
    exact hsingle.2.2 v.dest (List.mem_map_of_mem hv) w.dest List.mem_cons_self
  rw [get?_deliver, hnone]
  exact Option.map_id'

theorem Awaited.filter_eq (h : st.Awaited writes) (hw : w ∈ writes) :
    writes.filter (·.dest == w.dest) = [w] := by
  obtain ⟨before, after, rfl⟩ := List.append_of_mem hw
  have hsingle := h.single
  rw [List.map_append, List.map_cons, List.nodup_append, List.nodup_cons] at hsingle
  obtain ⟨-, ⟨hafter, -⟩, hbefore⟩ := hsingle
  have hnone : ∀ {vs : List BucketWrite}, (∀ v ∈ vs, v.dest ≠ w.dest) →
      vs.filter (·.dest == w.dest) = [] := fun hvs => List.filter_eq_nil_iff.mpr fun v hv => by
    rw [beq_iff_eq]
    exact hvs v hv
  have hw : (w :: after).filter (·.dest == w.dest) = w :: after.filter (·.dest == w.dest) :=
    List.filter_cons_of_pos (beq_self_eq_true w.dest)
  rw [List.filter_append, hw, hnone, hnone, List.nil_append]
  · intro v hv heq
    exact hafter (List.mem_map.mpr ⟨v, hv, heq⟩)
  · intro v hv
    exact hbefore v.dest (List.mem_map_of_mem hv) w.dest List.mem_cons_self

theorem Awaited.deliverOne (h : st.Awaited (w :: writes)) : (st.deliverOne w).Awaited writes := by
  obtain ⟨hw, hsingle⟩ := List.nodup_cons.mp h.single
  refine ⟨hsingle, fun v hv => ?_⟩
  have hne : v.dest ≠ w.dest := fun heq => hw (List.mem_map.mpr ⟨v, hv, heq⟩)
  rw [get?_deliverOne, if_neg hne]
  exact h.leaf v (List.mem_cons_of_mem w hv)

theorem deliverOver_nil (depth : Nat) (st : Store) : deliverOver depth [] st = st := by
  cases depth <;> rfl

/-- Nothing is owed for what is awaited, so that one link is as good as many. -/
theorem Awaited.deliverOver_eq (h : st.Awaited writes) (depth : Nat) :
    deliverOver (depth + 1) writes st = st.deliver writes := by
  rw [deliver_eq]
  unfold deliverOver
  induction writes generalizing st with
  | nil => rfl
  | cons w writes ih =>
    obtain ⟨d, hd, hvalid, hleaf⟩ := h.leaf w List.mem_cons_self
    rw [List.foldl_cons, List.foldl_cons, ← ih h.deliverOne]
    congr 1
    unfold Store.deliverOne
    simp only [hd, (Series.receive_leaf hvalid hleaf w.sample).1, deliverOver_nil]

/-- Writes that are awaited arrive. -/
theorem Awaited.arrive (h : st.Awaited writes) : st.Arrive writes where
  single := h.single
  taken before w after heq := by
    subst heq
    obtain ⟨d, hd, hvalid, hleaf⟩ := h.leaf w (by simp)
    exact ⟨d, _, h.get?_before.trans hd, (Series.receive_leaf hvalid hleaf w.sample).1⟩
  stored w hw := by
    obtain ⟨d, hd, hvalid, hleaf⟩ := h.leaf w hw
    obtain ⟨-, hchange⟩ := Series.receive_leaf hvalid hleaf w.sample
    refine ⟨Series.received w.sample d, ?_, ?_⟩
    · rw [get?_deliver, hd, h.filter_eq hw]
      rfl
    · rw [hchange.valid.range, hchange.valid.ascending.filter_at hchange.stored]
  bounded := h.deliverOver_eq

/-! ## Writes of a series -/

/-- No destination is owed more than one write. -/
theorem dests_sublist {step : Rule → Rule × Option BucketWrite} (hkeeps : Keeps step)
    (rules : List Rule) : ((rules.filterMap fun r => (step r).2).map (·.dest)).Sublist
      (rules.map (·.dest)) := by
  induction rules with
  | nil => exact .slnil
  | cons r rules ih =>
    rw [List.filterMap_cons]
    split
    · exact ih.cons _
    · rw [List.map_cons, List.map_cons, hkeeps.owed r _ ‹_›]
      exact ih.cons_cons _

/-- What a series owes is awaited. -/
theorem awaited_of_change (h : st.Sound) (hs : st.get? key = some s)
    (hchange : Series.Change s x s' writes) : (st.put key s').Awaited writes := by
  obtain ⟨step, hstepped⟩ := hchange.stepped
  have hsub := dests_sublist hstepped.keeps s.rules
  rw [← hstepped.writes] at hsub
  refine ⟨hsub.nodup (h.links.nodup_destinations hs), fun w hw => ?_⟩
  have hmem : w.dest ∈ s.destinations := hsub.subset (List.mem_map_of_mem hw)
  obtain ⟨d, hd, -, hleaf⟩ := h.links.exists_dest hs hmem
  have hne : w.dest ≠ key := by
    intro heq
    rw [heq] at hmem
    exact h.links.not_mem_own hs hmem
  exact ⟨d, by rw [get?_put, if_neg hne, hd], h.valid hd, hleaf⟩

/-! ## Calls -/

/-- Whatever calls were made before, all that a write comes to owe arrives. -/
theorem writes_arrive (config : StoreConfig) (calls : List Call) (key : String) (sample : Sample)
    (override : DuplicatePolicy) :
    let st := runAll Call.perform calls { config }
    (∀ t st', add key sample override st = .ok t st' → ∃ s s' writes, st.get? key = some s ∧
      placing st s sample override s = .ok writes s' ∧ st' = (st.put key s').deliver writes ∧
      (st.put key s').Arrive writes) ∧
    ∀ st', upsert key sample override st = .ok () st' → ∃ s s' writes, st.get? key = some s ∧
      Series.upsert sample override st.config.policy s = .ok writes s' ∧
      st' = (st.put key s').deliver writes ∧ (st.put key s').Arrive writes := by
  intro st
  have hst : st.Sound := Reachable.sound ⟨config, calls, rfl⟩
  constructor
  · intro t st' hok
    rcases add_step hst key sample override with
      ⟨e, hfail⟩ | ⟨s, x, s', writes, hs, hplaced, hchange, hok'⟩
    · rw [hok] at hfail
      cases hfail
    · rw [hok] at hok'
      cases hok'
      exact ⟨s, s', writes, hs, hplaced, rfl, (awaited_of_change hst hs hchange).arrive⟩
  · intro st' hok
    rcases upsert_step hst key sample override with
      ⟨e, hfail⟩ | ⟨s, x, s', writes, hs, hplaced, hchange, hok'⟩
    · rw [hok] at hfail
      cases hfail
    · rw [hok] at hok'
      cases hok'
      exact ⟨s, s', writes, hs, hplaced, rfl, (awaited_of_change hst hs hchange).arrive⟩

/-- A sample that leaves a bucket behind, which is then owed. -/
theorem writes_arrive_closing :
    let options : SeriesOptions := { encoding := .plain }
    let st : Store := runAll Call.perform [.create "s" options, .create "d" options,
      .createRule "s" "d" .sum 10, .add "s" ⟨5, ⟨1⟩⟩ .unset] { config := {} }
    let st' : Store := stateAfter (add "s" ⟨25, ⟨2⟩⟩ .unset) st
    add "s" ⟨25, ⟨2⟩⟩ .unset st = .ok 25 st' ∧ ∃ s s' writes, st.get? "s" = some s ∧
      placing st s ⟨25, ⟨2⟩⟩ .unset s = .ok writes s' ∧ st' = (st.put "s" s').deliver writes ∧
      (st.put "s" s').Arrive writes := by
  intro options st st'
  have hok : add "s" ⟨25, ⟨2⟩⟩ .unset st = .ok 25 st' := of_outcome_ok (by decide +kernel)
  exact ⟨hok, (writes_arrive _ _ _ _ _).1 25 st' hok⟩

end Store

end SeriesStore
