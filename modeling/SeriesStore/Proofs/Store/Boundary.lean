import SeriesStore.Proofs.Series.Retention
import SeriesStore.Proofs.Store.Reachable

/-!
# The start of the retention window

An add refuses a sample that is too old, a look at the first valid sample passes over the
samples that are not valid, and a trim drops chunks that lie before the window. The three
compute where the window starts in different ways, and come to the same.

Results:
1. `Series.Valid.window_split`, `Series.Valid.firstInWindow`: the first valid sample and those
   before it.
2. `refusesAsOld_iff`: which adds are refused for their age.
3. `window_run`: the three agree after any calls.
-/

namespace SeriesStore

namespace Series

variable {s : Series}

/-- A sample divides the run: all before it lie before the window, and neither it nor any
behind it does. -/
theorem Valid.window_split (h : s.Valid) (hne : s.toList ≠ []) :
    ∃ gone x rest, s.toList = gone ++ x :: rest ∧ (∀ y ∈ gone, y.timestamp < s.oldest) ∧
      ∀ y ∈ x :: rest, s.oldest ≤ y.timestamp := by
  let before : Sample → Bool := fun y => y.timestamp < s.oldest
  have hwhole : s.toList.takeWhile before ++ s.toList.dropWhile before = s.toList :=
    List.takeWhile_append_dropWhile
  have hgone : ∀ y ∈ s.toList.takeWhile before, y.timestamp < s.oldest := fun y hy =>
    of_decide_eq_true (List.all_eq_true.mp List.all_takeWhile y hy)
  -- The window ends with the last sample, so that one does not lie before it.
  have hinside : s.toList.dropWhile before ≠ [] := by
    intro hnil
    rw [hnil, List.append_nil] at hwhole
    exact absurd s.oldest_le (UInt64.not_le.mpr (hgone _ (hwhole.symm ▸ h.last_mem hne)))
  obtain ⟨x, rest, hrest⟩ := List.exists_cons_of_ne_nil hinside
  have hx : s.oldest ≤ x.timestamp := by
    have hstop := List.head?_dropWhile_not before s.toList
    rw [hrest] at hstop
    exact UInt64.not_lt.mp (of_decide_eq_false hstop)
  rw [hrest] at hwhole
  have hasc := h.ascending
  rw [← hwhole] at hasc
  have hbehind := (Run.ascending_cons.mp (Run.ascending_append.mp hasc).2.1).1
  refine ⟨_, x, rest, hwhole.symm, hgone, fun y hy => ?_⟩
  rcases List.mem_cons.mp hy with rfl | hy
  · exact hx
  · exact UInt64.le_trans hx (UInt64.le_of_lt (hbehind y hy))

/-- This sample is the first valid one, and all before it are counted. -/
theorem Valid.firstInWindow (h : s.Valid) {gone rest : List Sample} {x : Sample}
    (hwhole : s.toList = gone ++ x :: rest) (hgone : ∀ y ∈ gone, y.timestamp < s.oldest)
    (hx : s.oldest ≤ x.timestamp) : s.firstInWindow = .ok (x.timestamp, gone.length) := by
  have hfull : s.isEmpty = false := h.isEmpty_eq_false.mpr (by simp [hwhole])
  have hall : s.range 0 s.lastTimestamp = .ok s.toList := by
    rw [h.range, List.filter_eq_self.mpr]
    exact fun y hy => by simp [Span.holds, h.le_last hy]
  have hfront : s.toList.takeWhile (·.timestamp < s.oldest) = gone := by
    rw [hwhole, List.takeWhile_append_of_pos fun y hy => decide_eq_true (hgone y hy),
      List.takeWhile_cons_of_neg (by simpa using hx), List.append_nil]
  have hseen : s.toList.take (gone.length + 1) = gone ++ [x] := by
    rw [hwhole, List.take_length_add_append, List.take_one, List.head?_cons, Option.toList_some]
  unfold Series.firstInWindow
  rw [hall, hfull, validFrom_eq]
  show Except.ok (Run.lastTimestamp (s.toList.take
      ((s.toList.takeWhile (·.timestamp < s.oldest)).length + 1)),
    (s.toList.takeWhile (·.timestamp < s.oldest)).length) = _
  rw [hfront, hseen, Run.lastTimestamp_concat]

end Series

namespace Store

variable {st : Store} {key : String} {s : Series}

/-- An add is refused because its sample is too old. -/
def refusesAsOld (st : Store) (key : String) (sample : Sample) (override : DuplicatePolicy) :
    Bool :=
  match outcome (add key sample override) st with
  | .error (.tooOld _ _) => true
  | _ => false

/-- Adds before the window are refused for their age, and no others. -/
theorem refusesAsOld_iff (h : st.Sound) (hs : st.get? key = some s) (sample : Sample)
    (override : DuplicatePolicy) :
    refusesAsOld st key sample override = true ↔ sample.timestamp < s.oldest := by
  unfold refusesAsOld
  by_cases hold : sample.timestamp < s.oldest
  · simp [outcome_of_error (add_tooOld hs override hold), hold]
  · rcases add_cases h hs override hold with ⟨e, hu, hfail⟩ | ⟨_, _, _, _, -, -, -, hok⟩
    · obtain ⟨-, rfl, -⟩ := Run.upsert_error (h.valid hs).ascending hu
      simp [outcome_of_error hfail, hold]
    · simp [outcome_of_ok hok, hold]

/-- Whatever calls are made, the first valid sample of a series is the first one that would not be
refused for its age were it added now, and the samples that are counted before it are those that
would be. A trim drops none but these. -/
theorem window_run (config : StoreConfig) (calls : List Call) (key : String) (value : Value)
    (override : DuplicatePolicy) {s : Series}
    (hs : (runAll Call.perform calls { config }).get? key = some s) (hfull : s.isEmpty = false) :
    let old := fun x : Sample =>
      refusesAsOld (runAll Call.perform calls { config }) key ⟨x.timestamp, value⟩ override
    ∃ stored kept first, s.range 0 .latest = .ok stored ∧ s.trim.1.range 0 .latest = .ok kept ∧
      s.firstInWindow = .ok (first.timestamp, stored.countP old) ∧
      (first ∈ stored ∧ old first = false) ∧
      (∀ x ∈ stored, old x = true → x.timestamp < first.timestamp) ∧
      (∀ x ∈ stored, old x = false → first.timestamp ≤ x.timestamp) ∧
      ∀ x ∈ stored, x ∉ kept → old x = true := by
  intro old
  have hsound : (runAll Call.perform calls { config }).Sound := Reachable.sound ⟨config, calls, rfl⟩
  have hvalid := hsound.valid hs
  have hold : ∀ x, old x = true ↔ x.timestamp < s.oldest := fun x => refusesAsOld_iff hsound hs _ _
  have hnew : ∀ x, old x = false ↔ s.oldest ≤ x.timestamp := fun x => by
    rw [Bool.eq_false_iff, ne_eq, hold, UInt64.not_lt]
  obtain ⟨gone, first, rest, happend, hgone, hkept⟩ :=
    hvalid.window_split (hvalid.isEmpty_eq_false.mp hfull)
  have hfirst := hvalid.firstInWindow happend hgone (hkept first List.mem_cons_self)
  have hcount : s.toList.countP old = gone.length := by
    have hall := List.countP_eq_length.mpr fun x hx => (hold x).mpr (hgone x hx)
    have hnone := List.countP_eq_zero.mpr fun x hx =>
      Bool.eq_false_iff.mp ((hnew x).mpr (hkept x hx))
    rw [happend, List.countP_append, hall, hnone, Nat.add_zero]
  have hasc := hvalid.ascending
  rw [happend] at hasc
  obtain ⟨-, hbehind, hcross⟩ := Run.ascending_append.mp hasc
  refine ⟨s.toList, s.trim.1.toList, first, hvalid.range_all, (Series.trim_valid hvalid).range_all,
    hcount ▸ hfirst, ⟨by simp [happend], (hnew first).mpr (hkept first List.mem_cons_self)⟩,
    fun x hx hxold => ?_, fun x hx hxnew => ?_, fun x hx hdropped => ?_⟩
  · rw [happend] at hx
    rcases List.mem_append.mp hx with hx | hx
    · exact hcross x hx first List.mem_cons_self
    · exact absurd ((hold x).mp hxold) (UInt64.not_lt.mpr (hkept x hx))
  · rw [happend] at hx
    rcases List.mem_append.mp hx with hx | hx
    · exact absurd (hgone x hx) (UInt64.not_lt.mpr ((hnew x).mp hxnew))
    · rcases List.mem_cons.mp hx with rfl | hx
      · exact UInt64.le_refl _
      · exact UInt64.le_of_lt ((Run.ascending_cons.mp hbehind).1 x hx)
  · refine (hold x).mpr (Classical.byContradiction fun hin => hdropped ?_)
    exact (Series.mem_trim_iff hvalid (UInt64.not_lt.mp hin)).mpr hx

/-- A series of which one sample has left the window without having been dropped. -/
theorem window_run_late :
    let calls : List Call := [.create "s" { chunkSize := 32, retention := 15 },
      .add "s" ⟨10, ⟨1⟩⟩ .unset, .add "s" ⟨20, ⟨2⟩⟩ .unset, .add "s" ⟨30, ⟨3⟩⟩ .unset]
    let st := runAll Call.perform calls { config := {} }
    ∃ s, st.get? "s" = some s ∧ s.isEmpty = false ∧ ∃ stored first,
      s.range 0 .latest = .ok stored ∧ first ∈ stored ∧ s.firstInWindow = .ok (first.timestamp,
        stored.countP fun x => refusesAsOld st "s" ⟨x.timestamp, ⟨0⟩⟩ .unset) := by
  intro calls st
  have hsome : (st.get? "s").isSome = true := by decide +kernel
  obtain ⟨s, hs⟩ := Option.isSome_iff_exists.mp hsome
  have hview : (st.get? "s").map (·.isEmpty) = some false := by decide +kernel
  rw [hs] at hview
  have hfull : s.isEmpty = false := Option.some.inj hview
  obtain ⟨stored, kept, first, hstored, -, hfirst, hmem, -⟩ :=
    window_run {} calls "s" ⟨0⟩ .unset hs hfull
  exact ⟨s, hs, hfull, stored, first, hstored, hmem.1, hfirst⟩

end Store

end SeriesStore
