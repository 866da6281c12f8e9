import Mathlib.Logic.Function.Iterate
import SeriesStore.Proofs.ChunkKeys

/-!
# Directories in the order of time

The bytes of keys are compared, and this orders a directory by time, so its neighbours are
neighbours in time. A scan goes from a key to the next one above it and needs no entry under the key
that it comes from; the entries it has passed may be gone.

Results:
1. `compare_lt_iff`: keys are ordered as the numbers that they spell.
2. `nearest_above`, `nearest_below`, `nearest_atMost`: what is found on either side of a key.
3. `Sweep.Between.step`, `Sweep.between_after`: what a scan that removes entries has done after some
   steps.
4. `dropWhile_eq_sweep`: dropping entries from the front is such a scan, up to the first it keeps.
5. `swept_run`: the scan visits all entries in the order of time, and leaves those not chosen.
-/

namespace SeriesStore

/-! ## The order of time -/

namespace ChunkKey

theorem toNat_pushByte (t : UInt64) (byte : UInt8) :
    ((t <<< 8) ||| byte.toUInt64).toNat = (t.toNat * 256 + byte.toNat) % 2 ^ 64 := by
  have hbyte : byte.toNat < 2 ^ 8 := byte.toNat_lt
  have hor : t.toNat <<< 8 ||| byte.toNat = t.toNat * 256 + byte.toNat := by
    rw [← Nat.shiftLeft_add_eq_or_of_lt hbyte, Nat.shiftLeft_eq]
  have hword : byte.toNat % 2 ^ 64 = byte.toNat :=
    Nat.mod_eq_of_lt (Nat.lt_trans hbyte (by decide))
  rw [← hor, Nat.or_mod_two_pow, hword, UInt64.toNat_or, UInt64.toNat_shiftLeft,
    UInt8.toNat_toUInt64]
  rfl

theorem toNat_foldl_pushByte (t : UInt64) (bytes : List UInt8) :
    (bytes.foldl (fun (t : UInt64) byte => (t <<< 8) ||| byte.toUInt64) t).toNat =
      (t.toNat * 256 ^ bytes.length + spelled bytes) % 2 ^ 64 := by
  induction bytes generalizing t with
  | nil => simp [spelled, Nat.mod_eq_of_lt t.toNat_lt]
  | cons byte bytes ih =>
    have hunit : 256 ^ (bytes.length + 1) = 256 * 256 ^ bytes.length := Nat.pow_succ'
    rw [List.foldl_cons, ih, toNat_pushByte, spelled, List.length_cons, hunit, Nat.add_mod,
      Nat.mod_mul_mod, ← Nat.add_mod, Nat.add_mul, Nat.mul_assoc, Nat.add_assoc]

/-- The bytes of a key spell its timestamp. -/
theorem toNat_timestamp (k : ChunkKey) : k.timestamp.toNat = spelled k.bytes := by
  have hlt := spelled_lt k.bytes
  rw [k.length_bytes] at hlt
  unfold timestamp
  rw [toNat_foldl_pushByte, UInt64.toNat_zero, Nat.zero_mul, Nat.zero_add,
    Nat.mod_eq_of_lt (Nat.lt_of_lt_of_le hlt (by decide))]

/-- Keys are ordered as the numbers that they spell. -/
theorem compare_lt_iff {a b : ChunkKey} : compare a b = .lt ↔ a.timestamp < b.timestamp := by
  rw [UInt64.lt_iff_toNat_lt, toNat_timestamp, toNat_timestamp]
  exact compare_bytes (a.length_bytes.trans b.length_bytes.symm)

theorem timestamp_ofTimestamp (t : Timestamp) : (ofTimestamp t).timestamp = t := by
  apply UInt64.toNat_inj.mp
  rw [toNat_timestamp, spelled_ofTimestamp]

end ChunkKey

/-! ## Neighbours -/

namespace SortedMap

variable {κ α : Type} [Ord κ] [Std.TransOrd κ] [Std.LawfulEqOrd κ]

/-- The first entry of some kind has the least key of them. -/
theorem find?_least {m : SortedMap κ α} {p : κ × α → Bool} {e : κ × α}
    (h : m.entries.find? p = some e) :
    e ∈ m.entries ∧ p e = true ∧ ∀ e' ∈ m.entries, p e' = true → compare e'.1 e.1 ≠ .lt := by
  obtain ⟨hp, pre, post, hentries, hpre⟩ := List.find?_eq_some_iff_append.mp h
  have ha := around_of_split (k := e.1) (v := e.2) hentries
  refine ⟨hentries ▸ List.mem_append_right _ List.mem_cons_self, hp, fun e' he' hp' => ?_⟩
  rw [hentries] at he'
  rcases List.mem_append.mp he' with hin | hin
  · have hnot := hpre e' hin
    rw [hp'] at hnot
    cases hnot
  · rcases List.mem_cons.mp hin with rfl | hin
    · simp
    · rw [Std.OrientedCmp.gt_of_lt (ha.above e' hin)]
      decide

/-- The last entry of some kind has the greatest key of them. -/
theorem getLast?_filter_greatest {m : SortedMap κ α} {p : κ × α → Bool} {e : κ × α}
    (h : (m.entries.filter p).getLast? = some e) :
    e ∈ m.entries ∧ p e = true ∧ ∀ e' ∈ m.entries, p e' = true → compare e.1 e'.1 ≠ .lt := by
  obtain ⟨front, hfront⟩ := List.getLast?_eq_some_iff.mp h
  have he : e ∈ m.entries.filter p := hfront ▸ List.mem_append_right _ List.mem_cons_self
  have hsorted := m.sorted.filter p
  rw [hfront] at hsorted
  refine ⟨(List.mem_filter.mp he).1, (List.mem_filter.mp he).2, fun e' he' hp' => ?_⟩
  have hin : e' ∈ front ++ [e] := hfront ▸ List.mem_filter.mpr ⟨he', hp'⟩
  rcases List.mem_append.mp hin with hin | hin
  · have hlt := (List.pairwise_append.mp hsorted).2.2 e' hin e List.mem_cons_self
    rw [Std.OrientedCmp.gt_of_lt hlt]
    decide
  · rw [List.mem_singleton.mp hin]
    simp

end SortedMap

namespace Directory

variable {α : Type}

/-- Of the entries at the times that satisfy `side`, the one found is as near as any of them, where
`nearer` compares times; there is none only where no time in use satisfies `side`. -/
def Nearest (d : Directory α) (side : Timestamp → Prop) (nearer : Timestamp → Timestamp → Prop) :
    Option (ChunkKey × α) → Prop
  | none => ∀ k ∈ d.keys, ¬side k.timestamp
  | some (k, chunk) => d.get? k = some chunk ∧ side k.timestamp ∧
      ∀ k' ∈ d.keys, side k'.timestamp → nearer k.timestamp k'.timestamp

variable {d : Directory α} {side : Timestamp → Prop} {p : ChunkKey × α → Bool}

/-- Where no entry in use is of a kind, no key is on its side. -/
theorem not_side (hp : ∀ e, p e = true ↔ side e.1.timestamp) (h : ∀ e ∈ d.entries, ¬p e = true) :
    ∀ k ∈ d.keys, ¬side k.timestamp := by
  intro k hk hside
  obtain ⟨e, he, rfl⟩ := List.mem_map.mp hk
  exact h e he ((hp e).mpr hside)

/-- The first entry on a side is the earliest. -/
theorem nearest_find? (hp : ∀ e, p e = true ↔ side e.1.timestamp) :
    d.Nearest side (· ≤ ·) (d.entries.find? p) := by
  cases h : d.entries.find? p with
  | none => exact not_side hp (List.find?_eq_none.mp h)
  | some e =>
    obtain ⟨he, hside, hleast⟩ := SortedMap.find?_least h
    refine ⟨SortedMap.mem_entries_iff.mp he, (hp e).mp hside, fun k' hk' hside' => ?_⟩
    obtain ⟨e', he', rfl⟩ := List.mem_map.mp hk'
    exact UInt64.not_lt.mp fun hlt =>
      hleast e' he' ((hp e').mpr hside') (ChunkKey.compare_lt_iff.mpr hlt)

/-- The last entry on a side is the latest. -/
theorem nearest_getLast? (hp : ∀ e, p e = true ↔ side e.1.timestamp) :
    d.Nearest side (· ≥ ·) (d.entries.filter p).getLast? := by
  cases h : (d.entries.filter p).getLast? with
  | none =>
    exact not_side hp (List.filter_eq_nil_iff.mp (List.getLast?_eq_none_iff.mp h))
  | some e =>
    obtain ⟨he, hside, hgreatest⟩ := SortedMap.getLast?_filter_greatest h
    refine ⟨SortedMap.mem_entries_iff.mp he, (hp e).mp hside, fun k' hk' hside' => ?_⟩
    obtain ⟨e', he', rfl⟩ := List.mem_map.mp hk'
    exact UInt64.not_lt.mp fun hlt =>
      hgreatest e' he' ((hp e').mpr hside') (ChunkKey.compare_lt_iff.mpr hlt)

theorem nearest_above (d : Directory α) (k : ChunkKey) :
    d.Nearest (k.timestamp < ·) (· ≤ ·) (d.above? k) :=
  nearest_find? fun _ => SortedMap.isAbove_iff.trans ChunkKey.compare_lt_iff

theorem nearest_below (d : Directory α) (k : ChunkKey) :
    d.Nearest (· < k.timestamp) (· ≥ ·) (d.below? k) :=
  nearest_getLast? fun _ => SortedMap.isBelow_iff.trans ChunkKey.compare_lt_iff

theorem nearest_atMost (d : Directory α) (k : ChunkKey) :
    d.Nearest (· ≤ k.timestamp) (· ≥ ·) (d.atMost? k) :=
  nearest_getLast? fun e => by
    rw [Bool.not_eq_true', ← Bool.not_eq_true, SortedMap.isAbove_iff, ChunkKey.compare_lt_iff,
      UInt64.not_lt]

/-! ## Scans that remove entries -/

/-- A scan of a directory that removes entries on its way. -/
structure Sweep (α : Type) where
  directory : Directory α
  -- The key at which the scan stands; it has ended where there is none.
  place : Option ChunkKey
  visited : List ChunkKey

/-- A scan that is placed at the first key. -/
def Sweep.start (d : Directory α) : Sweep α := ⟨d, d.seek .first, []⟩

/-- The scan visits the key at which it stands, removes it if it is chosen, and goes on to the next
key above it. -/
def Sweep.step (chosen : ChunkKey → Bool) (s : Sweep α) : Sweep α :=
  match s.place with
  | none => s
  | some key =>
    let d := if chosen key then (s.directory.delete key).2 else s.directory
    ⟨d, d.seek (.greater key), s.visited ++ [key]⟩

/-- The scan of a directory after some steps. -/
def Sweep.after (d : Directory α) (chosen : ChunkKey → Bool) (n : Nat) : Sweep α :=
  (step chosen)^[n] (start d)

/-- What a scan has done that has passed some entries and has others before it. -/
structure Sweep.Between (chosen : ChunkKey → Bool) (pre post : List (ChunkKey × α))
    (s : Sweep α) : Prop where
  entries : s.directory.entries = pre.filter (fun e => !chosen e.1) ++ post
  place : s.place = post.head?.map (·.1)
  visited : s.visited = pre.map (·.1)

namespace Sweep

variable {chosen : ChunkKey → Bool} {pre post : List (ChunkKey × α)} {s : Sweep α}

theorem between_start (d : Directory α) (chosen : ChunkKey → Bool) :
    Between chosen [] d.entries (start d) := ⟨rfl, rfl, rfl⟩

theorem seek_greater (d : Directory α) (k : ChunkKey) :
    d.seek (.greater k) = (d.entries.filter (SortedMap.isAbove k)).head?.map (·.1) := by
  rw [List.head?_filter]
  rfl

theorem step_of_place {k : ChunkKey} (h : s.place = some k) :
    s.step chosen =
      let d := if chosen k then (s.directory.delete k).2 else s.directory
      ⟨d, d.seek (.greater k), s.visited ++ [k]⟩ := by
  unfold step
  rw [h]

/-- A step passes one entry. The key it comes from may be gone when the next one is sought, but the
entries passed still lie below that key and those to come above it. -/
theorem Between.step {e : ChunkKey × α} (h : Between chosen pre (e :: post) s) :
    Between chosen (pre ++ [e]) post (s.step chosen) := by
  have hplace : s.place = some e.1 := h.place
  have hvisited : s.visited ++ [e.1] = (pre ++ [e]).map (·.1) := by
    rw [h.visited, List.map_append]
    rfl
  rw [step_of_place hplace]
  cases hc : chosen e.1 with
  | true =>
    have hentries : (s.directory.delete e.1).2.entries = pre.filter (!chosen ·.1) ++ post :=
      SortedMap.entries_erase_of_split h.entries
    refine ⟨?_, ?_, hvisited⟩
    · rw [List.filter_append]
      simp [hc, hentries]
    · have ha := SortedMap.around_of_split h.entries
      simp [seek_greater, hentries, ha.filter_above]
  | false =>
    refine ⟨?_, ?_, hvisited⟩
    · rw [List.filter_append]
      simp [hc, h.entries]
    · simp [seek_greater, SortedMap.filter_above_of_split h.entries]

/-- A scan has passed as many entries as it has taken steps. -/
theorem between_after (d : Directory α) (chosen : ChunkKey → Bool) {n : Nat} (hn : n ≤ d.size) :
    Between chosen (d.entries.take n) (d.entries.drop n) (after d chosen n) := by
  induction n with
  | zero => exact between_start d chosen
  | succ n ih =>
    have hlt : n < d.entries.length := hn
    have hbetween := ih (Nat.le_of_lt hlt)
    rw [List.drop_eq_getElem_cons hlt] at hbetween
    rw [after, Function.iterate_succ_apply', List.take_succ_eq_append_getElem hlt]
    exact hbetween.step

/-- A scan that has passed all entries is at its end, and stays as it is. -/
theorem after_of_size_le (d : Directory α) (chosen : ChunkKey → Bool) {n : Nat}
    (hn : d.size ≤ n) : Between chosen d.entries [] (after d chosen n) := by
  induction n, hn using Nat.le_induction with
  | base =>
    have hbetween := between_after d chosen (Nat.le_refl d.size)
    rwa [SortedMap.size, List.take_length, List.drop_length] at hbetween
  | succ n _ ih =>
    have hend : (after d chosen n).place = none := ih.place
    have hstay : (after d chosen n).step chosen = after d chosen n := by
      unfold Sweep.step
      rw [hend]
    rwa [after, Function.iterate_succ_apply', ← after, hstay]

theorem place_eq_none_iff (d : Directory α) (chosen : ChunkKey → Bool) (n : Nat) :
    (after d chosen n).place = none ↔ d.size ≤ n := by
  rcases Nat.lt_or_ge n d.size with hlt | hge
  · have hplace := (between_after d chosen (Nat.le_of_lt hlt)).place
    rw [List.drop_eq_getElem_cons hlt] at hplace
    rw [hplace]
    simpa using hlt
  · exact ⟨fun _ => hge, fun _ => (after_of_size_le d chosen hge).place⟩

end Sweep

/-- Dropping entries from the front is a scan that removes all that it passes, up to the first entry
that is kept. -/
theorem dropWhile_eq_sweep (d : Directory α) (p : α → Bool) :
    d.dropWhile p =
      (Sweep.after d (fun _ => true) (d.entries.takeWhile fun e => p e.2).length).directory := by
  have hlen : (d.entries.takeWhile fun e => p e.2).length ≤ d.size :=
    (List.takeWhile_sublist _).length_le
  have hdrop : d.entries.drop (d.entries.takeWhile fun e => p e.2).length =
      d.entries.dropWhile fun e => p e.2 := by
    have hparts := List.takeWhile_append_dropWhile (p := fun e => p e.2) (l := d.entries)
    conv_lhs =>
      arg 2
      rw [← hparts]
    exact List.drop_left
  apply SortedMap.ext_entries
  rw [(Sweep.between_after d _ hlen).entries, hdrop]
  simp [SortedMap.dropWhile]

/-! ## The whole scan -/

theorem pairwise_timestamp (d : Directory α) :
    d.keys.Pairwise (fun a b => a.timestamp < b.timestamp) :=
  List.pairwise_map.mpr (d.sorted.imp fun h => ChunkKey.compare_lt_iff.mp h)

/-- What is not chosen stays under its key. -/
theorem get?_of_entries_filter {d' : Directory α} (keep : ChunkKey → Bool)
    (h : d'.entries = d.entries.filter fun e => keep e.1) (k : ChunkKey) :
    d'.get? k = if keep k then d.get? k else none := by
  apply Option.ext
  intro chunk
  rw [← SortedMap.mem_entries_iff, h, List.mem_filter, SortedMap.mem_entries_iff]
  cases keep k <;> simp

/-- Keys are ordered by time, byte by byte. A scan that starts at the first key, removes the entries
that are chosen and goes on from each key to the next above it comes to its end, visits every key in
the order of time and leaves the entries that are not chosen as they were. What is found after a
key, before it and at most at it is nearest in time, whether the key is in use or not. -/
theorem swept_run (d : Directory α) (chosen : ChunkKey → Bool) :
    (∀ a b : ChunkKey, compare a.bytes b.bytes = .lt ↔ a.timestamp < b.timestamp) ∧
    (∀ t, (ChunkKey.ofTimestamp t).timestamp = t) ∧
    (∀ n, (Sweep.after d chosen n).place = none ↔ d.size ≤ n) ∧
    (∀ n, d.size ≤ n → (Sweep.after d chosen n).visited = d.keys ∧
      ∀ k, (Sweep.after d chosen n).directory.get? k = if chosen k then none else d.get? k) ∧
    d.keys.Pairwise (fun a b => a.timestamp < b.timestamp) ∧
    ∀ k : ChunkKey,
      d.Nearest (k.timestamp < ·) (· ≤ ·) (d.above? k) ∧
      d.Nearest (· < k.timestamp) (· ≥ ·) (d.below? k) ∧
      d.Nearest (· ≤ k.timestamp) (· ≥ ·) (d.entry? (.lessOrEqual k)) := by
  refine ⟨fun _ _ => ChunkKey.compare_lt_iff, ChunkKey.timestamp_ofTimestamp,
    Sweep.place_eq_none_iff d chosen, fun n hn => ?_, d.pairwise_timestamp,
    fun k => ⟨d.nearest_above k, d.nearest_below k, d.nearest_atMost k⟩⟩
  have hbetween := Sweep.after_of_size_le d chosen hn
  refine ⟨hbetween.visited, fun k => ?_⟩
  have hentries := hbetween.entries
  rw [List.append_nil] at hentries
  rw [get?_of_entries_filter (fun k => !chosen k) hentries]
  cases chosen k <;> rfl

end Directory

end SeriesStore
