import SeriesStore.Proofs.Accumulators
import SeriesStore.Proofs.Runs
import SeriesStore.Proofs.Series.Reading
import SeriesStore.Rule

/-!
# Buckets

Windows of one length begin at the multiples of it and cover time without
overlap. The samples of a bucket are those whose window begins where the bucket
does.

Results:
1. `windowStart_eq_iff`: which timestamps a window covers.
2. `windowStart_mono`, `windowStart_idem`: the order of windows.
3. `span_bucket`: the span that is read for a bucket holds the bucket.
-/

namespace SeriesStore

variable {length b t u : UInt64}

/-! ## Windows -/

theorem toNat_windowStart (t length : UInt64) :
    (windowStart t length).toNat = t.toNat - t.toNat % length.toNat := by
  have hle : t % length ≤ t := by
    rw [UInt64.le_iff_toNat_le, UInt64.toNat_mod]
    exact Nat.mod_le _ _
  unfold windowStart
  rw [UInt64.toNat_sub_of_le _ _ hle, UInt64.toNat_mod]

theorem dvd_windowStart (t length : UInt64) : length.toNat ∣ (windowStart t length).toNat := by
  rw [toNat_windowStart]
  exact Nat.dvd_sub_mod t.toNat

theorem windowStart_le (t length : UInt64) : windowStart t length ≤ t := by
  rw [UInt64.le_iff_toNat_le, toNat_windowStart]
  exact Nat.sub_le _ _

theorem pos_of_ne_zero (h : length ≠ 0) : 0 < length.toNat := by
  rw [Nat.pos_iff_ne_zero, ne_eq, ← UInt64.toNat_zero, UInt64.toNat_inj]
  exact h

/-- The window that begins at a multiple of the length covers the timestamps from
there on, up to the next multiple. -/
theorem windowStart_eq_iff (hlength : length ≠ 0) (hb : length.toNat ∣ b.toNat) :
    windowStart t length = b ↔ b.toNat ≤ t.toNat ∧ t.toNat < b.toNat + length.toNat := by
  have hpos := pos_of_ne_zero hlength
  rw [← UInt64.toNat_inj, toNat_windowStart]
  constructor
  · intro h
    have hlt := Nat.mod_lt t.toNat hpos
    have hle := Nat.mod_le t.toNat length.toNat
    omega
  · rintro ⟨hge, hlt⟩
    obtain ⟨q, hq⟩ := hb
    have hsplit : t.toNat = length.toNat * q + (t.toNat - b.toNat) := by omega
    have hmod : t.toNat % length.toNat = t.toNat - b.toNat := by
      rw [hsplit, Nat.mul_add_mod, Nat.mod_eq_of_lt (by omega), ← hsplit]
    omega

theorem windowStart_idem (t length : UInt64) :
    windowStart (windowStart t length) length = windowStart t length := by
  rw [← UInt64.toNat_inj, toNat_windowStart,
    Nat.mod_eq_zero_of_dvd (dvd_windowStart t length), Nat.sub_zero]

theorem windowStart_mono (length : UInt64) (h : t ≤ u) :
    windowStart t length ≤ windowStart u length := by
  rw [UInt64.le_iff_toNat_le] at h ⊢
  rw [toNat_windowStart, toNat_windowStart]
  have htime := Nat.div_add_mod t.toNat length.toNat
  have hother := Nat.div_add_mod u.toNat length.toNat
  have hmul := Nat.mul_le_mul_left length.toNat (Nat.div_le_div_right (c := length.toNat) h)
  omega

theorem lt_of_windowStart_lt (h : windowStart t length < windowStart u length) : t < u :=
  UInt64.not_le.mp fun hle => absurd (windowStart_mono length hle) (UInt64.not_le.mpr h)

/-- A timestamp between the start of a window and one that it covers is covered
too. -/
theorem windowStart_eq_of_le (hge : windowStart u length ≤ t) (hle : t ≤ u) :
    windowStart t length = windowStart u length := by
  apply UInt64.le_antisymm (windowStart_mono length hle)
  have hstart := windowStart_mono length hge
  rwa [windowStart_idem] at hstart

theorem toNat_after (t : Timestamp) (span : UInt64) :
    (Timestamp.after t span).toNat = min (t.toNat + span.toNat) (2 ^ 64 - 1) := by
  have ht := t.toNat_lt
  have hspan := span.toNat_lt
  have hsum : (t + span).toNat = (t.toNat + span.toNat) % 2 ^ 64 := UInt64.toNat_add t span
  unfold Timestamp.after
  by_cases hfits : t.toNat + span.toNat < 2 ^ 64
  · rw [Nat.mod_eq_of_lt hfits] at hsum
    rw [if_neg (by rw [UInt64.lt_iff_toNat_lt]; omega), hsum]
    omega
  · have hwrap : (t + span).toNat = t.toNat + span.toNat - 2 ^ 64 := by omega
    rw [if_pos (by rw [UInt64.lt_iff_toNat_lt]; omega)]
    unfold Timestamp.latest
    have hlatest : (0xffffffffffffffff : UInt64).toNat = 2 ^ 64 - 1 := rfl
    omega

/-! ## The samples of a bucket -/

/-- The samples from `start` on, up to the length of a bucket. -/
def bucketOf (start length : UInt64) (run : List Sample) : List Sample :=
  run.filter fun x =>
    start.toNat ≤ x.timestamp.toNat ∧ x.timestamp.toNat ≤ start.toNat + (length.toNat - 1)

/-- The samples whose window begins where the bucket does. -/
theorem bucketOf_eq (hlength : length ≠ 0) (hb : length.toNat ∣ b.toNat) (run : List Sample) :
    bucketOf b length run = run.filter (windowStart ·.timestamp length = b) := by
  have hpos := pos_of_ne_zero hlength
  apply List.filter_congr
  intro x _
  rw [decide_eq_decide, windowStart_eq_iff hlength hb]
  omega

/-- The samples that are read for a bucket. -/
theorem span_bucket (start : UInt64) (hlength : length ≠ 0) (run : List Sample) :
    run.filter (({ low := start, high := windowEnd start length } : Span).holds ·.timestamp) =
      bucketOf start length run := by
  have hpos := pos_of_ne_zero hlength
  have hone : (length - 1).toNat = length.toNat - 1 :=
    UInt64.toNat_sub_of_le _ _ (UInt64.le_iff_toNat_le.mpr hpos)
  apply List.filter_congr
  intro x _
  have hx := x.timestamp.toNat_lt
  unfold Span.holds
  rw [Bool.eq_iff_iff]
  simp only [Bool.and_eq_true, decide_eq_true_eq, UInt64.le_iff_toNat_le, windowEnd, toNat_after,
    hone]
  omega

/-- The samples that are read for an open bucket. -/
theorem span_open (start : Timestamp) (run : List Sample) :
    run.filter (({ low := start, high := .latest } : Span).holds ·.timestamp) =
      run.filter (start ≤ ·.timestamp) :=
  List.filter_congr fun x _ => Span.holds_latest start x.timestamp

/-- What the samples of a bucket amount to. -/
def bucketValue (aggregation : Aggregation) (length start : UInt64) (run : List Sample) :
    Option Value :=
  (Accumulator.ofList aggregation ((bucketOf start length run).map (·.value))).result?

theorem bucketValue_eq_none {aggregation : Aggregation} {run : List Sample} :
    bucketValue aggregation length b run = none ↔ bucketOf b length run = [] := by
  unfold bucketValue
  rw [Accumulator.result?_ofList_eq_none, List.map_eq_nil_iff]

end SeriesStore
