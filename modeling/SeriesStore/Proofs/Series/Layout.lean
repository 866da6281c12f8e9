import SeriesStore.Proofs.ChunkKeys
import SeriesStore.Proofs.Chunks
import SeriesStore.Series.Basic

/-!
# The layout of a directory

The chunks of a directory, read in the order of their keys, hold one ascending
run. Each chunk is filed under its first timestamp; only the first chunk may be
filed under the seed key instead, and only a chunk that is alone may be empty.

Results:
1. `Laid.home`: the chunk that covers a timestamp, and why no other chunk does.
2. `Filed.splice`: chunks that may take the place of others.
3. `Chunk.Halved`: two chunks that hold together what one chunk holds.
-/

namespace SeriesStore

/-- The samples of a chunk; none where its stream is not a stream of samples. -/
def Chunk.toList (c : Chunk) : List Sample :=
  match c.samples with
  | .ok samples => samples
  | .error _ => []

theorem Chunk.Holds.toList {c : Chunk} {run : List Sample} (h : c.Holds run) : c.toList = run := by
  unfold Chunk.toList
  rw [h.samples]

/-! ## The halves of a chunk -/

/-- Two chunks with samples that hold together what the chunk holds. -/
structure Chunk.Halved (c head tail : Chunk) : Prop where
  holds_head : head.Holds head.toList
  holds_tail : tail.Holds tail.toList
  append : c.toList = head.toList ++ tail.toList
  head_ne : head.toList ≠ []
  tail_ne : tail.toList ≠ []

theorem Chunk.Holds.halved {c : Chunk} (h : c.Holds c.toList) (hlen : 2 ≤ c.toList.length) :
    ∃ head tail, c.split? = some (head, tail) ∧ c.Halved head tail := by
  obtain ⟨head, tail, front, back, hcut, hhead, htail, happend, hfront, hback⟩ := h.split hlen
  obtain rfl := hhead.toList
  obtain rfl := htail.toList
  exact ⟨head, tail, hcut, hhead, htail, happend, hfront, hback⟩

namespace Chunk.Halved

variable {c head tail : Chunk}

theorem filled (h : c.Halved head tail) : 0 < head.count ∧ 0 < tail.count := by
  rw [h.holds_head.count, h.holds_tail.count]
  exact ⟨List.length_pos_iff.mpr h.head_ne, List.length_pos_iff.mpr h.tail_ne⟩

theorem firstTimestamp (h : c.Halved head tail) :
    Run.firstTimestamp c.toList = Run.firstTimestamp head.toList := by
  obtain ⟨x, run, hhead⟩ := List.exists_cons_of_ne_nil h.head_ne
  rw [h.append, hhead]
  rfl

/-- The later half starts behind every sample of the earlier one. -/
theorem before (h : c.Halved head tail) (hasc : Run.Ascending c.toList) :
    ∀ x ∈ head.toList, x.timestamp < tail.firstTimestamp := by
  intro x hx
  obtain ⟨y, hy, hfirst⟩ := Run.firstTimestamp_mem h.tail_ne
  rw [h.holds_tail.firstTimestamp, ← hfirst]
  exact (Run.ascending_append.mp (h.append ▸ hasc)).2.2 x hx y hy

theorem apart (h : c.Halved head tail) (hasc : Run.Ascending c.toList) :
    head.lastTimestamp < tail.firstTimestamp := by
  obtain ⟨x, hx, hlast⟩ := Run.lastTimestamp_mem h.head_ne
  rw [h.holds_head.lastTimestamp, ← hlast]
  exact h.before hasc x hx

end Chunk.Halved

/-! ## Directories -/

/-- The samples of some entries of a directory, one chunk after the other. -/
def runOf (entries : List (ChunkKey × Chunk)) : List Sample := entries.flatMap (·.2.toList)

@[simp] theorem runOf_nil : runOf [] = [] := rfl

@[simp] theorem runOf_cons (e : ChunkKey × Chunk) (entries : List (ChunkKey × Chunk)) :
    runOf (e :: entries) = e.2.toList ++ runOf entries := rfl

@[simp] theorem runOf_append (a b : List (ChunkKey × Chunk)) :
    runOf (a ++ b) = runOf a ++ runOf b := by
  simp [runOf]

theorem mem_runOf {entries : List (ChunkKey × Chunk)} {x : Sample} :
    x ∈ runOf entries ↔ ∃ e ∈ entries, x ∈ e.2.toList := by
  simp [runOf]

/-- The entry holds samples and is filed under the first of them. -/
structure FiledAt (e : ChunkKey × Chunk) : Prop where
  nonempty : e.2.toList ≠ []
  key : e.1 = .ofTimestamp (Run.firstTimestamp e.2.toList)

/-- The keys of the entries agree with their samples. -/
inductive Filed : List (ChunkKey × Chunk) → Prop
  -- A single chunk without samples, under the seed key.
  | blank (c : Chunk) : c.toList = [] → Filed [(Series.seedKey, c)]
  -- Chunks with samples, of which the first may still be under the seed key.
  | filled (e : ChunkKey × Chunk) (rest : List (ChunkKey × Chunk)) :
      e.2.toList ≠ [] →
      e.1 = .ofTimestamp (Run.firstTimestamp e.2.toList) ∨ e.1 = Series.seedKey →
      (∀ e' ∈ rest, FiledAt e') → Filed (e :: rest)

/-- The entries hold one ascending run and are filed by it. -/
structure Laid (entries : List (ChunkKey × Chunk)) : Prop where
  holds : ∀ e ∈ entries, e.2.Holds e.2.toList
  ascending : Run.Ascending (runOf entries)
  filed : Filed entries

/-- What holds of some entries holds of the one in the middle and of the others. -/
theorem forall_mem_between {α : Type} {p : α → Prop} {pre post : List α} {x : α} :
    (∀ e ∈ pre ++ x :: post, p e) ↔ p x ∧ ∀ e ∈ pre ++ post, p e := by
  rw [List.forall_mem_append, List.forall_mem_cons, List.forall_mem_append]
  exact and_left_comm

/-! ## Parts of a filed directory -/

section Parts

variable {pre post : List (ChunkKey × Chunk)} {e : ChunkKey × Chunk}

theorem Filed.ne_nil {entries : List (ChunkKey × Chunk)} (h : Filed entries) : entries ≠ [] := by
  cases h <;> simp

theorem Filed.rest (h : Filed (e :: post)) : ∀ x ∈ post, FiledAt x := by
  cases h with
  | blank => simp
  | filled _ _ _ _ hrest => exact hrest

/-- The first chunk is filled where others follow it. -/
theorem Filed.head (h : Filed (e :: post)) (hpost : post ≠ []) :
    e.2.toList ≠ [] ∧
      (e.1 = .ofTimestamp (Run.firstTimestamp e.2.toList) ∨ e.1 = Series.seedKey) := by
  cases h with
  | blank => exact absurd rfl hpost
  | filled _ _ hne hkey _ => exact ⟨hne, hkey⟩

theorem Filed.behind (h : Filed (pre ++ e :: post)) : ∀ x ∈ post, FiledAt x := by
  intro x hx
  cases pre with
  | nil => exact Filed.rest (by simpa using h) x hx
  | cons p pre => exact Filed.rest (by simpa using h) x (by simp [hx])

theorem Filed.inner (h : Filed (pre ++ e :: post)) (hpre : pre ≠ []) : FiledAt e := by
  cases pre with
  | nil => exact absurd rfl hpre
  | cons p pre => exact Filed.rest (by simpa using h) e (by simp)

/-- A chunk that holds samples is filed under the first of them or under the seed
key. -/
theorem Filed.key (h : Filed (pre ++ e :: post)) (hne : e.2.toList ≠ []) :
    e.1 = .ofTimestamp (Run.firstTimestamp e.2.toList) ∨ pre = [] ∧ e.1 = Series.seedKey := by
  cases pre with
  | nil =>
    rw [List.nil_append] at h
    cases h with
    | blank c hc => exact absurd hc hne
    | filled _ _ _ hkey _ => exact hkey.imp_right fun hseed => ⟨rfl, hseed⟩
  | cons p pre => exact .inl (h.inner (by simp)).key

/-- A chunk without samples is alone. -/
theorem Filed.of_nil (h : Filed (pre ++ e :: post)) (hnil : e.2.toList = []) :
    pre = [] ∧ post = [] ∧ e.1 = Series.seedKey := by
  cases pre with
  | nil =>
    rw [List.nil_append] at h
    cases h with
    | blank => exact ⟨rfl, rfl, rfl⟩
    | filled _ _ hne => exact absurd hnil hne
  | cons p pre => exact absurd hnil (h.inner (by simp)).nonempty

/-- Other chunks may take the place of one and those behind it, as long as their
keys agree with their samples. -/
theorem Filed.splice {post' : List (ChunkKey × Chunk)} {e' : ChunkKey × Chunk}
    (h : Filed (pre ++ e :: post)) (hne : e'.2.toList ≠ [])
    (hkey : e'.1 = .ofTimestamp (Run.firstTimestamp e'.2.toList) ∨
      pre = [] ∧ e'.1 = Series.seedKey)
    (hpost : ∀ x ∈ post', FiledAt x) : Filed (pre ++ e' :: post') := by
  cases pre with
  | nil => exact .filled e' post' hne (hkey.imp_right And.right) hpost
  | cons p pre =>
    rw [List.cons_append] at h
    obtain ⟨hp, hpkey⟩ := h.head (by simp)
    refine .filled p _ hp hpkey fun x hx => ?_
    rcases List.mem_append.mp hx with hx | hx
    · exact h.rest x (by simp [hx])
    · rcases List.mem_cons.mp hx with rfl | hx
      · exact ⟨hne, hkey.resolve_right (by simp)⟩
      · exact hpost x hx

/-- A chunk with samples may follow chunks with samples. -/
theorem Filed.concat {entries : List (ChunkKey × Chunk)} (h : Filed entries)
    (hne : runOf entries ≠ []) (he : FiledAt e) : Filed (entries ++ [e]) := by
  cases h with
  | blank c hc => exact absurd (by simp [hc]) hne
  | filled p rest hp hkey hrest =>
    refine .filled p _ hp hkey fun x hx => ?_
    rcases List.mem_append.mp hx with hx | hx
    · exact hrest x hx
    · rw [List.mem_singleton.mp hx]
      exact he

/-- The chunks at the end are filed without those before them. -/
theorem Filed.suffix (h : Filed (pre ++ post)) (hpost : post ≠ []) : Filed post := by
  cases pre with
  | nil => exact h
  | cons p pre =>
    cases post with
    | nil => exact absurd rfl hpost
    | cons e post =>
      have he := h.inner (by simp)
      exact .filled e post he.nonempty (.inl he.key) h.behind

theorem Laid.suffix (h : Laid (pre ++ post)) (hpost : post ≠ []) : Laid post := by
  refine ⟨fun e he => h.holds e (List.mem_append_right _ he), ?_, h.filed.suffix hpost⟩
  have hasc := h.ascending
  rw [runOf_append] at hasc
  exact (Run.ascending_append.mp hasc).2.1

/-- The chunks hold as many samples as they count. -/
theorem length_runOf {entries : List (ChunkKey × Chunk)}
    (h : ∀ e ∈ entries, e.2.Holds e.2.toList) :
    (entries.map (·.2.count)).sum = (runOf entries).length := by
  induction entries with
  | nil => rfl
  | cons e entries ih =>
    rw [List.map_cons, List.sum_cons, runOf_cons, List.length_append,
      (h e List.mem_cons_self).count, ih fun x hx => h x (List.mem_cons_of_mem _ hx)]

end Parts

/-! ## The home of a timestamp -/

/-- The chunk between the other entries is the one that covers the timestamp. -/
structure Home (t : Timestamp) (pre : List (ChunkKey × Chunk)) (c : Chunk)
    (post : List (ChunkKey × Chunk)) : Prop where
  before : ∀ x ∈ runOf pre, x.timestamp < t
  behind : ∀ x ∈ runOf post, t < x.timestamp
  front : pre ≠ [] → Run.firstTimestamp c.toList ≤ t

theorem lt_of_filedAt {e : ChunkKey × Chunk} {t : Timestamp} (h : FiledAt e)
    (hasc : Run.Ascending e.2.toList) (hlt : compare (ChunkKey.ofTimestamp t) e.1 = .lt) :
    ∀ x ∈ e.2.toList, t < x.timestamp := by
  intro x hx
  rw [h.key, ChunkKey.compare_ofTimestamp] at hlt
  have hle := hasc.firstTimestamp_le hx
  rw [UInt64.lt_iff_toNat_lt] at hlt ⊢
  rw [UInt64.le_iff_toNat_le] at hle
  omega

theorem Laid.ascending_of_mem {entries : List (ChunkKey × Chunk)} (h : Laid entries)
    {e : ChunkKey × Chunk} (he : e ∈ entries) : Run.Ascending e.2.toList := by
  obtain ⟨pre, post, rfl⟩ := List.append_of_mem he
  have hasc := h.ascending
  rw [runOf_append, runOf_cons] at hasc
  exact (Run.ascending_append.mp (Run.ascending_append.mp hasc).2.1).1

/-- The keys around a chunk tell whether it covers a timestamp. -/
theorem Laid.home {pre post : List (ChunkKey × Chunk)} {k : ChunkKey} {c : Chunk}
    (h : Laid (pre ++ (k, c) :: post)) {t : Timestamp}
    (hk : pre ≠ [] → compare (ChunkKey.ofTimestamp t) k ≠ .lt)
    (hpost : ∀ e ∈ post, compare (ChunkKey.ofTimestamp t) e.1 = .lt) : Home t pre c post := by
  have hfront : pre ≠ [] → Run.firstTimestamp c.toList ≤ t := by
    intro hpre
    have hkey := hk hpre
    rw [show k = _ from (h.filed.inner hpre).key, ne_eq, ChunkKey.compare_ofTimestamp] at hkey
    exact UInt64.not_lt.mp hkey
  refine ⟨fun x hx => ?_, fun x hx => ?_, hfront⟩
  · have hpre : pre ≠ [] := by
      rintro rfl
      cases hx
    obtain ⟨y, hy, hyfirst⟩ := Run.firstTimestamp_mem (h.filed.inner hpre).nonempty
    have hasc := h.ascending
    rw [runOf_append, runOf_cons] at hasc
    have hlt := (Run.ascending_append.mp hasc).2.2 x hx y (by simp [hy])
    have hle := hfront hpre
    rw [hyfirst, UInt64.lt_iff_toNat_lt] at hlt
    rw [UInt64.lt_iff_toNat_lt]
    rw [UInt64.le_iff_toNat_le] at hle
    exact Nat.lt_of_lt_of_le hlt hle
  · obtain ⟨e, he, hxe⟩ := mem_runOf.mp hx
    exact lt_of_filedAt (h.filed.behind e he) (h.ascending_of_mem (by simp [he])) (hpost e he) x hxe

/-- The greatest key that is not above a timestamp, or else the least key, leads
to the chunk that covers it. -/
theorem Laid.exists_home {d : Directory Chunk} (h : Laid d.entries) (t : Timestamp) :
    ∃ pre k c post, d.entries = pre ++ (k, c) :: post ∧ Home t pre c post ∧
      (d.atMost? (.ofTimestamp t) <|> d.first?) = some (k, c) := by
  rcases d.split_or_gap (.ofTimestamp t) with ⟨pre, c, post, hsplit⟩ | ⟨lo, hi, hgap, haround⟩
  · have hself : compare (ChunkKey.ofTimestamp t) (ChunkKey.ofTimestamp t) ≠ .lt := by simp
    have hpost := (SortedMap.around_of_split hsplit).above
    have hmost := SortedMap.atMost?_of_split hsplit hself hpost
    exact ⟨pre, _, c, post, hsplit, (hsplit ▸ h).home (fun _ => hself) hpost, by rw [hmost]; rfl⟩
  · rcases List.eq_nil_or_concat lo with rfl | ⟨pre, ⟨k, c⟩, hlo⟩
    · have hmost : d.atMost? (.ofTimestamp t) = none := by
        apply SortedMap.atMost?_of_all_above
        rw [hgap]
        exact haround.above
      cases hhi : hi with
      | nil => exact absurd (by rw [hgap, hhi]; rfl) h.filed.ne_nil
      | cons e post =>
        rw [hhi, List.nil_append] at hgap
        have hhome := (show Laid ([] ++ (e.1, e.2) :: post) from hgap ▸ h).home (t := t)
          (fun hne => absurd rfl hne) (fun x hx => haround.above x (by simp [hhi, hx]))
        exact ⟨[], e.1, e.2, post, hgap, hhome, by rw [hmost, SortedMap.first?, hgap]; rfl⟩
    · rw [List.concat_eq_append] at hlo
      have hsplit : d.entries = pre ++ (k, c) :: hi := by rw [hgap, hlo]; simp
      have hbelow : compare k (ChunkKey.ofTimestamp t) = .lt :=
        haround.below (k, c) (by simp [hlo])
      have hk : compare (ChunkKey.ofTimestamp t) k ≠ .lt := by
        rw [Std.OrientedCmp.gt_of_lt hbelow]
        decide
      have hmost := SortedMap.atMost?_of_split hsplit hk haround.above
      exact ⟨pre, k, c, hi, hsplit, (hsplit ▸ h).home (fun _ => hk) haround.above,
        by rw [hmost]; rfl⟩

end SeriesStore
