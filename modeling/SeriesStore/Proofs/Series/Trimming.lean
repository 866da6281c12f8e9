import SeriesStore.Proofs.Series.Invariant

/-!
# What a trim drops

A trim goes through the chunks from the first one on and stops at one that does not lie
before the retention window. As the chunks follow each other in time, it drops all that lie
before the window and no others; as the last chunk ends with the last sample of the series,
at which the window ends, one chunk is always left.

Results:
1. `Valid.trim_entries`, `Valid.trim_dropped`: what is left, and what is counted.
2. `trim_again`: a second trim finds nothing.
3. `trim_run`: all of it, after any calls.
-/

namespace SeriesStore

/-! ## Fronts of lists -/

section Front

variable {α : Type} {p : α → Bool} {l : List α}

/-- Where a property passes from each element to those before it, the front that has it is
all that has it. -/
theorem front_eq_filter (h : l.Pairwise fun a b => p b = true → p a = true) :
    l.takeWhile p = l.filter p ∧ l.dropWhile p = l.filter (!p ·) := by
  induction l with
  | nil => exact ⟨rfl, rfl⟩
  | cons a l ih =>
    obtain ⟨ha, hl⟩ := List.pairwise_cons.mp h
    cases hp : p a with
    | true => simp [hp, ih hl]
    | false =>
      have hnone : ∀ b ∈ a :: l, p b = false := by
        intro b hb
        rcases List.mem_cons.mp hb with rfl | hb
        · exact hp
        · exact Bool.eq_false_iff.mpr fun hpb => Bool.false_ne_true (hp.symm.trans (ha b hb hpb))
      rw [List.takeWhile_cons_of_neg (by simp [hp]), List.dropWhile_cons_of_neg (by simp [hp])]
      exact ⟨(List.filter_eq_nil_iff.mpr fun b hb => by simp [hnone b hb]).symm,
        (List.filter_eq_self.mpr fun b hb => by simp [hnone b hb]).symm⟩

end Front

namespace Series

variable {s : Series} {e : ChunkKey × Chunk}

/-- The chunk holds samples, and all of them are further back from the last sample of the
series than samples are kept. -/
def Outdated (s : Series) (c : Chunk) : Prop :=
  c.toList ≠ [] ∧ ∀ x ∈ c.toList, x.timestamp.toNat < s.lastTimestamp.toNat - s.retention.toNat

instance (s : Series) (c : Chunk) : Decidable (s.Outdated c) :=
  inferInstanceAs (Decidable (_ ∧ ∀ x ∈ c.toList, _))

/-! ## Expired chunks -/

theorem Valid.expired_iff (h : s.Valid) (hkept : s.retention ≠ 0) (he : e ∈ s.chunks.entries) :
    expired s.oldest e.2 = true ↔ s.Outdated e.2 := by
  unfold expired
  rw [decide_eq_true_iff, (h.laid.holds e he).lastTimestamp]
  constructor
  · refine fun hlt => ⟨fun hnil => ?_, fun x hx => ?_⟩
    · -- A chunk without samples is alone, and its series begins and ends at zero.
      obtain ⟨pre, post, hsplit⟩ := List.append_of_mem he
      obtain ⟨rfl, rfl, -⟩ := (hsplit ▸ h.laid.filed).of_nil hnil
      have hlast : s.lastTimestamp = Run.lastTimestamp e.2.toList := by
        rw [h.lastTimestamp_eq, toList, hsplit, List.nil_append, runOf_cons, runOf_nil,
          List.append_nil]
      exact absurd s.oldest_le (UInt64.not_le.mpr (hlast ▸ hlt))
    · rw [← toNat_oldest hkept, ← UInt64.lt_iff_toNat_lt]
      exact UInt64.lt_of_le_of_lt ((h.laid.ascending_of_mem he).le_lastTimestamp hx) hlt
  · rintro ⟨hne, hold⟩
    obtain ⟨x, hx, hlast⟩ := Run.lastTimestamp_mem hne
    rw [← hlast, UInt64.lt_iff_toNat_lt, toNat_oldest hkept]
    exact hold x hx

/-- The chunks before one that is outdated are outdated too. -/
theorem Valid.outdated_front (h : s.Valid) :
    s.chunks.entries.Pairwise fun a b => s.Outdated b.2 → s.Outdated a.2 := by
  refine (List.pairwise_flatMap.mp h.laid.ascending).2.imp_of_mem fun {a b} ha hb hlt hold => ?_
  refine ⟨fun hnil => ?_, fun x hx => ?_⟩
  · obtain ⟨pre, post, hsplit⟩ := List.append_of_mem ha
    obtain ⟨rfl, rfl, -⟩ := (hsplit ▸ h.laid.filed).of_nil hnil
    rw [hsplit, List.nil_append, List.mem_singleton] at hb
    exact hold.1 (hb ▸ hnil)
  · obtain ⟨y, hy⟩ := List.exists_mem_of_ne_nil _ hold.1
    exact Nat.lt_trans (UInt64.lt_iff_toNat_lt.mp (hlt x hx y hy)) (hold.2 y hy)

theorem Valid.expired_front (h : s.Valid) (hkept : s.retention ≠ 0) :
    s.chunks.entries.Pairwise fun a b =>
      expired s.oldest b.2 = true → expired s.oldest a.2 = true :=
  h.outdated_front.imp_of_mem fun ha hb hold hexpired =>
    (h.expired_iff hkept ha).mpr (hold ((h.expired_iff hkept hb).mp hexpired))

/-! ## Trims -/

/-- What is left are the entries that are not outdated. -/
theorem Valid.trim_entries (h : s.Valid) (hkept : s.retention ≠ 0) :
    s.trim.1.chunks.entries = s.chunks.entries.filter fun e => ¬ s.Outdated e.2 := by
  refine (front_eq_filter (h.expired_front hkept)).2.trans (List.filter_congr fun e he => ?_)
  simp [← h.expired_iff hkept he]

/-- What is counted are the samples of the others. -/
theorem Valid.trim_dropped (h : s.Valid) (hkept : s.retention ≠ 0) :
    s.trim.2 = ((s.chunks.entries.filter fun e => s.Outdated e.2).map (·.2.count)).sum := by
  rw [trim_count, (front_eq_filter (h.expired_front hkept)).1]
  rw [List.filter_congr fun e he => ?_]
  simp [← h.expired_iff hkept he]

/-- A trim changes nothing where the first chunk stays. -/
theorem trim_eq_self (h : ∀ e, s.chunks.first? = some e → expired s.oldest e.2 = false) :
    s.trim = (s, 0) := by
  have hfront : s.chunks.entries.dropWhile (fun e => expired s.oldest e.2) = s.chunks.entries ∧
      s.chunks.entries.takeWhile (fun e => expired s.oldest e.2) = [] := by
    cases hentries : s.chunks.entries with
    | nil => exact ⟨rfl, rfl⟩
    | cons e rest =>
      have he := h e (congrArg List.head? hentries)
      rw [List.dropWhile_cons_of_neg (by simp [he]), List.takeWhile_cons_of_neg (by simp [he])]
      exact ⟨rfl, rfl⟩
  have hcount : s.trim.2 = 0 := by
    rw [trim_count, hfront.2]
    rfl
  have hchunks : s.chunks.dropWhile (expired s.oldest) = s.chunks :=
    SortedMap.ext_entries hfront.1
  show ({ s with
    chunks := s.chunks.dropWhile (expired s.oldest)
    totalSamples := s.totalSamples - s.trim.2 }, s.trim.2) = (s, 0)
  rw [hchunks, hcount]
  rfl

theorem trim_of_forever (h : s.retention = 0) : s.trim = (s, 0) := by
  refine trim_eq_self fun e _ => ?_
  rw [oldest_of_forever h]
  exact decide_eq_false UInt64.not_lt_zero

/-- A second trim finds nothing. -/
theorem trim_again (s : Series) : s.trim.1.trim = (s.trim.1, 0) := by
  refine trim_eq_self fun e he => ?_
  have hstop := List.head?_dropWhile_not (fun e => expired s.oldest e.2) s.chunks.entries
  have hfirst : (s.chunks.entries.dropWhile fun e => expired s.oldest e.2).head? = some e := he
  rw [hfirst] at hstop
  exact hstop

/-- Whatever calls are made on a new series, a trim drops the chunks that are outdated and no
others, and answers how many samples they held. It changes nothing but the chunks and the number
of samples, leaves at least one chunk, and leaves nothing to a second trim; it changes nothing at
all where samples are kept for ever. -/
theorem trim_run (key : String) (options : SeriesOptions) (calls : List Call)
    (h : Call.Admits calls (new key options)) :
    let s := runAll Call.perform calls (new key options)
    (s.retention = 0 → s.trim = (s, 0)) ∧
      (s.retention ≠ 0 →
        s.trim.1.chunks.entries = s.chunks.entries.filter (fun e => ¬ s.Outdated e.2) ∧
        s.trim.2 = ((s.chunks.entries.filter fun e => s.Outdated e.2).map (·.2.count)).sum) ∧
      s.trim.1.totalSamples + s.trim.2 = s.totalSamples ∧
      s.trim.1 = { s with
        chunks := s.trim.1.chunks
        totalSamples := s.trim.1.totalSamples } ∧
      s.trim.1.chunks.entries ≠ [] ∧
      s.trim.1.trim = (s.trim.1, 0) := by
  intro s
  have hvalid : s.Valid := Call.run_valid (new_valid key options) h
  refine ⟨trim_of_forever, fun hkept => ⟨hvalid.trim_entries hkept, hvalid.trim_dropped hkept⟩, ?_,
    rfl, (trim_valid hvalid).laid.filed.ne_nil, trim_again s⟩
  obtain ⟨d, gone, htrim, -, happend, -⟩ := trim_ok hvalid.laid hvalid.lastTimestamp_eq
  have htotal := hvalid.total
  rw [happend, List.length_append] at htotal
  simp only [htrim]
  omega

/-- A trim of three chunks, of which the first holds two samples and is outdated. -/
theorem trim_run_backfill :
    let calls : List Call := [.add ⟨20, ⟨1⟩⟩, .upsert ⟨10, ⟨2⟩⟩ .unset .block, .add ⟨30, ⟨3⟩⟩,
      .add ⟨40, ⟨4⟩⟩]
    let options : SeriesOptions := { chunkSize := 16, encoding := .plain, retention := 15 }
    let s := runAll Call.perform calls (new "s" options)
    Call.Admits calls (new "s" options) ∧ s.trim.2 = 2 ∧
      s.trim.1.chunks.entries = s.chunks.entries.filter (fun e => ¬ s.Outdated e.2) ∧
      s.trim.1.trim = (s.trim.1, 0) :=
  have h := by decide +kernel
  have hall := trim_run "s" _ _ h
  ⟨h, by decide +kernel, (hall.2.1 (by decide)).1, hall.2.2.2.2.2⟩

end Series

end SeriesStore
