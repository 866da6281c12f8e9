import SeriesStore.Scan

/-!
# Scans, step by step and as a whole

A scan can be taken step by step or read as a whole, which comes to the same. Once a step has
given nothing or a failure, no later step gives anything. What a scan of a list of chunks reads
is told for any list in which no sample of the span comes behind one that lies past it.

Results:
1. `Scan.outputs_ended`: a scan that has ended stays so.
2. `Scan.gives_of_collect`: the steps of a scan give what is read as a whole.
3. `Span.collect_ok`: a scan reads the samples that lie in its span.
-/

namespace SeriesStore

/-- The timestamp lies in the span. -/
def Span.holds (span : Span) (t : Timestamp) : Bool := span.low ≤ t && t ≤ span.high

namespace Span

variable {span : Span} {x : Sample} {samples : List Sample} {chunks : List Chunk}

/-- No timestamp lies past a span up to the end of time. -/
theorem holds_latest (low t : Timestamp) :
    ({ low, high := .latest } : Span).holds t = decide (low ≤ t) := by
  have hhigh : t ≤ .latest := UInt64.le_iff_toNat_le.mpr (Nat.le_of_lt_succ t.toNat_lt)
  simp [holds, hhigh]

/-- A sample lies in the span where it comes neither before nor after it, in either
direction. -/
theorem holds_eq (span : Span) (x : Sample) :
    span.holds x.timestamp = (!span.isPast x && !span.isBefore x) := by
  obtain ⟨low, high, reverse⟩ := span
  cases reverse with
  | false => simp [holds, isPast, isBefore, ← UInt64.not_lt, Bool.and_comm]
  | true => simp [holds, isPast, isBefore, ← UInt64.not_lt]

/-! ## One sample -/

theorem find?_past (h : span.isPast x = true) :
    span.find? (.ok (x :: samples)) chunks = none := by
  unfold find?
  simp [h]

theorem find?_before (hpast : span.isPast x = false) (h : span.isBefore x = true) :
    span.find? (.ok (x :: samples)) chunks = span.find? (.ok samples) chunks := by
  rw [find?.eq_def, find?.eq_def]
  simp [hpast, h]

theorem find?_inside (hpast : span.isPast x = false) (h : span.isBefore x = false) :
    span.find? (.ok (x :: samples)) chunks = some (.ok (x, samples, chunks)) := by
  unfold find?
  simp [hpast, h]

theorem collect_past (h : span.isPast x = true) :
    span.collect (.ok (x :: samples)) chunks = .ok [] := by
  unfold collect
  simp [h]

theorem collect_before (hpast : span.isPast x = false) (h : span.isBefore x = true) :
    span.collect (.ok (x :: samples)) chunks = span.collect (.ok samples) chunks := by
  rw [collect.eq_def, collect.eq_def]
  simp [hpast, h]

theorem collect_inside (hpast : span.isPast x = false) (h : span.isBefore x = false) :
    span.collect (.ok (x :: samples)) chunks =
      (span.collect (.ok samples) chunks).map (x :: ·) := by
  rw [collect.eq_def, collect.eq_def]
  simp only [List.takeWhile_cons, List.filter_cons, List.any_cons, hpast, h, Bool.not_false,
    if_true, Bool.false_or]
  split
  · rfl
  · cases chunks with
    | nil => rfl
    | cons chunk chunks =>
      simp only
      split
      · rfl
      · cases span.collect (chunk.scan span.reverse) chunks <;> rfl

/-! ## One step -/

/-- What is read where a step comes to this. -/
def readFrom (span : Span) :
    Option (Except StoreError (Sample × List Sample × List Chunk)) → Except StoreError (List Sample)
  | none => .ok []
  | some (.error e) => .error e
  | some (.ok (x, samples, chunks)) => (span.collect (.ok samples) chunks).map (x :: ·)

theorem collect_ok_eq
    (h : span.collect (.ok []) chunks = span.readFrom (span.find? (.ok []) chunks))
    (samples : List Sample) :
    span.collect (.ok samples) chunks = span.readFrom (span.find? (.ok samples) chunks) := by
  induction samples with
  | nil => exact h
  | cons x samples ih =>
    cases hpast : span.isPast x with
    | true => rw [collect_past hpast, find?_past hpast, readFrom]
    | false =>
      cases hbefore : span.isBefore x with
      | true => rw [collect_before hpast hbefore, find?_before hpast hbefore, ih]
      | false => rw [collect_inside hpast hbefore, find?_inside hpast hbefore, readFrom]

/-- What is read as a whole is the next sample and what is read behind it. -/
theorem collect_eq (span : Span) (samples : Except StoreError (List Sample))
    (chunks : List Chunk) :
    span.collect samples chunks = span.readFrom (span.find? samples chunks) := by
  -- On the chunks behind the one that is read, whose samples are gone through one by one.
  induction chunks generalizing samples with
  | nil =>
    cases samples with
    | error e => rfl
    | ok samples => exact collect_ok_eq rfl samples
  | cons chunk chunks ih =>
    cases samples with
    | error e => rfl
    | ok samples =>
      refine collect_ok_eq ?_ samples
      rw [collect.eq_def, find?.eq_def]
      simp only [List.takeWhile_nil, List.filter_nil, List.any_nil, List.dropWhile_nil,
        Bool.false_eq_true, if_false]
      split
      · rfl
      · rw [ih]
        cases span.readFrom (span.find? (chunk.scan span.reverse) chunks) <;> rfl

end Span

/-! ## Scans -/

namespace Scan

variable {scan : Scan}

/-- What the next steps of a scan give. -/
def outputs : Nat → Scan → List (Option (Except StoreError Sample))
  | 0, _ => []
  | n + 1, scan => scan.next.1 :: scan.next.2.outputs n

/-- The step has given nothing or a failure. -/
def Ends : Option (Except StoreError Sample) → Prop
  | none | some (.error _) => True
  | some (.ok _) => False

/-- The scan gives these items, one a step, and nothing behind them. -/
def Gives (scan : Scan) (items : List (Except StoreError Sample)) : Prop :=
  ∀ n, scan.outputs (items.length + n) = items.map some ++ List.replicate n none

theorem outputs_of_ended (h : scan.ahead = none) (n : Nat) :
    scan.outputs n = List.replicate n none := by
  induction n with
  | zero => rfl
  | succ n ih =>
    have hnext : scan.next = (none, scan) := by
      obtain ⟨span, ahead⟩ := scan
      obtain rfl : ahead = none := h
      rfl
    rw [outputs, hnext, ih, List.replicate_succ]

theorem ahead_of_ends (h : Ends scan.next.1) : scan.next.2.ahead = none := by
  unfold next at h ⊢
  split <;> simp_all [Ends]

/-- Once a step has given nothing or a failure, no later step gives anything. -/
theorem outputs_ended {n : Nat} {front back : List (Option (Except StoreError Sample))}
    {item : Option (Except StoreError Sample)} (h : scan.outputs n = front ++ item :: back)
    (hends : Ends item) : ∀ later ∈ back, later = none := by
  induction n generalizing scan front with
  | zero => cases front <;> cases h
  | succ n ih =>
    rw [outputs] at h
    cases front with
    | cons first front => exact ih (List.cons.inj h).2
    | nil =>
      obtain ⟨rfl, hback⟩ := List.cons.inj h
      rw [outputs_of_ended (ahead_of_ends hends)] at hback
      exact fun later hlater => List.eq_of_mem_replicate (hback ▸ hlater)

theorem collect_next (scan : Scan) :
    scan.collect =
      match scan.next.1 with
      | none => .ok []
      | some (.error e) => .error e
      | some (.ok x) => scan.next.2.collect.map (x :: ·) := by
  obtain ⟨span, ahead⟩ := scan
  cases ahead with
  | none => rfl
  | some ahead =>
    obtain ⟨samples, chunks⟩ := ahead
    have hread : (Scan.mk span (some (samples, chunks))).collect = _ :=
      span.collect_eq samples chunks
    rw [hread]
    unfold next
    simp only [Option.bind_some]
    rcases span.find? samples chunks with _ | (e | ⟨x, samples, chunks⟩) <;> rfl

theorem gives_nil (h : scan.next.1 = none) : scan.Gives [] := by
  intro n
  have hahead : scan.next.2.ahead = none := ahead_of_ends (h ▸ trivial)
  rw [List.length_nil, Nat.zero_add, List.map_nil, List.nil_append]
  cases n with
  | zero => rfl
  | succ n => rw [outputs, h, outputs_of_ended hahead, List.replicate_succ]

theorem gives_cons {item : Except StoreError Sample} {items : List (Except StoreError Sample)}
    (h : scan.next.1 = some item) (hrest : scan.next.2.Gives items) :
    scan.Gives (item :: items) := by
  intro n
  rw [List.length_cons, Nat.add_right_comm, outputs, h, hrest n]
  rfl

/-- The steps of a scan give what is read as a whole. -/
theorem gives_of_collect {samples : List Sample} (h : scan.collect = .ok samples) :
    scan.Gives (samples.map .ok) := by
  induction samples generalizing scan with
  | nil =>
    rw [collect_next] at h
    refine gives_nil ?_
    split at h
    · assumption
    · cases h
    · cases hrest : scan.next.2.collect with
      | error e => rw [hrest] at h; cases h
      | ok samples => rw [hrest] at h; cases h
  | cons x samples ih =>
    rw [collect_next] at h
    split at h
    · cases h
    · cases h
    · next hnext =>
      cases hrest : scan.next.2.collect with
      | error e => rw [hrest] at h; cases h
      | ok samples =>
        rw [hrest] at h
        cases h
        exact gives_cons hnext (ih hrest)

/-- A scan that begins with a chunk that cannot be read gives the failure and ends. -/
theorem gives_of_unreadable {e : StoreError} {chunks : List Chunk}
    (h : scan.ahead = some (.error e, chunks)) : scan.Gives [.error e] := by
  obtain ⟨span, ahead⟩ := scan
  obtain rfl : ahead = some (.error e, chunks) := h
  have hnext : (Scan.mk span (some (.error e, chunks))).next = (some (.error e), ⟨span, none⟩) := by
    cases chunks <;> rfl
  refine gives_cons (by rw [hnext]) ?_
  rw [hnext]
  exact gives_nil rfl

end Scan

/-! ## What is read -/

namespace Span

variable {span : Span} {samples : List Sample} {chunks : List Chunk}

/-- The samples come in the order of a scan: none that is not past the span comes behind one
that is. -/
def Ordered (span : Span) (samples : List Sample) : Prop :=
  samples.Pairwise fun x y => span.isPast x = true → span.isPast y = true

/-- No sample past the span is in it. -/
theorem filter_of_past (h : ∀ x ∈ samples, span.isPast x = true) :
    samples.filter (span.holds ·.timestamp) = [] := by
  apply List.filter_eq_nil_iff.mpr
  intro x hx
  rw [holds_eq, h x hx]
  simp

/-- The samples of one chunk that a scan lists. -/
theorem inside_eq (h : span.Ordered samples) :
    (samples.takeWhile (!span.isPast ·)).filter (!span.isBefore ·) =
      samples.filter (span.holds ·.timestamp) := by
  induction samples with
  | nil => rfl
  | cons x samples ih =>
    obtain ⟨hx, hrest⟩ := List.pairwise_cons.mp h
    cases hpast : span.isPast x with
    | true =>
      have hall : ∀ y ∈ x :: samples, span.isPast y = true := by
        intro y hy
        rcases List.mem_cons.mp hy with rfl | hy
        · exact hpast
        · exact hx y hy hpast
      rw [filter_of_past hall, List.takeWhile_cons, hpast]
      rfl
    | false =>
      simp only [List.takeWhile_cons, List.filter_cons, holds_eq, hpast, Bool.not_false, if_true,
        Bool.true_and]
      rw [ih hrest]
      simp only [holds_eq]

/-- A scan reads the samples that lie in its span. -/
theorem collect_ok (listed : Chunk → List Sample)
    (hscan : ∀ c ∈ chunks, c.scan span.reverse = .ok (listed c))
    (hmiss : ∀ c ∈ chunks, span.misses c = true →
      listed c ≠ [] ∧ ∀ x ∈ listed c, span.isPast x = true)
    (hordered : span.Ordered (samples ++ chunks.flatMap listed)) :
    span.collect (.ok samples) chunks =
      .ok ((samples ++ chunks.flatMap listed).filter (span.holds ·.timestamp)) := by
  induction chunks generalizing samples with
  | nil =>
    rw [List.flatMap_nil, List.append_nil] at hordered ⊢
    rw [collect, inside_eq hordered]
    split <;> rfl
  | cons chunk chunks ih =>
    obtain ⟨hsamples, hrest, hcross⟩ := List.pairwise_append.mp hordered
    rw [collect, inside_eq hsamples, List.filter_append]
    cases hpast : samples.any span.isPast with
    | true =>
      obtain ⟨x, hx, hxpast⟩ := List.any_eq_true.mp hpast
      rw [filter_of_past fun y hy => hcross x hx y hy hxpast, List.append_nil]
      rfl
    | false =>
      -- A chunk that misses the span lies behind it, and so do all that follow.
      cases hmisses : span.misses chunk with
      | true =>
        obtain ⟨hne, hall⟩ := hmiss chunk List.mem_cons_self hmisses
        obtain ⟨x, hx⟩ := List.exists_mem_of_ne_nil _ hne
        have hrestPast : ∀ y ∈ chunks.flatMap listed, span.isPast y = true := fun y hy =>
          (List.pairwise_append.mp hrest).2.2 x hx y hy (hall x hx)
        have hnone : ∀ y ∈ (chunk :: chunks).flatMap listed, span.isPast y = true := by
          intro y hy
          rcases List.mem_append.mp hy with hy | hy
          · exact hall y hy
          · exact hrestPast y hy
        rw [filter_of_past hnone, List.append_nil]
        rfl
      | false =>
        rw [hscan chunk List.mem_cons_self, ih (fun c hc => hscan c (List.mem_cons_of_mem _ hc))
          (fun c hc => hmiss c (List.mem_cons_of_mem _ hc)) hrest]
        rfl

end Span

end SeriesStore
