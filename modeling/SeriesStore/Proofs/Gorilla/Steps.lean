import SeriesStore.Gorilla.Decoder
import SeriesStore.Proofs.BitStreams
import SeriesStore.Proofs.Effects
import SeriesStore.Proofs.Gorilla.Windows

/-!
# Steps of a decoder

Whatever bytes a decoder is given, each of its steps goes through them in order. A step that
succeeds has consumed at least the shortest code that it reads; a step that fails says that the
stream is no code, and leaves the decoder inside its data and with a window that exists. No step
looks at a bit that it does not consume, so over a front part of the data it does the same, up to
the first bit that is missing.

Results:
1. `Orderly.bind`: steps in a row are orderly where each of them is.
2. `orderly_timestamp`, `orderly_value`, `orderly_first`, `orderly_later`: samples and their
   parts are read in order.
3. `decodeNext_cases`: what reading the next sample comes to.
4. `decodeNext_within`, `decodeNext_beyond`: what it comes to over a front part of the data.
-/

namespace SeriesStore

theorem bitsOfBytes_take (bytes : List UInt8) (size : Nat) :
    bitsOfBytes (bytes.take size) = (bitsOfBytes bytes).take (8 * size) := by
  induction bytes generalizing size with
  | nil => simp [bitsOfBytes]
  | cons byte bytes ih =>
    cases size with
    | zero => rfl
    | succ size =>
      have hbyte : (bitsOfByte byte).take (8 * (size + 1)) = bitsOfByte byte :=
        List.take_of_length_le (by rw [length_bitsOfByte]; omega)
      have hrest : 8 * (size + 1) - 8 = 8 * size := by omega
      unfold bitsOfBytes
      rw [List.take_succ_cons, List.flatMap_cons, List.flatMap_cons, ← bitsOfBytes, ← bitsOfBytes,
        ih, List.take_append, hbyte, length_bitsOfByte, hrest]

namespace BitReader

/-- The reader over the first `size` bytes of its data. -/
def cut (r : BitReader) (size : Nat) : BitReader := { r with data := r.data.take size }

theorem ahead_cut (r : BitReader) (size : Nat) :
    (r.cut size).ahead = r.ahead.take (8 * size - r.position) := by
  unfold ahead cut
  rw [Array.take_eq_extract, Array.toList_extract]
  simp [bitsOfBytes_take, List.drop_take]

/-- A bit that is read lies inside the data. -/
theorem readBit_some {r r' : BitReader} {b : Bool} (h : r.readBit = some (b, r')) :
    r' = r.skip 1 ∧ r.position < 8 * r.data.size := by
  rw [readBit_eq] at h
  obtain ⟨bit, hbit, heq⟩ := Option.map_eq_some_iff.mp h
  cases heq
  refine ⟨rfl, Nat.lt_of_not_le fun hle => ?_⟩
  have hnil : r.ahead = [] := List.drop_eq_nil_of_le (by simpa using hle)
  rw [hnil] at hbit
  cases hbit

theorem readBit_cut_of_lt (r : BitReader) {size : Nat} (h : r.position < 8 * size) :
    (r.cut size).readBit = r.readBit.map fun (b, r') => (b, r'.cut size) := by
  obtain ⟨n, hn⟩ : ∃ n, 8 * size - r.position = n + 1 := ⟨8 * size - r.position - 1, by omega⟩
  rw [readBit_eq, readBit_eq, ahead_cut, hn]
  cases r.ahead <;> rfl

theorem readBit_cut_of_le (r : BitReader) {size : Nat} (h : 8 * size ≤ r.position) :
    (r.cut size).readBit = none := by
  rw [readBit_eq, ahead_cut, Nat.sub_eq_zero_of_le h]
  rfl

end BitReader

namespace Gorilla

/-- Written bounds are those of a window that is not empty, or of none. -/
theorem Window.ofBounds_cases (leading width : Nat) :
    (∃ w, Window.ofBounds leading width = .ok w ∧ w.Proper) ∨
      ∃ why, Window.ofBounds leading width = .error (.compression why) := by
  unfold Window.ofBounds
  have hpos : 0 < if width = 0 then 64 else width := by split <;> omega
  generalize (if width = 0 then 64 else width) = width at hpos
  by_cases hwide : leading + width > 64
  · exact .inr ⟨_, if_pos hwide⟩
  · refine .inl ⟨_, if_neg hwide, ?_⟩
    show leading + (64 - leading - width) < 64
    omega

namespace Decoder

/-- The decoder over the first `size` bytes of its data. -/
def cut (d : Decoder) (size : Nat) : Decoder := { d with reader := d.reader.cut size }

/-- What a step over at least `least` bits leaves of a decoder. -/
structure Moved (least : Nat) (d d' : Decoder) : Prop where
  data : d'.reader.data = d.reader.data
  count : d'.count = d.count
  forward : d.reader.position + least ≤ d'.reader.position
  inside : d.reader.position ≤ 8 * d.reader.data.size →
    d'.reader.position ≤ 8 * d.reader.data.size
  window : d.history.window.Proper → d'.history.window.Proper

theorem Moved.refl (d : Decoder) : Moved 0 d d := ⟨rfl, rfl, Nat.le_refl _, id, id⟩

theorem Moved.trans {m n : Nat} {d d' d'' : Decoder} (h : Moved m d d') (h' : Moved n d' d'') :
    Moved (m + n) d d'' where
  data := h'.data.trans h.data
  count := h'.count.trans h.count
  forward := by
    have := h.forward
    have := h'.forward
    omega
  inside hle := h.data ▸ h'.inside (h.data.symm ▸ h.inside hle)
  window hw := h'.window (h.window hw)

theorem Moved.weaken {m n : Nat} {d d' : Decoder} (h : Moved m d d') (hle : n ≤ m) :
    Moved n d d' :=
  ⟨h.data, h.count, Nat.le_trans (Nat.add_le_add_left hle _) h.forward, h.inside, h.window⟩

/-- The step goes through the data in order, over at least `least` bits where it succeeds, and
tells then how many samples there are by `counted`. -/
structure Orderly {α : Type} (least : Nat) (counted : Nat → Nat) (x : Decoding α) : Prop where
  ok : ∀ {d d' a}, x d = .ok a d' → Moved least d d' ∧ d'.decoded = counted d.decoded
  error : ∀ {d d' e}, x d = .error e d' →
    Moved 0 d d' ∧ d'.decoded = d.decoded ∧ ∃ why, e = .compression why
  within : ∀ {d d' a size}, x d = .ok a d' → d'.reader.position ≤ 8 * size →
    x (d.cut size) = .ok a (d'.cut size)
  beyond : ∀ {d d' a size}, x d = .ok a d' → d.reader.position ≤ 8 * size →
    8 * size < d'.reader.position → ∃ d'', x (d.cut size) = .error .unexpectedEnd d''

section Orderly

variable {α β : Type} {m n : Nat} {counted : Nat → Nat} {x : Decoding α} {f : α → Decoding β}

theorem Orderly.weaken (h : Orderly m counted x) (hle : n ≤ m) : Orderly n counted x where
  ok hx := ⟨(h.ok hx).1.weaken hle, (h.ok hx).2⟩
  error := h.error
  within := h.within
  beyond := h.beyond

/-- Steps in a row, of which only the last may tell that there is one more sample. -/
theorem Orderly.bind (hx : Orderly m id x) (hf : ∀ a, Orderly n counted (f a)) :
    Orderly (m + n) counted (x >>= f) where
  ok {d d' b} h := by
    obtain ⟨a, d₁, hfirst, h⟩ := bind_eq_ok h
    obtain ⟨hmoved, hcount⟩ := hx.ok hfirst
    obtain ⟨hmoved', hcount'⟩ := (hf a).ok h
    exact ⟨hmoved.trans hmoved', by rw [hcount', hcount, id]⟩
  error {d d' e} h := by
    cases hfirst : x d with
    | error e₁ d₁ =>
      rw [bind_of_error hfirst] at h
      cases h
      exact hx.error hfirst
    | ok a d₁ =>
      rw [bind_of_ok hfirst] at h
      obtain ⟨hmoved, hcount⟩ := hx.ok hfirst
      obtain ⟨hmoved', hcount', hwhy⟩ := (hf a).error h
      exact ⟨(hmoved.weaken (Nat.zero_le m)).trans hmoved', hcount'.trans hcount, hwhy⟩
  within {d d' b size} h hsize := by
    obtain ⟨a, d₁, hfirst, h⟩ := bind_eq_ok h
    have hforward := ((hf a).ok h).1.forward
    rw [bind_of_ok (hx.within hfirst (by omega)), (hf a).within h hsize]
  beyond {d d' b size} h hstart hend := by
    obtain ⟨a, d₁, hfirst, h⟩ := bind_eq_ok h
    by_cases hsize : d₁.reader.position ≤ 8 * size
    · rw [bind_of_ok (hx.within hfirst hsize)]
      exact (hf a).beyond h hsize hend
    · obtain ⟨d'', hcut⟩ := hx.beyond hfirst hstart (by omega)
      exact ⟨d'', bind_of_error hcut⟩

/-- A step that reads nothing and looks at no data. -/
theorem orderly_modifyGet {g : Decoder → α × Decoder}
    (hmoved : ∀ d, Moved 0 d (g d).2) (hcount : ∀ d, (g d).2.decoded = counted d.decoded)
    (hstill : ∀ d, (g d).2.reader.position = d.reader.position)
    (hcut : ∀ d size, g (d.cut size) = ((g d).1, (g d).2.cut size)) :
    Orderly 0 counted (modifyGet g) where
  ok {d d' a} h := by
    cases h
    exact ⟨hmoved d, hcount d⟩
  error h := by cases h
  within {d d' a size} h _ := by
    cases h
    rw [modifyGet_apply, hcut]
  beyond {d d' a size} h hstart hend := by
    cases h
    have := hstill d
    omega

theorem orderly_pure (a : α) : Orderly 0 id (pure a : Decoding α) :=
  orderly_modifyGet (g := fun d => (a, d)) Moved.refl (fun _ => rfl) (fun _ => rfl) fun _ _ => rfl

theorem orderly_throw (why : String) :
    Orderly 0 id (throw (.compression why) : Decoding α) where
  ok h := by cases h
  error h := by
    cases h
    exact ⟨.refl _, rfl, why, rfl⟩
  within h := by cases h
  beyond h := by cases h

end Orderly

/-! ## Bits and words -/

theorem bit_of_some {d : Decoder} {b : Bool} {r : BitReader} (h : d.reader.readBit = some (b, r)) :
    bit d = .ok b { d with reader := r } := by
  unfold bit
  rw [h]

theorem bit_of_none {d : Decoder} (h : d.reader.readBit = none) :
    bit d = .error .unexpectedEnd d := by
  unfold bit
  rw [h]

theorem bit_eq_ok {d d' : Decoder} {b : Bool} (h : bit d = .ok b d') :
    d' = { d with reader := d.reader.skip 1 } ∧ d.reader.readBit = some (b, d.reader.skip 1) ∧
      d.reader.position < 8 * d.reader.data.size := by
  cases hread : d.reader.readBit with
  | none =>
    rw [bit_of_none hread] at h
    cases h
  | some p =>
    obtain ⟨bit, r⟩ := p
    rw [bit_of_some hread] at h
    obtain ⟨rfl, hlt⟩ := BitReader.readBit_some hread
    cases h
    exact ⟨rfl, rfl, hlt⟩

theorem orderly_bit : Orderly 1 id bit where
  ok h := by
    obtain ⟨rfl, -, hlt⟩ := bit_eq_ok h
    exact ⟨⟨rfl, rfl, Nat.le_refl _, fun _ => hlt, id⟩, rfl⟩
  error {d d' e} h := by
    cases hread : d.reader.readBit with
    | none =>
      rw [bit_of_none hread] at h
      cases h
      exact ⟨.refl d, rfl, _, rfl⟩
    | some p =>
      rw [bit_of_some hread] at h
      cases h
  within {d d' b size} h hsize := by
    obtain ⟨rfl, hread, -⟩ := bit_eq_ok h
    have hlt : d.reader.position < 8 * size := hsize
    have hcut := BitReader.readBit_cut_of_lt d.reader hlt
    rw [hread] at hcut
    exact bit_of_some (d := d.cut size) hcut
  beyond {d d' b size} h hstart hend := by
    obtain ⟨rfl, -, -⟩ := bit_eq_ok h
    have hle : 8 * size ≤ d.reader.position := Nat.le_of_lt_succ hend
    exact ⟨_, bit_of_none (d := d.cut size) (BitReader.readBit_cut_of_le d.reader hle)⟩

/-- Reads `width` bits below those of `acc`, one by one. -/
def wordBelow (acc : UInt64) : Nat → Decoding UInt64
  | 0 => return acc
  | width + 1 => do wordBelow (pushLow acc (← bit)) width

theorem wordBelow_of_readBelow {width : Nat} {acc : UInt64} {d : Decoder} {w : Option UInt64}
    {r : BitReader} (h : BitReader.readBelow acc width d.reader = (w, r)) :
    wordBelow acc width d =
      w.elim (.error .unexpectedEnd { d with reader := r }) (.ok · { d with reader := r }) := by
  induction width generalizing acc d with
  | zero =>
    cases h
    rfl
  | succ width ih =>
    unfold BitReader.readBelow at h
    unfold wordBelow
    cases hread : d.reader.readBit with
    | none =>
      rw [hread] at h
      cases h
      exact bind_of_error (bit_of_none hread)
    | some p =>
      rw [hread] at h
      exact (bind_of_ok (bit_of_some hread)).trans (ih h)

/-- A word is read bit by bit. -/
theorem word_eq (width : Nat) : word width = wordBelow 0 width := by
  funext d
  cases hread : d.reader.readBits width with
  | mk w r =>
    rw [wordBelow_of_readBelow hread, word, hread]
    cases w <;> rfl

theorem orderly_word (width : Nat) : Orderly width id (word width) := by
  have hbelow : ∀ acc, Orderly width id (wordBelow acc width) := by
    induction width with
    | zero => exact fun acc => orderly_pure acc
    | succ width ih =>
      intro acc
      exact (orderly_bit.bind fun b => ih (pushLow acc b)).weaken (by omega)
  rw [word_eq]
  exact hbelow 0

/-! ## Parts of a sample -/

theorem orderly_changeIn (classes : List DeltaClass) : Orderly 0 id (changeIn classes) := by
  induction classes with
  | nil => exact (orderly_word 64).weaken (Nat.zero_le _)
  | cons c classes ih =>
    refine (orderly_bit.bind (n := 0) fun b => ?_).weaken (Nat.zero_le _)
    cases b with
    | true => exact ih
    | false =>
      exact ((orderly_word c.width).bind fun w => orderly_pure (w - c.bias)).weaken (Nat.zero_le _)

theorem orderly_change : Orderly 1 id change := by
  refine orderly_bit.bind (n := 0) fun b => ?_
  cases b with
  | true => exact orderly_changeIn _
  | false => exact orderly_pure 0

theorem orderly_timestamp : Orderly 1 id timestamp :=
  orderly_change.bind (n := 0) fun _ =>
    orderly_modifyGet (fun _ => ⟨rfl, rfl, Nat.le_refl _, id, id⟩) (fun _ => rfl) (fun _ => rfl)
      fun _ _ => rfl

/-- A window is kept only where it exists. -/
theorem orderly_window : Orderly 0 id window := by
  refine ((orderly_word 5).bind fun leading => (orderly_word 6).bind (n := 0) fun width =>
    ?_).weaken (Nat.zero_le _)
  rcases Window.ofBounds_cases leading.toNat width.toNat with ⟨w, hw, hproper⟩ | ⟨why, hwhy⟩
  · simp only [hw]
    exact orderly_modifyGet (fun _ => ⟨rfl, rfl, Nat.le_refl _, id, fun _ => hproper⟩)
      (fun _ => rfl) (fun _ => rfl) fun _ _ => rfl
  · simp only [hwhy]
    exact orderly_throw why

/-- The window of the next difference: a new one where the stream says so, and otherwise the
last one. -/
def chooseWindow : Decoding Window := do
  if ← bit then window else return (← get).history.window

theorem orderly_chooseWindow : Orderly 1 id chooseWindow := by
  refine orderly_bit.bind (n := 0) fun b => ?_
  cases b with
  | true => exact orderly_window
  | false =>
    exact orderly_modifyGet (g := fun d => (d.history.window, d)) Moved.refl (fun _ => rfl)
      (fun _ => rfl) fun _ _ => rfl

/-- A value that has changed is cut to the window that the stream chooses. -/
theorem value_eq : value = (do
    if ← bit then
      let w ← chooseWindow
      let difference := w.place (← word w.width)
      modifyGet fun d =>
        let value := ⟨d.history.value.bits ^^^ difference⟩
        (value, { d with history := { d.history with value } })
    else return (← get).history.value) := rfl

theorem orderly_value : Orderly 1 id value := by
  rw [value_eq]
  refine orderly_bit.bind (n := 0) fun b => ?_
  cases b with
  | true =>
    refine (orderly_chooseWindow.bind (n := 0) fun w => ?_).weaken (Nat.zero_le _)
    refine ((orderly_word w.width).bind (n := 0) fun bits => ?_).weaken (Nat.zero_le _)
    exact orderly_modifyGet (fun _ => ⟨rfl, rfl, Nat.le_refl _, id, id⟩) (fun _ => rfl)
      (fun _ => rfl) fun _ _ => rfl
  | false =>
    exact orderly_modifyGet (g := fun d => (d.history.value, d)) Moved.refl (fun _ => rfl)
      (fun _ => rfl) fun _ _ => rfl

/-! ## Samples -/

theorem orderly_first : Orderly 128 (fun _ => 1) first :=
  (orderly_word 64).bind fun _ => (orderly_word 64).bind (n := 0) fun _ =>
    orderly_modifyGet (fun _ => ⟨rfl, rfl, Nat.le_refl _, id, id⟩) (fun _ => rfl) (fun _ => rfl)
      fun _ _ => rfl

theorem orderly_later : Orderly 2 (· + 1) later :=
  orderly_timestamp.bind fun _ => orderly_value.bind (n := 0) fun _ =>
    orderly_modifyGet (fun _ => ⟨rfl, rfl, Nat.le_refl _, id, id⟩) (fun _ => rfl) (fun _ => rfl)
      fun _ _ => rfl

/-- Reads one more sample. -/
def nextSample (d : Decoder) : Decoding Sample := if d.decoded = 0 then first else later

/-- The fewest bits that one more sample can take. -/
def leastBits (d : Decoder) : Nat := if d.decoded = 0 then 128 else 2

theorem orderly_nextSample (d : Decoder) : ∃ counted : Nat → Nat,
    counted d.decoded = d.decoded + 1 ∧ Orderly d.leastBits counted d.nextSample := by
  unfold leastBits nextSample
  by_cases hzero : d.decoded = 0
  · simp only [hzero, if_true]
    exact ⟨_, rfl, orderly_first⟩
  · simp only [hzero, if_false]
    exact ⟨_, rfl, orderly_later⟩

/-- Where no more samples are expected, none is read. -/
theorem decodeNext_of_le {d : Decoder} (h : d.count ≤ d.decoded) : decodeNext d = .ok none d := by
  unfold decodeNext
  rw [bind_of_ok (get_apply d), if_pos h, pure_apply]

theorem decodeNext_of_lt {d : Decoder} (h : d.decoded < d.count) :
    decodeNext d = (some <$> d.nextSample) d := by
  unfold decodeNext nextSample
  rw [bind_of_ok (get_apply d), if_neg (by omega)]
  split <;> rfl

/-- There is no next sample, or it is read, or the stream is no code. -/
theorem decodeNext_cases (d : Decoder) :
    (d.count ≤ d.decoded ∧ decodeNext d = .ok none d) ∨
      (d.decoded < d.count ∧ ∃ s d', decodeNext d = .ok (some s) d' ∧
        Moved d.leastBits d d' ∧ d'.decoded = d.decoded + 1) ∨
      (d.decoded < d.count ∧ ∃ why d', decodeNext d = .error (.compression why) d' ∧
        Moved 0 d d' ∧ d'.decoded = d.decoded) := by
  rcases Nat.lt_or_ge d.decoded d.count with hmore | hdone
  · obtain ⟨counted, hcounted, horderly⟩ := d.orderly_nextSample
    rw [decodeNext_of_lt hmore]
    cases hread : d.nextSample d with
    | ok s d' =>
      obtain ⟨hmoved, hcount⟩ := horderly.ok hread
      exact .inr (.inl ⟨hmore, s, d', map_of_ok some hread, hmoved, hcount.trans hcounted⟩)
    | error e d' =>
      obtain ⟨hmoved, hcount, why, rfl⟩ := horderly.error hread
      exact .inr (.inr ⟨hmore, why, d', map_of_error some hread, hmoved, hcount⟩)
  · exact .inl ⟨hdone, decodeNext_of_le hdone⟩

theorem next_of_ok {d d' : Decoder} {s : Option Sample} (h : decodeNext d = .ok s d') :
    next d = .ok s d' := by
  unfold next
  simp only [h]

/-- After a failure the stream has ended. -/
theorem next_of_error {d d' : Decoder} {e : StoreError} (h : decodeNext d = .error e d') :
    next d = .error e { d' with decoded := d'.count } := by
  unfold next
  simp only [h]

/-- Where there can be no room for the samples that are left, none is read. -/
theorem decodeAll_of_overflow {d : Decoder}
    (h : blockLimit < Sample.sizeBytes * (d.count - d.decoded)) :
    decodeAll d = .error .overflow d := by
  unfold decodeAll
  rw [bind_of_ok (get_apply d), if_pos h]
  rfl

theorem decodeAll_of_room {d : Decoder}
    (h : Sample.sizeBytes * (d.count - d.decoded) ≤ blockLimit) :
    decodeAll d = decodeRest.adaptExcept Failure.error d := by
  unfold decodeAll
  rw [bind_of_ok (get_apply d), if_neg (Nat.not_lt.mpr h)]

/-! ## Over a front part of the data -/

section Cut

variable {d d' : Decoder} {s : Sample} {size : Nat}

theorem nextSample_of_decodeNext (h : decodeNext d = .ok (some s) d') :
    d.decoded < d.count ∧ d.nextSample d = .ok s d' := by
  rcases Nat.lt_or_ge d.decoded d.count with hmore | hdone
  · refine ⟨hmore, ?_⟩
    rw [decodeNext_of_lt hmore] at h
    cases hread : d.nextSample d with
    | ok s₁ d₁ =>
      rw [map_of_ok some hread] at h
      cases h
      rfl
    | error e d₁ => rw [map_of_error some hread] at h; cases h
  · rw [decodeNext_of_le hdone] at h
    cases h

/-- A sample that ends in the front part is read from it. -/
theorem decodeNext_within (h : decodeNext d = .ok (some s) d')
    (hsize : d'.reader.position ≤ 8 * size) :
    decodeNext (d.cut size) = .ok (some s) (d'.cut size) := by
  obtain ⟨hmore, hread⟩ := nextSample_of_decodeNext h
  obtain ⟨counted, -, horderly⟩ := d.orderly_nextSample
  rw [decodeNext_of_lt (d := d.cut size) hmore]
  exact map_of_ok some (horderly.within hread hsize)

/-- Of a sample that ends behind the front part nothing is read from it but that it ends too
early. -/
theorem decodeNext_beyond (h : decodeNext d = .ok (some s) d')
    (hstart : d.reader.position ≤ 8 * size) (hend : 8 * size < d'.reader.position) :
    ∃ d'', decodeNext (d.cut size) = .error .unexpectedEnd d'' := by
  obtain ⟨hmore, hread⟩ := nextSample_of_decodeNext h
  obtain ⟨counted, -, horderly⟩ := d.orderly_nextSample
  rw [decodeNext_of_lt (d := d.cut size) hmore]
  obtain ⟨d'', hcut⟩ := horderly.beyond hread hstart hend
  exact ⟨d'', map_of_error some hcut⟩

end Cut

end Decoder

end Gorilla

end SeriesStore
