import SeriesStore.Proofs.Gorilla.Steps

/-!
# Decoding undoes encoding

Both ends of a stream keep the same history of the samples before the next one,
so a code that the history of the encoder has made is read back by the decoder
that remembers the same.

Results:
1. `reads_change`, `value_of_ahead`: each part of the code of a sample is read
   back, whatever bits follow.
2. `later_of_ahead`: reading a sample leaves the decoder with the history that
   writing it left in the encoder.
3. `ofSamples_holds`: an encoder has written the codes of its samples and
   nothing else.
4. `outputs_ofSamples`: from the bytes of a stream and any bytes behind them, a
   decoder gives the first samples of the stream bit for bit, as many as it is
   told to, and then ends without a failure.
-/

namespace SeriesStore

namespace Gorilla

open SeriesStore.Field

namespace Decoder

/-- The decoder once some bits have been consumed. -/
def skip (d : Decoder) (n : Nat) : Decoder := { d with reader := d.reader.skip n }

@[simp] theorem reader_skip (d : Decoder) (n : Nat) : (d.skip n).reader = d.reader.skip n := rfl

@[simp] theorem history_skip (d : Decoder) (n : Nat) : (d.skip n).history = d.history := rfl

@[simp] theorem count_skip (d : Decoder) (n : Nat) : (d.skip n).count = d.count := rfl

@[simp] theorem decoded_skip (d : Decoder) (n : Nat) : (d.skip n).decoded = d.decoded := rfl

@[simp] theorem skip_zero (d : Decoder) : d.skip 0 = d := rfl

@[simp] theorem skip_skip (d : Decoder) (m n : Nat) : (d.skip m).skip n = d.skip (m + n) := by
  simp [skip]

/-! ## Reading the parts of a code -/

/-- The action takes the given bits off what lies ahead, changes nothing else,
and gives the result. -/
def Reads {α : Type} (x : Decoding α) (bits : List Bool) (a : α) : Prop :=
  ∀ (d : Decoder) (rest : List Bool), d.reader.ahead = bits ++ rest →
    x d = .ok a (d.skip bits.length)

theorem reads_pure {α : Type} (a : α) : Reads (pure a) [] a := fun _ _ _ => rfl

theorem Reads.bind {α β : Type} {x : Decoding α} {f : α → Decoding β} {front back : List Bool}
    {a : α} {b : β} (hx : Reads x front a) (hf : Reads (f a) back b) :
    Reads (x >>= f) (front ++ back) b := by
  intro d rest h
  have hfront := hx d (back ++ rest) (by rw [h, List.append_assoc])
  have hback := hf (d.skip front.length) rest (by simp [h])
  rw [bind_of_ok hfront, hback, skip_skip, List.length_append]

theorem reads_bit (b : Bool) : Reads bit [b] b := by
  intro d rest h
  simp [bit, BitReader.readBit_eq, h, skip]

theorem reads_word (word : UInt64) (width : Nat) :
    Reads (Decoder.word width) (bitsOf word width) (wordOf (bitsOf word width)) := by
  intro d rest h
  have hread := BitReader.readBits_of_ahead h
  rw [length_bitsOf] at hread
  simp [Decoder.word, hread, skip]

/-- A field that is wide enough for its word is read back as that word. -/
theorem reads_field {word : UInt64} {width : Nat} (hw : width ≤ 64)
    (h : word.toNat < 2 ^ width) :
    Reads (Decoder.word width) (Field.bits ⟨width, word⟩) word := by
  have hread := reads_word word width
  rwa [wordOf_bitsOf_of_lt hw h] at hread

theorem reads_changeIn {classes : List DeltaClass} (hc : ∀ c ∈ classes, c.width ≤ 64)
    (change : UInt64) :
    Reads (changeIn classes) (bitsOfCode (DeltaClass.codeIn classes change)) change := by
  induction classes with
  | nil =>
    unfold DeltaClass.codeIn
    rw [bitsOfCode_cons, bitsOfCode_nil, List.append_nil]
    exact reads_field (Nat.le_refl 64) change.toNat_lt
  | cons c classes ih =>
    have hrest := ih fun c hm => hc c (List.mem_cons_of_mem _ hm)
    unfold DeltaClass.codeIn
    split
    · next hfits =>
      have hword : Reads (Decoder.word c.width) (Field.bits ⟨c.width, change + c.bias⟩)
          (change + c.bias) :=
        reads_field (hc c List.mem_cons_self)
          (by simpa [DeltaClass.fits, Nat.one_shiftLeft] using hfits)
      have hdiff : Reads (do return (← Decoder.word c.width) - c.bias)
          (Field.bits ⟨c.width, change + c.bias⟩ ++ []) change := by
        refine hword.bind ?_
        rw [UInt64.add_sub_cancel]
        exact reads_pure change
      have hall := (reads_bit false).bind (f := fun b => if b then changeIn classes
        else do return (← Decoder.word c.width) - c.bias) hdiff
      simpa [changeIn] using hall
    · have hall := (reads_bit true).bind (f := fun b => if b then changeIn classes
        else do return (← Decoder.word c.width) - c.bias) hrest
      simpa [changeIn] using hall

/-- A change of the timestamp step is read back. -/
theorem reads_change (c : UInt64) : Reads change (bitsOfCode (changeCode c)) c := by
  have hclasses : ∀ c ∈ DeltaClass.all, c.width ≤ 64 := by decide
  unfold changeCode
  split
  · next h =>
    subst h
    have hall := (reads_bit false).bind
      (f := fun b => if b then changeIn DeltaClass.all else pure 0) (reads_pure (0 : UInt64))
    simpa [change] using hall
  · have hall := (reads_bit true).bind
      (f := fun b => if b then changeIn DeltaClass.all else pure 0) (reads_changeIn hclasses c)
    simpa [change] using hall

/-! ## Reading a sample -/

theorem timestamp_of_ahead {d : Decoder} {t : Timestamp} {rest : List Bool}
    (h : d.reader.ahead =
      bitsOfCode (changeCode (t - d.history.timestamp - d.history.step)) ++ rest) :
    timestamp d = .ok t
      { d.skip (bitsOfCode (changeCode (t - d.history.timestamp - d.history.step))).length with
        history := { d.history with timestamp := t, step := t - d.history.timestamp } } := by
  have hstep : d.history.step + (t - d.history.timestamp - d.history.step) =
      t - d.history.timestamp := by
    rw [UInt64.add_comm, UInt64.sub_add_cancel]
  have htime : d.history.timestamp + (t - d.history.timestamp) = t := by
    rw [UInt64.add_comm, UInt64.sub_add_cancel]
  unfold timestamp
  rw [bind_of_ok (reads_change _ d rest h)]
  simp [hstep, htime]

/-- The bounds of a tightest window are read back, and the window is kept. -/
theorem window_of_ahead {d : Decoder} {word : UInt64} {rest : List Bool} (hne : word ≠ 0)
    (h : d.reader.ahead = bitsOfCode [⟨5, (Window.tight word).leading.toUInt64⟩,
      ⟨6, (Window.tight word).width.toUInt64⟩] ++ rest) :
    window d = .ok (Window.tight word)
      { d.skip 11 with history := { d.history with window := Window.tight word } } := by
  simp only [bitsOfCode_cons, bitsOfCode_nil, List.append_nil, List.append_assoc] at h
  have hleading := reads_field (by decide) (Window.tight_leading_lt word) d _ h
  have hwidth := reads_word (Window.tight word).width.toUInt64 6 (d.skip 5) rest
    (by simp [h, Field.bits])
  unfold Field.bits at hleading hwidth
  simp only [length_bitsOf] at hleading hwidth
  rw [window, bind_of_ok hleading, bind_of_ok hwidth, wordOf_bitsOf _ (by decide),
    Window.ofBounds_tight hne]
  simp

theorem xor_xor_self (a b : UInt64) : b ^^^ (a ^^^ b) = a := by
  rw [UInt64.xor_comm a, ← UInt64.xor_assoc, UInt64.xor_self, UInt64.zero_xor]

/-- Once the window of a difference is known, and it shows the whole difference,
the bits in it give the value back. -/
theorem value_of_window {d d' : Decoder} {w : Window} {x : UInt64} {v : Value}
    {rest behind : List Bool} (hflag : d.reader.ahead = [true] ++ rest)
    (hchoose : chooseWindow (d.skip 1) = .ok w d') (hw : w.Proper) (hshows : w.Shows x)
    (hx : d'.history.value.bits ^^^ x = v.bits)
    (h : d'.reader.ahead = Field.bits ⟨w.width, w.cut x⟩ ++ behind) :
    value d = .ok v { d'.skip w.width with history := { d'.history with value := v } } := by
  have hread := reads_field w.width_le (Window.cut_lt hw hshows) d' behind h
  unfold Field.bits at hread
  simp only [length_bitsOf] at hread
  rw [value_eq, bind_of_ok (reads_bit true d rest hflag), if_pos rfl, List.length_singleton,
    bind_of_ok hchoose, bind_of_ok hread]
  simp [Window.place_cut hw hshows, hx]

/-- A value is read back, and with it the window that its code has left. -/
theorem value_of_ahead {d : Decoder} {v : Value} {rest : List Bool}
    (hw : d.history.window.Proper)
    (h : d.reader.ahead =
      bitsOfCode (differenceCode d.history.window (v.bits ^^^ d.history.value.bits)) ++ rest) :
    value d = .ok v
      { d.skip (bitsOfCode
          (differenceCode d.history.window (v.bits ^^^ d.history.value.bits))).length with
        history := { d.history with
          value := v
          window := windowAfter d.history.window (v.bits ^^^ d.history.value.bits) } } := by
  have hback := xor_xor_self v.bits d.history.value.bits
  generalize hx : v.bits ^^^ d.history.value.bits = x at h hback ⊢
  by_cases hzero : x = 0
  · have hsame : v = d.history.value := by
      rw [hzero, UInt64.xor_zero, ← Value.mk.injEq] at hback
      exact hback.symm
    have hcode : bitsOfCode (differenceCode d.history.window 0) = [false] := by
      simp [differenceCode]
    rw [hzero, hcode] at h ⊢
    unfold value
    rw [bind_of_ok (reads_bit false d rest h), hsame]
    simp only [Bool.false_eq_true, if_false, bind_of_ok (get_apply _), pure_apply, windowAfter]
    rfl
  by_cases hcovers : d.history.window.covers x = true
  · have hcode : bitsOfCode (differenceCode d.history.window x) =
        [true] ++ ([false] ++ Field.bits ⟨d.history.window.width, d.history.window.cut x⟩) := by
      simp [differenceCode, hzero, hcovers]
    have hwindow : windowAfter d.history.window x = d.history.window := by
      simp [windowAfter, hcovers]
    rw [hcode, List.append_assoc] at h
    have hchoose : chooseWindow (d.skip 1) = .ok d.history.window (d.skip 2) := by
      have hflag := reads_bit false (d.skip 1) _ (by rw [reader_skip, BitReader.ahead_skip, h]; rfl)
      rw [chooseWindow, bind_of_ok hflag]
      simp [bind_of_ok (get_apply _)]
    have hlen : ([true] ++ ([false] ++ Field.bits ⟨d.history.window.width,
        d.history.window.cut x⟩)).length = 2 + d.history.window.width := by
      simp [Field.bits]
      omega
    have hbits : (d.skip 2).reader.ahead =
        Field.bits ⟨d.history.window.width, d.history.window.cut x⟩ ++ rest := by
      simp [h]
    rw [value_of_window h hchoose hw (Window.shows_of_covers hcovers) hback hbits, hcode, hwindow,
      hlen]
    simp
  · have hcode : bitsOfCode (differenceCode d.history.window x) = [true] ++ ([true] ++
        (bitsOfCode [⟨5, (Window.tight x).leading.toUInt64⟩,
          ⟨6, (Window.tight x).width.toUInt64⟩] ++
        Field.bits ⟨(Window.tight x).width, (Window.tight x).cut x⟩)) := by
      simp [differenceCode, hzero, hcovers]
    have hwindow : windowAfter d.history.window x = Window.tight x := by
      simp [windowAfter, hzero, hcovers]
    rw [hcode, List.append_assoc] at h
    have hchoose : chooseWindow (d.skip 1) = .ok (Window.tight x)
        { d.skip 13 with history := { d.history with window := Window.tight x } } := by
      have hflag := reads_bit true (d.skip 1) _ (by rw [reader_skip, BitReader.ahead_skip, h]; rfl)
      rw [chooseWindow, bind_of_ok hflag, if_pos rfl]
      exact window_of_ahead hzero (by simp [h]; rfl)
    have hbounds : (bitsOfCode [⟨5, (Window.tight x).leading.toUInt64⟩,
        ⟨6, (Window.tight x).width.toUInt64⟩]).length = 11 := by
      simp [Field.bits]
    have hlen : ([true] ++ ([true] ++ (bitsOfCode [⟨5, (Window.tight x).leading.toUInt64⟩,
        ⟨6, (Window.tight x).width.toUInt64⟩] ++ Field.bits ⟨(Window.tight x).width,
          (Window.tight x).cut x⟩))).length = 13 + (Window.tight x).width := by
      simp [Field.bits]
      omega
    have hbits : (d.skip 13).reader.ahead =
        Field.bits ⟨(Window.tight x).width, (Window.tight x).cut x⟩ ++ rest := by
      rw [reader_skip, BitReader.ahead_skip, h, List.append_assoc, List.append_assoc]
      exact List.drop_left' hbounds
    rw [value_of_window h hchoose (Window.tight_proper hzero) (Window.tight_shows x) hback hbits,
      hcode, hwindow, hlen]
    simp

theorem first_of_ahead {d : Decoder} {s : Sample} {rest : List Bool}
    (h : d.reader.ahead = bitsOfCode (History.firstCode s) ++ rest) :
    first d = .ok s
      { d.skip (bitsOfCode (History.firstCode s)).length with
        decoded := 1
        history := { d.history with timestamp := s.timestamp, value := s.value } } := by
  have hfields : bitsOfCode (History.firstCode s) =
      Field.bits ⟨64, s.timestamp⟩ ++ Field.bits ⟨64, s.value.bits⟩ := by
    simp [History.firstCode]
  rw [hfields, List.append_assoc] at h
  have htime := reads_field (Nat.le_refl 64) s.timestamp.toNat_lt d _ h
  have hbits := reads_field (Nat.le_refl 64) s.value.bits.toNat_lt
    (d.skip (Field.bits ⟨64, s.timestamp⟩).length) rest (by simp [h])
  unfold first
  rw [bind_of_ok htime, bind_of_ok hbits, hfields]
  simp

/-- Reading a sample leaves the history that writing it has left. -/
theorem later_of_ahead {d : Decoder} {s : Sample} {rest : List Bool}
    (hw : d.history.window.Proper)
    (h : d.reader.ahead = bitsOfCode (d.history.code s) ++ rest) :
    later d = .ok s
      { d.skip (bitsOfCode (d.history.code s)).length with
        decoded := d.decoded + 1
        history := d.history.push s } := by
  unfold History.code at h
  rw [bitsOfCode_append, List.append_assoc] at h
  have htime := timestamp_of_ahead h
  have hvalue := value_of_ahead (v := s.value)
    (d := { d.skip (bitsOfCode
        (changeCode (s.timestamp - d.history.timestamp - d.history.step))).length with
      history := { d.history with
        timestamp := s.timestamp, step := s.timestamp - d.history.timestamp } })
    hw (show _ = _ ++ rest by simp [h])
  unfold later
  rw [bind_of_ok htime, bind_of_ok hvalue]
  simp [History.code, History.push]

end Decoder

/-! ## Streams -/

namespace History

theorem start_proper (s : Sample) : (start s).window.Proper := by
  simp [start, Window.Proper]

theorem push_proper {h : History} (hw : h.window.Proper) (s : Sample) :
    (h.push s).window.Proper := by
  unfold push
  simp only [windowAfter]
  split
  · exact hw
  · next hnew =>
    have hne : s.value.bits ^^^ h.value.bits ≠ 0 := by
      intro h0
      simp [h0] at hnew
    exact Window.tight_proper hne

/-- The codes of some samples after those of the history. -/
def codes (h : History) : List Sample → List Field
  | [] => []
  | s :: rest => h.code s ++ (h.push s).codes rest

end History

/-- The codes of a whole stream. -/
def streamCode : List Sample → List Field
  | [] => []
  | s :: rest => History.firstCode s ++ (History.start s).codes rest

namespace Encoder

theorem encode_holds {e : Encoder} {bits : List Bool} (h : e.writer.Holds bits) (s : Sample) :
    (e.encode s).writer.Holds (bits ++ bitsOfCode (e.codeOf s)) :=
  BitWriter.writeCode_holds h _

theorem foldl_encode_holds {e : Encoder} {bits : List Bool} (hcount : e.count ≠ 0)
    (h : e.writer.Holds bits) (samples : List Sample) :
    (samples.foldl encode e).writer.Holds (bits ++ bitsOfCode (e.history.codes samples)) := by
  induction samples generalizing e bits with
  | nil => simpa [History.codes] using h
  | cons s samples ih =>
    have hcode : e.codeOf s = e.history.code s := if_neg hcount
    have hhistory : (e.encode s).history = e.history.push s := if_neg hcount
    have hrest := ih (Nat.succ_ne_zero e.count) (encode_holds h s)
    rw [hcode, hhistory, List.append_assoc, ← bitsOfCode_append] at hrest
    exact hrest

/-- An encoder has written the codes of its samples and nothing else. -/
theorem ofSamples_holds (samples : List Sample) (capacity : Nat) :
    (ofSamples samples capacity).writer.Holds (bitsOfCode (streamCode samples)) := by
  cases samples with
  | nil => exact BitWriter.ofCapacity_holds capacity
  | cons s samples =>
    have hempty : (ofCapacity capacity).writer.Holds [] := BitWriter.ofCapacity_holds capacity
    have hcode : (ofCapacity capacity).codeOf s = History.firstCode s := if_pos rfl
    have hhistory : ((ofCapacity capacity).encode s).history = History.start s := by
      simp [encode, ofCapacity]
    have hrest := foldl_encode_holds (Nat.succ_ne_zero _) (encode_holds hempty s) samples
    rw [hcode, hhistory, List.nil_append, ← bitsOfCode_append] at hrest
    unfold ofSamples
    rw [List.foldl_cons, streamCode]
    exact hrest

theorem count_foldl_encode (samples : List Sample) (e : Encoder) :
    (samples.foldl encode e).count = e.count + samples.length := by
  induction samples generalizing e with
  | nil => rfl
  | cons s samples ih =>
    rw [List.foldl_cons, ih, List.length_cons]
    simp only [encode]
    omega

@[simp] theorem count_ofSamples (samples : List Sample) (capacity : Nat) :
    (ofSamples samples capacity).count = samples.length := by
  unfold ofSamples
  rw [count_foldl_encode]
  simp [ofCapacity]

end Encoder

namespace Decoder

/-- Successive reads give these samples and leave the decoder in the last state. -/
def Yields (d : Decoder) : List Sample → Decoder → Prop
  | [], d' => d = d'
  | s :: rest, d' => ∃ next, decodeNext d = .ok (some s) next ∧ next.Yields rest d'

/-- The first sample of a stream is read as a whole. -/
theorem decodeNext_first {d : Decoder} {s : Sample} {rest : List Bool} (hmore : 0 < d.count)
    (hstart : d.decoded = 0) (hnew : d.history = {})
    (h : d.reader.ahead = bitsOfCode (History.firstCode s) ++ rest) :
    decodeNext d = .ok (some s)
      { d.skip (bitsOfCode (History.firstCode s)).length with
        decoded := 1
        history := History.start s } := by
  rw [decodeNext_of_lt (hstart ▸ hmore), nextSample, if_pos hstart,
    map_of_ok some (first_of_ahead h), hnew]
  rfl

/-- A sample behind the first one is read by what is remembered of those before it. -/
theorem decodeNext_later {d : Decoder} {s : Sample} {rest : List Bool}
    (hmore : d.decoded < d.count) (hstarted : d.decoded ≠ 0) (hw : d.history.window.Proper)
    (h : d.reader.ahead = bitsOfCode (d.history.code s) ++ rest) :
    decodeNext d = .ok (some s)
      { d.skip (bitsOfCode (d.history.code s)).length with
        decoded := d.decoded + 1
        history := d.history.push s } := by
  rw [decodeNext_of_lt hmore, nextSample, if_neg hstarted, map_of_ok some (later_of_ahead hw h)]

/-- Behind the first sample of a stream the decoder follows the encoder. -/
theorem yields_codes {d : Decoder} {samples : List Sample} {rest : List Bool} (n : Nat)
    (hn : n ≤ samples.length) (hstarted : d.decoded ≠ 0) (hcount : d.count = d.decoded + n)
    (hw : d.history.window.Proper)
    (h : d.reader.ahead = bitsOfCode (d.history.codes samples) ++ rest) :
    ∃ d', d.Yields (samples.take n) d' ∧ d'.decoded = d'.count := by
  induction n generalizing d samples with
  | zero => exact ⟨d, rfl, by omega⟩
  | succ n ih =>
    cases samples with
    | nil => simp at hn
    | cons s samples =>
      unfold History.codes at h
      rw [bitsOfCode_append, List.append_assoc] at h
      have hnext := decodeNext_later (by omega) hstarted hw h
      obtain ⟨d', hyields, hdone⟩ := ih (d := { d.skip
          (bitsOfCode (d.history.code s)).length with
            decoded := d.decoded + 1
            history := d.history.push s })
        (by simpa using hn) (Nat.succ_ne_zero _) (by simp; omega)
        (History.push_proper hw s)
        (show _ = bitsOfCode (((d.history).push s).codes samples) ++ rest by simp [h])
      exact ⟨d', ⟨_, hnext, hyields⟩, hdone⟩

/-- A decoder at the start of a stream gives the first samples of it. -/
theorem yields_streamCode {data : Array UInt8} {samples : List Sample} {rest : List Bool}
    (n : Nat) (hn : n ≤ samples.length)
    (h : bitsOfBytes data.toList = bitsOfCode (streamCode samples) ++ rest) :
    ∃ d', (ofBytes data n).Yields (samples.take n) d' ∧ d'.decoded = d'.count := by
  cases n with
  | zero => exact ⟨_, rfl, rfl⟩
  | succ n =>
    cases samples with
    | nil => simp at hn
    | cons s samples =>
      unfold streamCode at h
      rw [bitsOfCode_append, List.append_assoc] at h
      have hahead : (ofBytes data (n + 1)).reader.ahead = bitsOfCode (History.firstCode s) ++
          (bitsOfCode ((History.start s).codes samples) ++ rest) := by
        rw [← h]
        rfl
      have hnext := decodeNext_first (Nat.succ_pos n) rfl rfl hahead
      obtain ⟨d', hyields, hdone⟩ := yields_codes n
        (d := { (ofBytes data (n + 1)).skip (bitsOfCode (History.firstCode s)).length with
            decoded := 1
            history := History.start s })
        (by simpa using hn) Nat.one_ne_zero (by simp [ofBytes, Nat.add_comm])
        (History.start_proper s)
        (show _ = bitsOfCode ((History.start s).codes samples) ++ rest by simp [hahead])
      exact ⟨d', ⟨_, hnext, hyields⟩, hdone⟩

/-- What the next calls give. -/
def outputs : Nat → Decoder → List (Except StoreError (Option Sample))
  | 0, _ => []
  | n + 1, d =>
    match next d with
    | .ok s d => .ok s :: outputs n d
    | .error e d => .error e :: outputs n d

theorem outputs_of_done {d : Decoder} (h : d.decoded = d.count) (n : Nat) :
    d.outputs n = List.replicate n (.ok none) := by
  induction n with
  | zero => rfl
  | succ n ih =>
    unfold outputs
    simp only [next_of_ok (decodeNext_of_le (Nat.le_of_eq h.symm)), ih, List.replicate_succ]

theorem outputs_of_yields {d d' : Decoder} {samples : List Sample} (h : d.Yields samples d')
    (n : Nat) :
    d.outputs (samples.length + n) = samples.map (fun s => .ok (some s)) ++ d'.outputs n := by
  induction samples generalizing d with
  | nil =>
    subst h
    simp
  | cons s samples ih =>
    obtain ⟨d₁, hnext, hrest⟩ := h
    rw [List.length_cons, Nat.add_right_comm, outputs, next_of_ok hnext]
    simp only [ih hrest, List.map_cons, List.cons_append]

theorem decodeOnto_of_yields {d d' : Decoder} {samples : List Sample} (acc : List Sample)
    (h : d.Yields samples d') :
    decodeOnto acc samples.length d = .ok (samples.reverse ++ acc) d' := by
  induction samples generalizing d acc with
  | nil =>
    subst h
    rfl
  | cons s samples ih =>
    obtain ⟨d₁, hnext, hrest⟩ := h
    rw [List.length_cons, decodeOnto, bind_of_ok hnext]
    simp only [ih (s :: acc) hrest, List.reverse_cons, List.append_assoc, List.singleton_append]

theorem decodeRest_of_yields {d d' : Decoder} {samples : List Sample}
    (hlen : d.count - d.decoded = samples.length) (h : d.Yields samples d') :
    decodeRest d = .ok samples d' := by
  unfold decodeRest
  rw [bind_of_ok (get_apply d), hlen, bind_of_ok (decodeOnto_of_yields [] h)]
  simp

end Decoder

/-- The bytes of a stream begin with the codes of its samples, whatever bytes are
put behind them. -/
theorem bitsOfBytes_ofSamples (samples : List Sample) (capacity : Nat) (extra : Array UInt8) :
    ∃ rest, bitsOfBytes ((Encoder.ofSamples samples capacity).bytes ++ extra).toList =
      bitsOfCode (streamCode samples) ++ rest := by
  have hbits := (Encoder.ofSamples_holds samples capacity).spelled
  rw [Array.toList_append, bitsOfBytes_append, Encoder.bytes, hbits, List.append_assoc]
  exact ⟨_, rfl⟩

/-- The samples of a stream are those it was made of. -/
theorem samples_ofSamples (samples : List Sample) (capacity : Nat) :
    (Encoder.ofSamples samples capacity).samples = .ok samples := by
  obtain ⟨rest, hbits⟩ := bitsOfBytes_ofSamples samples capacity #[]
  rw [Array.append_empty] at hbits
  obtain ⟨d', hyields, -⟩ := Decoder.yields_streamCode samples.length (Nat.le_refl _) hbits
  rw [List.take_length] at hyields
  unfold Encoder.samples
  rw [Encoder.count_ofSamples, Decoder.decodeRest_of_yields rfl hyields]

/-- Decoding undoes encoding. From the bytes of a stream and any bytes behind
them, a decoder that is told to expect `k` samples gives the first `k` samples of
the stream, bit for bit, and then ends without a failure, however often it is
asked; reading all samples at once gives the same, and does so with the room that
it asks for, if one block of memory can hold them, as it does where the samples
that were written lie in one; and a stream as a whole is read back from a buffer
of any capacity. A capacity is a hint that no step reads; a buffer beyond
`blockLimit` cannot be asked for. -/
theorem outputs_ofSamples (samples : List Sample) (capacity : Nat) (extra : Array UInt8)
    {k : Nat} (hk : k ≤ samples.length) :
    (∀ n, (Decoder.ofBytes ((Encoder.ofSamples samples capacity).bytes ++ extra) k).outputs
        (k + n) =
      (samples.take k).map (fun s => .ok (some s)) ++ List.replicate n (.ok none)) ∧
    (∃ d, Decoder.decodeRest
        (Decoder.ofBytes ((Encoder.ofSamples samples capacity).bytes ++ extra) k) =
          .ok (samples.take k) d ∧
      (Sample.sizeBytes * k ≤ blockLimit →
        Decoder.decodeAll
            (Decoder.ofBytes ((Encoder.ofSamples samples capacity).bytes ++ extra) k) =
          .ok (samples.take k) d)) ∧
    (Encoder.ofSamples samples capacity).samples = .ok samples := by
  obtain ⟨rest, hbits⟩ := bitsOfBytes_ofSamples samples capacity extra
  obtain ⟨d', hyields, hdone⟩ := Decoder.yields_streamCode k hk hbits
  have hlen : (samples.take k).length = k := List.length_take_of_le hk
  have hrest : Decoder.decodeRest (.ofBytes _ k) = .ok (samples.take k) d' :=
    Decoder.decodeRest_of_yields hlen.symm hyields
  refine ⟨fun n => ?_, ⟨d', hrest, fun hroom => ?_⟩, samples_ofSamples samples capacity⟩
  · have hout := Decoder.outputs_of_yields hyields n
    rwa [hlen, Decoder.outputs_of_done hdone] at hout
  · rw [Decoder.decodeAll_of_room (d := .ofBytes _ k) hroom]
    exact adaptExcept_of_ok _ hrest

/-- The first of two samples whose timestamps descend, read before a byte that
belongs to no stream, and both of them, read at once and from the stream. -/
theorem outputs_descending :
    let samples : List Sample := [⟨5, ⟨1⟩⟩, ⟨3, ⟨0x7ff8000000000001⟩⟩]
    let e := Encoder.ofSamples samples 0
    1 ≤ samples.length ∧
      (Decoder.ofBytes (e.bytes ++ #[255]) 1).outputs 2 = [.ok (some ⟨5, ⟨1⟩⟩), .ok none] ∧
      2 ≤ samples.length ∧ Sample.sizeBytes * 2 ≤ blockLimit ∧
      (∃ d, Decoder.decodeAll (Decoder.ofBytes (e.bytes ++ #[255]) 2) = .ok samples d) ∧
      e.samples = .ok samples := by
  intro samples e
  obtain ⟨hone, -, -⟩ := outputs_ofSamples samples 0 #[255] (k := 1) (by decide)
  obtain ⟨-, ⟨d, -, hall⟩, hwhole⟩ := outputs_ofSamples samples 0 #[255] (k := 2) (by decide)
  exact ⟨by decide, hone 1, by decide, by decide, ⟨d, hall (by decide)⟩, hwhole⟩

end Gorilla

end SeriesStore
