import SeriesStore.Bits.Reader
import SeriesStore.Gorilla.Encoder

/-!
# Decoding samples

A `Decoder` reads up to `count` samples from a string of bytes. The bytes may be
anything: where they are no code, or end inside one, decoding fails. A failure
leaves the decoder where the stream stood, with everything it had learnt of the
sample so far. The count may be anything too. Reading all samples at once trusts
it for the room that they will take.
-/

namespace SeriesStore.Gorilla

/-- A position in a stream of coded samples. -/
structure Decoder where
  reader : BitReader
  count : Nat
  decoded : Nat := 0
  history : History := {}
  deriving DecidableEq, Inhabited

/-- A step of a decoder; its state is kept when it fails. -/
abbrev Decoding := EStateM StoreError Decoder

namespace Decoder

/-- A decoder at the start of a stream that is said to hold `count` samples. -/
def ofBytes (data : Array UInt8) (count : Nat) : Decoder := { reader := { data }, count }

/-- Reads one bit. -/
def bit : Decoding Bool := fun d =>
  match d.reader.readBit with
  | none => .error .unexpectedEnd d
  | some (b, reader) => .ok b { d with reader }

/-- Reads a word of `width` bits. -/
def word (width : Nat) : Decoding UInt64 := fun d =>
  match d.reader.readBits width with
  | (none, reader) => .error .unexpectedEnd { d with reader }
  | (some w, reader) => .ok w { d with reader }

/-- Reads a change of the timestamp step that is not zero, whose class is one of
those given. -/
def changeIn : List DeltaClass → Decoding UInt64
  | [] => word 64
  | c :: cs => do
    if ← bit then changeIn cs
    else return (← word c.width) - c.bias

/-- Reads a change of the timestamp step. -/
def change : Decoding UInt64 := do
  if ← bit then changeIn DeltaClass.all else return 0

/-- Reads a timestamp, which then is the last one. -/
def timestamp : Decoding Timestamp := do
  let change ← change
  modifyGet fun d =>
    let step := d.history.step + change
    let timestamp := d.history.timestamp + step
    (timestamp, { d with history := { d.history with timestamp, step } })

/-- Reads the bounds of a window, which then is the last one. -/
def window : Decoding Window := do
  let leading ← word 5
  let width ← word 6
  match Window.ofBounds leading.toNat width.toNat with
  | .error e => throw e
  | .ok window => modifyGet fun d => (window, { d with history := { d.history with window } })

/-- Reads a value, which then is the last one. -/
def value : Decoding Value := do
  if ← bit then
    let window ← (do if ← bit then window else return (← get).history.window)
    let difference := window.place (← word window.width)
    modifyGet fun d =>
      let value := ⟨d.history.value.bits ^^^ difference⟩
      (value, { d with history := { d.history with value } })
  else return (← get).history.value

/-- Reads the first sample, which is remembered only as a whole. -/
def first : Decoding Sample := do
  let timestamp ← word 64
  let bits ← word 64
  let sample := ⟨timestamp, ⟨bits⟩⟩
  modifyGet fun d =>
    (sample, { d with
      decoded := 1
      history := { d.history with timestamp, value := ⟨bits⟩ } })

/-- Reads a sample after the first. -/
def later : Decoding Sample := do
  let timestamp ← timestamp
  let value ← value
  modifyGet fun d => (⟨timestamp, value⟩, { d with decoded := d.decoded + 1 })

/-- Reads the next sample, if the stream is said to hold one more. After a
failure the next call goes on where the stream stands. -/
def decodeNext : Decoding (Option Sample) := do
  let d ← get
  if d.decoded ≥ d.count then return none
  else if d.decoded = 0 then some <$> first
  else some <$> later

/-- Reads the next sample; a failure is the end of the stream. -/
def next : Decoding (Option Sample) := fun d =>
  match decodeNext d with
  | .error e d => .error e { d with decoded := d.count }
  | result => result

/-- Reads at most `limit` samples and puts them, latest first, before `acc`. -/
def decodeOnto (acc : List Sample) : Nat → Decoding (List Sample)
  | 0 => return acc
  | limit + 1 => do
    match ← decodeNext with
    | none => return acc
    | some s => decodeOnto (s :: acc) limit

/-- Reads all samples that are left, into room that is there. -/
def decodeRest : Decoding (List Sample) := do
  let d ← get
  return (← decodeOnto [] (d.count - d.decoded)).reverse

/-- Why a call gives no samples. -/
inductive Failure
  | error (e : StoreError)
  -- More room is asked for than one block of memory can have. The program stops.
  | overflow
  deriving DecidableEq

/-- Reads all samples that are left. Room for all of them is asked for before
the first one is read. -/
def decodeAll : EStateM Failure Decoder (List Sample) := do
  let d ← get
  if blockLimit < Sample.sizeBytes * (d.count - d.decoded) then throw .overflow
  else decodeRest.adaptExcept .error

end Decoder

/-- The samples of a stream. Their room is taken as given: one block of memory
holds them where it held the samples that were written, and samples beyond that
are the samples of more than `2 ^ 57` bytes. -/
def Encoder.samples (e : Encoder) : Except StoreError (List Sample) :=
  match Decoder.decodeRest (.ofBytes e.bytes e.count) with
  | .ok samples _ => .ok samples
  | .error e _ => .error e

end SeriesStore.Gorilla
