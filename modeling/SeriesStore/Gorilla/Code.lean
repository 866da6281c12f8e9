import SeriesStore.Bits.Zeros
import SeriesStore.Error

/-!
# The code of a sample

A stream of samples is coded sample by sample. The first sample is written in
full. Of each later one only two differences are written: the change of the
timestamp step, and the exclusive or of the value with the value before it. Small
differences have short codes.

* A change of the step of zero is the bit `0`. Any other change is a `1`,
  followed by its delta class: `0` and a biased field in the first class that
  the change fits, one more `1` for each class that it does not fit, and the
  full word after the last class.
* A difference of zero between values is the bit `0`. Any other difference is
  cut to a window of its bits: `10` and the bits in the window of an earlier
  sample where they all lie in it, and otherwise `11`, the place and width of
  the tightest window, and the bits in that.

All arithmetic on timestamps wraps, so timestamps in any order can be coded.
-/

namespace SeriesStore.Gorilla

/-! ## Windows -/

/-- A window of a word: the bits between `leading` bits at the top and
`trailing` bits at the bottom. -/
structure Window where
  -- The bits above the window.
  leading : Nat := 0
  -- The bits below the window.
  trailing : Nat := 0
  deriving DecidableEq, Inhabited

namespace Window

/-- The most leading bits that a written window can leave out. -/
def maxLeading : Nat := 31

/-- How many bits the window shows. -/
def width (w : Window) : Nat := 64 - w.leading - w.trailing

/-- The tightest window that can be written around the set bits of a word. -/
def tight (word : UInt64) : Window := ⟨min (leadingZeros word) maxLeading, trailingZeros word⟩

/-- The window shows every set bit of a word, as far as its tightest window
tells. -/
def covers (w : Window) (word : UInt64) : Bool :=
  w.leading ≤ (tight word).leading && w.trailing ≤ (tight word).trailing

/-- The bits of a word from the bottom of the window up. -/
def cut (w : Window) (word : UInt64) : UInt64 := word >>> w.trailing.toUInt64

/-- The word whose bits from the bottom of the window up are given. -/
def place (w : Window) (bits : UInt64) : UInt64 := bits <<< w.trailing.toUInt64

/-- The window with these written bounds. A width of zero stands for all 64
bits; a window that ends below the word does not exist. -/
def ofBounds (leading width : Nat) : Except StoreError Window :=
  let width := if width = 0 then 64 else width
  if leading + width > 64 then .error (.invalidWindow leading width)
  else .ok ⟨leading, 64 - leading - width⟩

end Window

/-! ## Delta classes -/

/-- A class of changes of the timestamp step: those that make a field of `width`
bits once `bias` is added. -/
structure DeltaClass where
  width : Nat
  -- What is added to a change to make it a field.
  bias : UInt64
  deriving DecidableEq, Inhabited

namespace DeltaClass

/-- The classes, from the shortest code to the longest. -/
def all : List DeltaClass := [⟨7, 63⟩, ⟨9, 255⟩, ⟨12, 2047⟩]

/-- The change has a field in this class. -/
def fits (c : DeltaClass) (change : UInt64) : Bool := (change + c.bias).toNat < 1 <<< c.width

/-- The code of a change in the first of some classes that it fits. -/
def codeIn : List DeltaClass → UInt64 → List Field
  | [], change => [⟨64, change⟩]
  | c :: cs, change =>
    if c.fits change then [.flag false, ⟨c.width, change + c.bias⟩]
    else .flag true :: codeIn cs change

end DeltaClass

/-! ## Codes -/

/-- The code of a change of the timestamp step. -/
def changeCode (change : UInt64) : List Field :=
  if change = 0 then [.flag false] else .flag true :: DeltaClass.codeIn DeltaClass.all change

/-- The code of a difference between two values, where `w` is the window of an
earlier sample. -/
def differenceCode (w : Window) (difference : UInt64) : List Field :=
  if difference = 0 then [.flag false]
  else if w.covers difference then
    [.flag true, .flag false, ⟨w.width, w.cut difference⟩]
  else
    let tight := Window.tight difference
    [.flag true, .flag true, ⟨5, tight.leading.toUInt64⟩, ⟨6, tight.width.toUInt64⟩,
      ⟨tight.width, tight.cut difference⟩]

/-- The window that is known after a difference has been coded. -/
def windowAfter (w : Window) (difference : UInt64) : Window :=
  if difference = 0 || w.covers difference then w else Window.tight difference

/-! ## History -/

/-- What both ends of a stream remember of the samples before the next one. -/
structure History where
  timestamp : Timestamp := 0
  -- The step from the timestamp before it.
  step : UInt64 := 0
  value : Value := ⟨0⟩
  window : Window := {}
  deriving DecidableEq, Inhabited

namespace History

/-- The code of the first sample of a stream. -/
def firstCode (s : Sample) : List Field := [⟨64, s.timestamp⟩, ⟨64, s.value.bits⟩]

/-- What is remembered after the first sample. -/
def start (s : Sample) : History := { timestamp := s.timestamp, value := s.value }

/-- The code of a sample after those of the history. -/
def code (h : History) (s : Sample) : List Field :=
  changeCode (s.timestamp - h.timestamp - h.step) ++
    differenceCode h.window (s.value.bits ^^^ h.value.bits)

/-- The history with one more sample. -/
def push (h : History) (s : Sample) : History where
  timestamp := s.timestamp
  step := s.timestamp - h.timestamp
  value := s.value
  window := windowAfter h.window (s.value.bits ^^^ h.value.bits)

end History

/-- The longest code of a sample after the first, in bits: four flags and a full
word for the timestamp, two flags, the bounds of a window and a full word for
the value. -/
def maxSampleBits : Nat := 4 + 64 + 2 + 5 + 6 + 64

end SeriesStore.Gorilla
