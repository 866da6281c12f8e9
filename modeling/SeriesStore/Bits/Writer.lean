import SeriesStore.Bits.Field

/-!
# Writing bits

A `BitWriter` packs bits into bytes, the most significant bit of a byte first.
The last byte may be filled in part, its other bits are zero; so the bytes can be
read at any time without closing the writer.
-/

namespace SeriesStore

/-- The length in bytes of the longest block of memory that can be asked for: `2 ^ 63 - 1`. -/
def blockLimit : Nat := 0x7fffffffffffffff

/-- Bits packed into bytes, and the buffer they are kept in. -/
structure BitWriter where
  -- The bytes written so far, the last one possibly in part.
  bytes : Array UInt8 := #[]
  bitLength : Nat := 0
  -- How many bytes the buffer has room for.
  capacity : Nat := 0
  deriving DecidableEq, Inhabited

namespace BitWriter

/-- The room of a buffer once it has to grow: twice as much, and at least eight
bytes. -/
def grow (capacity : Nat) : Nat := max (2 * capacity) 8

/-- An empty writer whose buffer has room for `capacity` bytes. The buffer is one
block of memory, so there are such writers up to `blockLimit`. -/
def ofCapacity (capacity : Nat) : BitWriter := ⟨#[], 0, capacity⟩

/-- Nothing has been written. -/
def isEmpty (w : BitWriter) : Bool := w.bitLength == 0

/-- How many bytes are in use. -/
def size (w : BitWriter) : Nat := w.bytes.size

/-- The byte whose only set bit is the one `offset` places below the top. -/
def mask (offset : Nat) : UInt8 := 1 <<< (7 - offset).toUInt8

/-- Appends one bit. A bit at a byte boundary opens a new byte, which grows a
full buffer. -/
def writeBit (w : BitWriter) (bit : Bool) : BitWriter :=
  let ⟨bytes, bitLength, capacity⟩ := w
  let offset := bitLength % 8
  let byte := if bit then mask offset else 0
  if offset = 0 then
    ⟨bytes.push byte, bitLength + 1, if bytes.size = capacity then grow capacity else capacity⟩
  else
    ⟨bytes.modify (bytes.size - 1) (· ||| byte), bitLength + 1, capacity⟩

/-- Appends the low `width` bits of a word, most significant first. -/
def writeBits (w : BitWriter) (word : UInt64) : Nat → BitWriter
  | 0 => w
  | width + 1 => (w.writeBit (bitAt word width)).writeBits word width

/-- Appends the fields of a code. -/
def writeCode (w : BitWriter) (code : List Field) : BitWriter :=
  code.foldl (fun w f => w.writeBits f.value f.width) w

end BitWriter

end SeriesStore
