import ErlangMachine.BitString.Segment

/-!
# Bit strings

A `BitString` is a window onto a buffer of bytes. It may begin and end inside a byte, so cutting a
piece out of one copies nothing. Bits count from the most significant bit of the first byte. What a
bit string is, is its list of bits, `toList`; the buffer around the window does not show until the
bit string is extended in place, which takes knowing who else uses the buffer. So a buffer has a
number, which the pieces cut out of it share.
-/

namespace ErlangMachine

/-- A window of `size` bits onto a byte buffer. -/
structure BitString where
  /-- The buffer. -/
  bytes : Array UInt8
  /-- The position of the first bit in the buffer. -/
  start : Nat
  /-- The number of bits. -/
  size : Nat
  /-- The number of the buffer. A buffer without one is always in use elsewhere. -/
  buffer : Option Nat := none
  /-- The window lies inside the buffer. -/
  fits : start + size ≤ 8 * bytes.size

namespace BitString

/-- Bit `i` of a byte buffer; beyond its end all bits are clear. -/
def bufferBit (bytes : Array UInt8) (i : Nat) : Bool :=
  (bytes.getD (i / 8) 0).toNat.testBit (7 - i % 8)

/-- All bits of some bytes. -/
def ofBytes (bytes : Array UInt8) : BitString where
  bytes
  start := 0
  size := 8 * bytes.size
  fits := by omega

/-- The first `n` bits of some bytes, or all of them if there are fewer. -/
def ofBits (bytes : Array UInt8) (n : Nat) : BitString where
  bytes
  start := 0
  size := min n (8 * bytes.size)
  fits := by omega

/-- No bits. -/
def empty : BitString := ofBytes #[]

instance : Inhabited BitString := ⟨empty⟩

/-- The same bits in a buffer with a given number. -/
def inBuffer (b : BitString) (n : Nat) : BitString := { b with buffer := some n }

/-- Bit `i` of the window. -/
def bit (b : BitString) (i : Nat) : Bool := bufferBit b.bytes (b.start + i)

/-- The bits, in order. -/
def toList (b : BitString) : List Bool := (List.range b.size).map b.bit

/-- The `n` bits from position `i` on, cut off at the end of the window. -/
def slice (b : BitString) (i n : Nat) : BitString where
  bytes := b.bytes
  start := b.start + min i b.size
  size := min n (b.size - i)
  buffer := b.buffer
  fits := by have := b.fits; omega

/-- The number of whole bytes. -/
def byteSize (b : BitString) : Nat := b.size / 8

/-- Whether the bits make whole bytes. -/
def isBinary (b : BitString) : Bool := b.size % 8 = 0

/-- The `n` bits from position `i` on as a big endian number, if a word holds it. Where they are
whole bytes of the buffer they are taken byte by byte. -/
def read (b : BitString) (i n : Nat) : UInt64 :=
  let first := b.start + i
  if first % 8 = 0 ∧ n % 8 = 0 then
    (b.bytes.extract (first / 8) ((first + n) / 8)).foldl
      (fun v byte => v <<< 8 ||| byte.toUInt64) 0
  else (List.range n).foldl (fun v j => v <<< 1 ||| (b.bit (i + j)).toUInt64) 0

/-- The bytes of the window, if it begins and ends between bytes of its buffer. -/
def alignedBytes? (b : BitString) : Option (List UInt8) :=
  if b.start % 8 = 0 ∧ b.size % 8 = 0 then
    some (b.bytes.extract (b.start / 8) ((b.start + b.size) / 8)).toList
  else none

/-- The order of two bit strings, bit by bit: the first bits that differ decide, and if there are
none, the shorter one comes first. -/
def compareBits (a b : BitString) : Ordering :=
  let difference := (List.range (min a.size b.size)).findSome? fun i =>
    let order := compare (a.bit i) (b.bit i)
    if order = .eq then none else some order
  difference.getD (compare a.size b.size)

/-- The order of two bit strings. Where both are whole bytes of their buffers they are compared byte
by byte. -/
protected def compare (a b : BitString) : Ordering :=
  match a.alignedBytes?, b.alignedBytes? with
  | some as, some bs => compare as bs
  | _, _ => compareBits a b

instance : Ord BitString := ⟨BitString.compare⟩

/-- Bit strings are equal when neither comes before the other. -/
instance : BEq BitString := ⟨fun a b => compare a b == .eq⟩

end BitString

end ErlangMachine
