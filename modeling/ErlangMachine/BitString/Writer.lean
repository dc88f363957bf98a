import ErlangMachine.BitString.Basic

/-!
# Writing bits

A `Writer` is a growing buffer. A bit is written by setting it in the last byte, so bits that
already stand there beyond the written ones stay set. Where the bits written so far fill their
bytes, whole bytes are added at once.
-/

namespace ErlangMachine.BitString

/-- A buffer to which bits are added at the end. -/
structure Writer where
  /-- The buffer. -/
  bytes : Array UInt8
  /-- The number of bits written. -/
  size : Nat
  deriving Inhabited

namespace Writer

/-- Nothing written. -/
def empty : Writer := ⟨#[], 0⟩

/-- Writes one bit, with a fresh byte when the last one is full. -/
def push (w : Writer) (b : Bool) : Writer :=
  let bytes := if w.size % 8 = 0 then w.bytes.push 0 else w.bytes
  let mask : UInt8 := if b then UInt8.ofNat (1 <<< (7 - w.size % 8)) else 0
  ⟨bytes.modify (bytes.size - 1) (· ||| mask), w.size + 1⟩

/-- Writes bits in order. -/
def pushBits (w : Writer) (bits : List Bool) : Writer := bits.foldl push w

/-- Writes the low `n` bits of a word, most significant first, if a word has so many. -/
def pushWord (w : Writer) (v : UInt64) (n : Nat) : Writer :=
  if w.size % 8 = 0 ∧ n % 8 = 0 then
    let bytes := (List.range (n / 8)).reverse.map fun i => (v >>> UInt64.ofNat (8 * i)).toUInt8
    ⟨w.bytes ++ bytes.toArray, w.size + n⟩
  else w.pushBits ((List.range n).reverse.map fun i => (v >>> UInt64.ofNat i) &&& 1 != 0)

/-- Writes the low `n` bits of a number, as a word. -/
def pushNumber (w : Writer) (v n : Nat) : Writer := w.pushWord (UInt64.ofNat v) n

/-- Writes whole bytes. -/
def pushBytes (w : Writer) (bytes : List UInt8) : Writer :=
  if w.size % 8 = 0 then ⟨w.bytes ++ bytes.toArray, w.size + 8 * bytes.length⟩
  else bytes.foldl (fun w byte => w.pushNumber byte.toNat 8) w

/-- Writes the bits of a bit string, byte by byte if it begins and ends between bytes of its
buffer. -/
def pushBitString (w : Writer) (b : BitString) : Writer :=
  match b.alignedBytes? with
  | some bytes => w.pushBytes bytes
  | none => w.pushBits b.toList

/-- What has been written. -/
def toBitString (w : Writer) : BitString := .ofBits w.bytes w.size

/-- A writer that goes on where a bit string ends, in that bit string's own buffer. The buffer must
begin with the bit string and is cut after the byte that holds its last bit. -/
def extend (b : BitString) : Writer := ⟨b.bytes.extract 0 ((b.size + 7) / 8), b.size⟩

/-- A writer that starts with a copy of a bit string. -/
def copy (b : BitString) : Writer := empty.pushBitString b

end Writer

/-- The bits packed into bytes, the last one filled up with clear bits. Whole bytes of the buffer
are taken as they are. -/
def toBytes (b : BitString) : List UInt8 :=
  match b.alignedBytes? with
  | some bytes => bytes
  | none => (Writer.copy b).bytes.toList

end ErlangMachine.BitString
