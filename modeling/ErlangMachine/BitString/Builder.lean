import ErlangMachine.Binary64.Rounding
import ErlangMachine.BitString.Unicode
import ErlangMachine.BitString.Writer

/-!
# Building bit strings

A `Builder` collects the segments of a bit string whose size was declared when it was opened. A
value that a segment cannot hold is refused, and a refusal writes nothing.
-/

namespace ErlangMachine.BitString

/-- Whether a buffer belongs to one bit string alone, which may then grow in place. -/
inductive Ownership where
  /-- No other bit string uses the buffer. -/
  | sole
  /-- The buffer may be in use elsewhere. -/
  | shared
  deriving DecidableEq, Repr

/-- A bit string under construction. -/
structure Builder where
  /-- What has been written. -/
  writer : Writer
  /-- The declared size in bits. -/
  target : Nat
  deriving Inhabited

namespace Builder

/-- A builder for `size` bits. -/
def ofSize (size : Nat) : Builder := ⟨.empty, size⟩

/-- A builder that extends a bit string by `extra` bits. A buffer with one owner is used further if
the bit string stands at its beginning; otherwise the bits are copied. -/
def append (existing : BitString) (extra : Nat) (ownership : Ownership) : Builder :=
  let writer :=
    if existing.start = 0 ∧ ownership = .sole then Writer.extend existing else Writer.copy existing
  ⟨writer, existing.size + extra⟩

/-- Whether the declared size has been written. -/
def isComplete (b : Builder) : Bool := b.target ≤ b.writer.size

/-- What has been written. -/
def bitString (b : Builder) : BitString := b.writer.toBitString

/-- Adds bits. -/
def put (b : Builder) (bits : List Bool) : Builder := { b with writer := b.writer.pushBits bits }

/-- Adds the low `n` bits of an integer. Big endian bits that fit a word are written at once. -/
def putInteger (b : Builder) (v : Int) (n : Nat) (e : Encoding) : Builder :=
  if e.little = false ∧ n ≤ 64 then { b with writer := b.writer.pushWord (UInt64.ofInt v) n }
  else b.put (e.ofInt n v)

/-- Adds a float in single or double precision; no other size holds one. -/
def putFloat? (b : Builder) (x : Binary64) (n : Nat) (e : Encoding) : Option Builder :=
  match n with
  | 32 => some (b.putInteger x.toSingleBits 32 e)
  | 64 => some (b.putInteger x.bits.toNat 64 e)
  | _ => none

/-- Adds the first `n` bits of a bit string, or all of it. -/
def putBitString? (b : Builder) (value : BitString) : Option Nat → Option Builder
  | none => some { b with writer := b.writer.pushBitString value }
  | some n =>
    if n ≤ value.size then some { b with writer := b.writer.pushBitString (value.slice 0 n) }
    else none

/-- Adds a code point in UTF-8. -/
def putUtf8? (b : Builder) (v : Int) : Option Builder :=
  (Unicode.scalar? v).map fun c => { b with writer := b.writer.pushBytes (Unicode.encode8 c) }

/-- Adds a code point in UTF-16. -/
def putUtf16? (b : Builder) (v : Int) (e : Encoding) : Option Builder :=
  (Unicode.scalar? v).map fun c =>
    (Unicode.encode16 c).foldl (fun b (unit : Nat) => b.putInteger unit 16 e) b

/-- Adds a code point in UTF-32. -/
def putUtf32? (b : Builder) (v : Int) (e : Encoding) : Option Builder :=
  (Unicode.scalar? v).map fun c => b.putInteger c.toNat 32 e

end Builder

end ErlangMachine.BitString
