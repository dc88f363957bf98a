import ErlangMachine.Binary64.Rounding
import ErlangMachine.BitString.Basic
import ErlangMachine.BitString.Unicode

/-!
# Matching bit strings

A `Cursor` walks over a bit string. Most operations decide whether they fail before they move the
cursor, and give their result together with the moved cursor or nothing. Reading a float or a
character moves the cursor over the units first and takes it back if they turn out to be wrong; such
an operation gives a cursor in any case (`takeFloat`, `takeUtf16`, `takeUtf32`). Numbered slots
remember positions; slot `-1` is the position where matching began.
-/

namespace ErlangMachine.BitString

/-- A position in a bit string that is being matched, with positions to come back to. -/
structure Cursor where
  /-- The bit string under the cursor. -/
  subject : BitString
  /-- The position of the next bit. -/
  offset : Nat
  /-- The position where matching began. -/
  origin : Nat
  /-- The remembered positions. -/
  saved : List Nat
  deriving Inhabited

namespace Cursor

/-- A cursor at the beginning, with `slots` slots. -/
def ofBitString (b : BitString) (slots : Nat) : Cursor := ⟨b, 0, 0, List.replicate slots 0⟩

/-- Matching begun anew at the present position, with fresh slots. -/
def restart (c : Cursor) (slots : Nat) : Cursor :=
  ⟨c.subject, c.offset, c.offset, List.replicate slots c.offset⟩

/-- The number of bits ahead. -/
def remaining (c : Cursor) : Nat := c.subject.size - c.offset

/-- The cursor `n` bits further on. -/
def advance (c : Cursor) (n : Nat) : Cursor := { c with offset := c.offset + n }

/-- The cursor at another position. -/
def moveTo (c : Cursor) (offset : Nat) : Cursor := { c with offset }

/-- A result that was decided on before the cursor moved: without one the cursor stays. -/
def orStay {α : Type} (c : Cursor) : Option (α × Cursor) → Option α × Cursor
  | some (a, next) => (some a, next)
  | none => (none, c)

/-- A result together with the cursor after it. -/
def settle {α : Type} : Option α × Cursor → Option (α × Cursor)
  | (some a, next) => some (a, next)
  | (none, _) => none

/-- The next `n` bits. -/
def peek (c : Cursor) (n : Nat) : BitString := c.subject.slice c.offset n

/-- The next `n` bits put together bit by bit, each according to its significance. Bits beyond a
word must all be clear, or equal to the highest bit of the word if the integer has a sign. -/
def gather? (c : Cursor) (n : Nat) (e : Encoding) : Option UInt64 :=
  let fill := e.signed && c.subject.bit (c.offset + positionOf 63 n e.little)
  (List.range n).foldlM (fun v s =>
    let bit := c.subject.bit (c.offset + s)
    let i := significance s n e.little
    if i < 64 then some (v ||| bit.toUInt64 <<< UInt64.ofNat i)
    else if bit = fill then some v
    else none) 0

/-- The next `n` bits as a word. Big endian bits that fit a word are read at once. -/
def word? (c : Cursor) (n : Nat) (e : Encoding) : Option UInt64 :=
  if e.little = false ∧ n ≤ 64 then some (c.subject.read c.offset n) else c.gather? n e

/-- The integer that a word of `n` bits denotes. A short one with a sign is extended; a full one
without a sign must leave the highest bit of the word clear. -/
def interpret? (n : Nat) (signed : Bool) (w : UInt64) : Option Int64 :=
  if signed then
    if 0 < n ∧ n < 64 ∧ (w >>> UInt64.ofNat (n - 1)) &&& 1 = 1 then
      some (w ||| (~~~0 <<< UInt64.ofNat n)).toInt64
    else some w.toInt64
  else if 64 ≤ n ∧ w.toInt64 < 0 then none
  else some w.toInt64

/-- Reads an integer of `n` bits. It must fit the integers of the machine. -/
def integer? (c : Cursor) (n : Nat) (e : Encoding) : Option (Int64 × Cursor) :=
  if c.remaining < n then none
  else ((c.word? n e).bind (interpret? n e.signed)).map (·, c.advance n)

/-- Reads an integer and leaves the cursor behind it. -/
def takeInteger (c : Cursor) (n : Nat) (e : Encoding) : Option Int64 × Cursor :=
  c.orStay (c.integer? n e)

/-- Reads a float and leaves the cursor behind it. Its bits are taken as an integer without a sign,
and it must be finite; otherwise the cursor goes back. -/
def takeFloat (c : Cursor) (n : Nat) (e : Encoding) : Option Binary64 × Cursor :=
  if n = 32 ∨ n = 64 then
    match c.takeInteger n e.unsigned with
    | (some raw, next) =>
      let value :=
        if n = 32 then Binary64.ofSingleBits raw.toInt.toNat else ⟨UInt64.ofNat raw.toInt.toNat⟩
      if value.isFinite then (some value, next) else (none, next.moveTo c.offset)
    | (none, next) => (none, next)
  else (none, c)

/-- Reads a float. -/
def float? (c : Cursor) (n : Nat) (e : Encoding) : Option (Binary64 × Cursor) :=
  settle (c.takeFloat n e)

/-- The size of a segment of `n` bits, or of all that remains if that is a multiple of the unit. -/
def segment? (c : Cursor) (n : Option Nat) (unit : Nat) : Option Nat :=
  match n with
  | some n => if n ≤ c.remaining then some n else none
  | none => if unit ≤ 1 ∨ c.remaining % unit = 0 then some c.remaining else none

/-- Takes a segment as a bit string. -/
def bitString? (c : Cursor) (n : Option Nat) (unit : Nat) : Option (BitString × Cursor) :=
  (c.segment? n unit).map fun n => (c.peek n, c.advance n)

/-- Passes over a segment. -/
def skip? (c : Cursor) (n : Option Nat) (unit : Nat) : Option Cursor :=
  (c.segment? n unit).map c.advance

/-- Whether exactly `n` bits remain. -/
def testTail (c : Cursor) (n : Nat) : Bool := c.remaining = n

/-- Whether a multiple of the unit remains. -/
def testUnit (c : Cursor) (unit : Nat) : Bool := unit = 0 || c.remaining % unit = 0

/-- Passes over the given bits. -/
def literal? (c : Cursor) (expected : BitString) : Option Cursor :=
  if expected.size ≤ c.remaining ∧ (c.peek expected.size == expected) = true then
    some (c.advance expected.size)
  else none

/-- Byte `i` of those ahead. -/
def byte (c : Cursor) (i : Nat) : UInt8 := (c.subject.read (c.offset + 8 * i) 8).toUInt8

/-- Reads a code point in UTF-8. The first byte tells how many there are. -/
def utf8? (c : Cursor) : Option (Char × Cursor) :=
  if c.remaining < 8 then none
  else
    (Unicode.length8? (c.byte 0)).bind fun length =>
      if c.remaining < 8 * length then none
      else
        (Unicode.decode8? ((List.range length).map c.byte)).map (·, c.advance (8 * length))

/-- Reads the units of a code point in UTF-16 and leaves the cursor behind them. A high surrogate
asks for a second unit; if there is none, the cursor is left behind the first. -/
def takeUnits16 (c : Cursor) (e : Encoding) : Option (List Nat) × Cursor :=
  match c.takeInteger 16 e.unsigned with
  | (some first, next) =>
    if Unicode.isHighSurrogate first.toInt.toNat then
      match next.takeInteger 16 e.unsigned with
      | (some second, last) => (some [first.toInt.toNat, second.toInt.toNat], last)
      | (none, last) => (none, last)
    else (some [first.toInt.toNat], next)
  | (none, next) => (none, next)

/-- Reads a code point in UTF-16 and leaves the cursor behind it. If there are not enough units or
they make no code point, the cursor goes back. -/
def takeUtf16 (c : Cursor) (e : Encoding) : Option Char × Cursor :=
  let (units, last) := c.takeUnits16 e
  match units.bind Unicode.decode16? with
  | some char => (some char, last)
  | none => (none, last.moveTo c.offset)

/-- Reads a code point in UTF-16. -/
def utf16? (c : Cursor) (e : Encoding) : Option (Char × Cursor) := settle (c.takeUtf16 e)

/-- Reads a code point in UTF-32 and leaves the cursor behind it. If the number is none of a code
point, the cursor goes back. -/
def takeUtf32 (c : Cursor) (e : Encoding) : Option Char × Cursor :=
  match c.takeInteger 32 e.unsigned with
  | (some v, next) =>
    match Unicode.scalar? v.toInt with
    | some char => (some char, next)
    | none => (none, next.moveTo c.offset)
  | (none, next) => (none, next)

/-- Reads a code point in UTF-32. -/
def utf32? (c : Cursor) (e : Encoding) : Option (Char × Cursor) := settle (c.takeUtf32 e)

/-- Remembers the present position in a slot that was reserved for it. -/
def save? (c : Cursor) (slot : Int) : Option Cursor :=
  match slot with
  | .negSucc 0 => some { c with origin := c.offset }
  | .negSucc _ => none
  | .ofNat i => if i < c.saved.length then some { c with saved := c.saved.set i c.offset } else none

/-- Goes back to a remembered position. -/
def restore? (c : Cursor) (slot : Int) : Option Cursor :=
  match slot with
  | .negSucc 0 => some { c with offset := c.origin }
  | .negSucc _ => none
  | .ofNat i => c.saved[i]?.map fun offset => { c with offset }

/-- The bits from the first remembered position on, or from where matching began if there are no
slots. -/
def toBitString (c : Cursor) : BitString :=
  let first := c.saved.head?.getD c.origin
  c.subject.slice first (c.subject.size - first)

end Cursor

end ErlangMachine.BitString
