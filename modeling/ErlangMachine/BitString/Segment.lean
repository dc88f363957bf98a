/-!
# Segments

A segment is a run of bits that denotes an integer. Its encoding says which bit counts how much and
whether the integer has a sign. `significance` gives the weight of each bit, `Encoding.ofInt` writes
an integer and `Encoding.toInt` reads one.
-/

namespace ErlangMachine

/-- How the bits of a segment denote an integer. -/
structure Encoding where
  /-- Bytes come from the least to the most significant. -/
  little : Bool
  /-- Two's complement. -/
  signed : Bool
  deriving DecidableEq, Repr, Inhabited

namespace Encoding

/-- The flag of little endian segments. -/
def littleFlag : UInt16 := 0x02

/-- The flag of signed segments. -/
def signedFlag : UInt16 := 0x04

/-- The flag of segments in the byte order of the machine, which is little endian. -/
def nativeFlag : UInt16 := 0x10

/-- The encoding that an instruction's flag word selects. -/
def ofFlags (flags : UInt16) : Encoding where
  little := flags &&& littleFlag != 0 || flags &&& nativeFlag != 0
  signed := flags &&& signedFlag != 0

/-- The same bytes, read without a sign. -/
def unsigned (e : Encoding) : Encoding := { e with signed := false }

end Encoding

/-- The significance of the bit at position `s` of an `n` bit segment, position `0` standing first
and significance `0` counting least. Big endian segments start with the most significant bit. Little
endian ones are cut into bytes, least significant byte first, each written from its most significant
bit; the last may be shorter than a byte. -/
def significance (s n : Nat) (little : Bool) : Nat :=
  if little then
    let chunk := s - s % 8
    let length := min 8 (n - chunk)
    chunk + (length - 1 - (s - chunk))
  else n - 1 - s

/-- The position of the bit with significance `i` in an `n` bit segment, found by going through the
positions. -/
def positionOf (i n : Nat) (little : Bool) : Nat :=
  ((List.range n).find? fun s => significance s n little == i).getD 0

namespace Encoding

/-- The bits of the low `n` bits of an integer, in segment order. A negative integer is extended by
ones without end. -/
def ofInt (e : Encoding) (n : Nat) (v : Int) : List Bool :=
  (List.range n).map fun s => (v >>> significance s n e.little) % 2 = 1

/-- The integer that bits denote when every bit counts with its significance. -/
def toNat (e : Encoding) (bits : List Bool) : Nat :=
  (bits.mapIdx fun s b => if b then 1 <<< significance s bits.length e.little else 0).foldl
    (· + ·) 0

/-- The integer that bits denote. -/
def toInt (e : Encoding) (bits : List Bool) : Int :=
  let v := e.toNat bits
  if e.signed && decide (0 < bits.length ∧ 1 <<< (bits.length - 1) ≤ v)
    then v - (1 <<< bits.length : Nat)
  else v

end Encoding

end ErlangMachine
