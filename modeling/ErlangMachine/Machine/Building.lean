import ErlangMachine.Machine.Matching

/-!
# Building bit strings

An activation builds one bit string at a time: a command opens it, others add segments, and it goes
to its place as soon as the declared size has been written. A bit string that is extended grows in
place if nothing else refers to its buffer.
-/

namespace ErlangMachine.Machine

open BitString (Builder Ownership)

/-- Who uses the buffer of a bit string, besides that bit string itself, which is in no place of the
state. -/
def State.ownership (s : State) (callers : List Caller) (b : BitString) : Ownership :=
  match b.buffer with
  | some n => if (s.terms callers).any (·.uses n) then .shared else .sole
  | none => .shared

namespace Exec

/-- Writes a bit string to a place, in a buffer of its own. -/
def writeBits (dest : Place) (b : BitString) : Exec Unit := do
  let n := (← get).world.nextBuffer
  modifyWorld fun w => { w with nextBuffer := n + 1 }
  write dest (.bits (b.inBuffer n))

/-- The bit string under construction, and where it goes. -/
def builder (operation : String) : Exec (Builder × Place) := do
  match (← frame).bits with
  | some b => return b
  | none => abort (.noBinary operation)

/-- Goes on with a builder: if it is complete, its bit string goes to its place. -/
def publish (b : Builder) (dest : Place) : Exec Flow := do
  if b.isComplete then
    modifyFrame fun f => { f with bits := none }
    writeBits dest b.bitString
  else
    modifyFrame fun f => { f with bits := some (b, dest) }
  return .next

/-- Begins to build. -/
def openBuilder (b : Builder) (dest : Place) : Exec Flow := do
  writeBits dest b.bitString
  publish b dest

/-- Goes on with what a builder has become, or at the fail label. -/
def extend (dest : Place) (label : Option Nat) : Option Builder → Exec Flow
  | some b => publish b dest
  | none => fail label

end Exec

/-- Writes a segment. -/
def writeSegment? (type : SegmentType) (b : Builder) (size : SegmentSize) (value : Term)
    (encoding : Encoding) : Option Builder :=
  match type, size, value with
  | .integer, .bits n, .integer i => some (b.putInteger i.toInt n encoding)
  | .float, .bits n, value => value.number?.bind fun x => b.putFloat? x n encoding
  | .bits, size, .bits v => b.putBitString? v size.bits?
  | _, _, _ => none

/-- Writes a character. -/
def writeUtf? (form : Utf) (b : Builder) (v : Int) (encoding : Encoding) : Option Builder :=
  match form with
  | .utf8 => b.putUtf8? v
  | .utf16 => b.putUtf16? v encoding
  | .utf32 => b.putUtf32? v encoding

/-- One size plus another in some unit, if both are sizes and the sum fits the machine. -/
def addSizes? (a b : Term) (unit : Nat) : Option Term := do
  let a ← a.size?
  let b ← b.size?
  let sum := a + b * unit
  if sum < 1 <<< 63 then some (.integer (.ofNat sum)) else none

namespace BuildCommand

open Exec

/-- What a building command does. -/
def run (code : LoadedModule) (callers : List Caller) : BuildCommand → Exec Flow
  | init unit dest label => do
    match SegmentSize.of? (← takeFirst) unit with
    | some (.bits n) => openBuilder (.ofSize n) dest
    | _ => fail label
  | initWritable => do
    writeBits (.x 0) .empty
    return .next
  | append unit dest label => do
    let extra ← takeFirst
    match ← takeSecond, extra.size? with
    | .bits existing, some extra =>
      if unit ≤ 1 ∨ existing.size % unit = 0 then
        let ownership := (← get).ownership callers existing
        openBuilder (.append existing extra ownership) dest
      else fail label
    | _, _ => fail label
  | put type unit encoding label => do
    let size ← takeFirst
    let value ← takeSecond
    match SegmentSize.of? size unit with
    | none => fail label
    | some size =>
      let (b, dest) ← builder "bs_put"
      extend dest label (writeSegment? type b size value encoding)
  | putLiteral index => do
    let literal ← literalBits code index
    let (b, dest) ← builder "bs_put_string"
    extend dest none (b.putBitString? literal none)
  | putUtf form encoding label => do
    match (← takeFirst).integer? with
    | none => fail label
    | some i =>
      let (b, dest) ← builder "bs_put_utf"
      extend dest label (writeUtf? form b i.toInt encoding)
  | utf8Size dest label => do
    let size := (← takeFirst).integer?.bind fun i => Unicode.size8? i.toInt
    deliver dest label (size.map fun n => .integer (.ofNat n))
  | utf16Size dest label => do
    let size := (← takeFirst).integer?.bind fun i => Unicode.size16? i.toInt
    deliver dest label (size.map fun n => .integer (.ofNat n))
  | add unit dest label => do
    let a ← takeFirst
    let b ← takeSecond
    deliver dest label (addSizes? a b unit)

end BuildCommand

end ErlangMachine.Machine
