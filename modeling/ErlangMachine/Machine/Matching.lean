import ErlangMachine.Machine.State

/-!
# Matching bit strings

A match works on a cursor that stands in a register or a stack slot. A command that matches moves
the cursor. One that does not leaves it where it is, or brings it back: what reads goes on from
where it stands and returns if it has found nothing, and only then is the cursor put back to its
place.
-/

namespace ErlangMachine.Machine

open BitString (Cursor)

/-- The size of a segment. -/
inductive SegmentSize where
  /-- A number of bits. -/
  | bits (n : Nat)
  /-- All that is left. -/
  | all
  deriving DecidableEq, Repr

namespace SegmentSize

/-- The size that a term stands for, in some unit. A size in bits has to fit in 64 bits. -/
def of? (t : Term) (unit : Nat) : Option SegmentSize :=
  match t with
  | .atom ⟨"all"⟩ => some all
  | t => t.size?.bind fun n => if n * unit < UInt64.size then some (bits (n * unit)) else none

/-- The number of bits, if the size is one. -/
def bits? : SegmentSize → Option Nat
  | bits n => some n
  | all => none

end SegmentSize

namespace Exec

/-- The cursor at a place. A register is there from then on, whether or not it holds a cursor. -/
def cursor (place : Place) (operation : String) : Exec Cursor := do
  if let .x n := place then modifyProcess (·.ensureRegisters (n + 1))
  match ← read place with
  | .cursor c => return c
  | _ => abort (.noMatchContext operation)

/-- Puts a cursor back that has moved. -/
def putCursor (place : Place) (c : Cursor) : Exec Unit := write place (.cursor c)

/-- Goes on with the moved cursor, or at the fail label. -/
def advance (place : Place) (label : Option Nat) : Option Cursor → Exec Flow
  | some c => do
    putCursor place c
    return .next
  | none => fail label

/-- Puts a cursor back that has been read from, and delivers what was found; if nothing was, goes on
at the fail label. -/
def deliverRead (place dest : Place) (label : Option Nat) (read : Option Term × Cursor) :
    Exec Flow := do
  putCursor place read.2
  deliver dest label read.1

/-- A constant that is a bit string. -/
def literalBits (code : LoadedModule) (index : Nat) : Exec BitString := do
  match ← source code (.constant index) with
  | .bits b => return b
  | _ => abort (.noBinary "constant")

end Exec

/-- What was found, as a term, and the cursor. -/
def termRead {α : Type} (term : α → Term) (read : Option α × Cursor) : Option Term × Cursor :=
  (read.1.map term, read.2)

/-- Reads a segment, and leaves the cursor behind it. -/
def takeSegment (type : SegmentType) (c : Cursor) (size : SegmentSize) (unit : Nat)
    (encoding : Encoding) : Option Term × Cursor :=
  match type, size with
  | .integer, .bits n => termRead .integer (c.takeInteger n encoding)
  | .float, .bits n => termRead .float (c.takeFloat n encoding)
  | .bits, size => termRead .bits (c.orStay (c.bitString? size.bits? unit))
  | _, .all => (none, c)

/-- Reads a character in an encoding, and leaves the cursor behind it. -/
def Utf.take (form : Utf) (c : Cursor) (e : Encoding) : Option Char × Cursor :=
  match form with
  | utf8 => c.orStay c.utf8?
  | utf16 => c.takeUtf16 e
  | utf32 => c.takeUtf32 e

namespace MatchCommand

open Exec

/-- What a matching command does. -/
def run (code : LoadedModule) : MatchCommand → Exec Flow
  | start label slots dest => do
    let c := match ← takeFirst with
      | .bits b => some (Cursor.ofBitString b slots)
      | .cursor c => some (c.restart slots)
      | _ => none
    deliver dest label (c.map .cursor)
  | get type place unit encoding dest label => do
    match SegmentSize.of? (← takeFirst) unit with
    | none => fail label
    | some size =>
      let c ← cursor place "bs_get"
      deliverRead place dest label (takeSegment type c size unit encoding)
  | skip place unit label => do
    match SegmentSize.of? (← takeFirst) unit with
    | none => fail label
    | some size =>
      let c ← cursor place "bs_skip_bits"
      advance place label (c.skip? size.bits? unit)
  | testTail place size label => do branch ((← cursor place "bs_test").testTail size) label
  | testUnit place unit label => do branch ((← cursor place "bs_test").testUnit unit) label
  | literal place index label => do
    let expected ← literalBits code index
    advance place label ((← cursor place "bs_match_string").literal? expected)
  | getUtf form place encoding dest label => do
    let c ← cursor place "bs_get_utf"
    deliverRead place dest label
      (termRead (fun char => .integer (.ofNat char.toNat)) (form.take c encoding))
  | skipUtf form place encoding label => do
    let read := form.take (← cursor place "bs_skip_utf") encoding
    putCursor place read.2
    branch read.1.isSome label
  | save place slot => do
    match (← cursor place "bs_save").save? slot with
    | some c => advance place none (some c)
    | none => abort (.badSaveSlot slot)
  | restore place slot => do
    match (← cursor place "bs_save").restore? slot with
    | some c => advance place none (some c)
    | none => abort (.badSaveSlot slot)
  | toBits place => do
    if let .cursor c ← read place then write place (.bits c.toBitString)
    return .next

end MatchCommand

end ErlangMachine.Machine
