import ErlangMachine.Code.Operand

/-!
# Operands in listings

A listing writes an operand as a tuple of a tag and its parts. A term that fits no notation, or
whose number is out of range, is a literal.
-/

namespace ErlangMachine.Listing

/-- An integer term as the number of a register or a stack slot. -/
def slot? (t : Term) : Option UInt16 :=
  t.integer?.bind fun v =>
    if 0 ≤ v.toInt ∧ v.toInt < 65536 then some (UInt16.ofNat v.toInt.toNat) else none

/-- The flag of one named property of a segment. -/
def flagOf? (t : Term) : Option UInt16 :=
  t.atom?.bind fun a =>
    match a.name with
    | "little" => some Encoding.littleFlag
    | "signed" => some Encoding.signedFlag
    | "native" => some Encoding.nativeFlag
    | "big" | "unsigned" | "aligned" => some 0
    | _ => none

/-- Segment flags, given as one number or as a list of names. -/
def flags? (t : Term) : Option UInt16 :=
  match t with
  | .integer _ => slot? t
  | _ => do
    let flags ← (← t.list?).mapM flagOf?
    return flags.foldl (· ||| ·) 0

/-- One byte of a string. -/
def byte? (t : Term) : Option UInt8 :=
  t.integer?.bind fun v =>
    if 0 ≤ v.toInt ∧ v.toInt < 256 then some (UInt8.ofNat v.toInt.toNat) else none

/-- The bytes of a string, given as a binary or as a list of byte values. -/
def bytes? (t : Term) : Option (List UInt8) :=
  match t with
  | .bits b => if b.isBinary then some b.toBytes else none
  | _ => t.list?.bind (·.mapM byte?)

/-- An operand with one part, if tag and part make one. -/
def single? (tag : String) (part : Term) : Option Operand :=
  match tag, part with
  | "x", t => (slot? t).map .x
  | "y", t => (slot? t).map .y
  | "fr", t => (slot? t).map .fr
  | "f", .integer v => if 0 ≤ v.toInt then some (.label (UInt32.ofNat v.toInt.toNat)) else none
  | "integer", .integer v => some (.int v)
  | "atom", .atom a => some (.atom a)
  | "float", t => t.number?.map fun x => .literal (.float x)
  | "literal", t => some (.literal t)
  | "string", t => (bytes? t).map fun bytes => .literal (.ofBytes bytes)
  | "field_flags", t => (flags? t).map fun flags => .int (Int64.ofNat flags.toNat)
  | _, _ => none

/-- A function of another module. Its arity is kept in 32 bits. -/
def external? (module function arity : Term) : Option Operand :=
  match module, function, arity with
  | .atom m, .atom f, .integer a =>
    if 0 ≤ a.toInt then some (.external ⟨m, f, a.toInt.toNat % UInt32.size⟩) else none
  | _, _, _ => none

mutual

/-- The operand that a term denotes. -/
def operand : Term → Operand
  | .integer v => .int v
  | .nil => .nil
  | .atom a => if a.name = "nil" then .nil else .atom a
  | .tuple [.atom ⟨tag⟩, part] =>
    let items := operands? part
    if tag = "list" then
      (items.map Operand.list).getD (.literal (.tuple [.atom ⟨tag⟩, part]))
    else (single? tag part).getD (.literal (.tuple [.atom ⟨tag⟩, part]))
  | .tuple [.atom ⟨tag⟩, register, type] =>
    -- A register with a note on the type of what it holds.
    let typed := operand register
    if tag = "tr" then typed else .literal (.tuple [.atom ⟨tag⟩, register, type])
  | .tuple [.atom ⟨tag⟩, a, b, c] =>
    let found := if tag = "extfunc" then external? a b c else none
    found.getD (.literal (.tuple [.atom ⟨tag⟩, a, b, c]))
  | t => .literal t

/-- The operands that the elements of a proper list denote. -/
def operands? : Term → Option (List Operand)
  | .nil => some []
  | .cons head tail =>
    let first := operand head
    (operands? tail).map (first :: ·)
  | _ => none

end

end ErlangMachine.Listing
