import ErlangMachine.Module.Basic

/-!
# Disassembly

The text of assembled code, one instruction to a line, with the name of a function where it is
entered.
-/

namespace ErlangMachine.Module

/-- The text of a word whose meaning a variant decides. -/
def variantText (m : Module) (v : Variant) (word : UInt16) : String :=
  let n := toString word.toNat
  match v with
  | .x => "x" ++ n
  | .y => "y" ++ n
  | .f => "fr" ++ n
  | .c => (m.constants[word.toNat]?.map Term.text).getD ("const#" ++ n)

/-- The text of one operand word. -/
def wordText (m : Module) (slot : Slot) (word : UInt16) : String :=
  let n := toString word.toNat
  match slot with
  | .label => if word = noLabel then "-" else "@" ++ n
  | .floatRegister => m.variantText .f word
  | .stackSlot => m.variantText .y word
  | .constant => m.variantText .c word
  | .valueTable => "values#" ++ n
  | .arityTable => "arities#" ++ n
  | .imported => (m.imports[word.toNat]?.map (·.id.text)).getD ("import#" ++ n)
  | _ => n

/-- The texts of operand words. Each word with a choice takes the next variant. -/
def wordTexts (m : Module) : List Slot → List Variant → List UInt16 → List String
  | slot :: slots, variants, word :: words =>
    if slot.variants.isEmpty then m.wordText slot word :: m.wordTexts slots variants words
    else
      m.variantText (variants.headD .x) word :: m.wordTexts slots variants.tail words
  | _, _, _ => []

/-- The text of the instruction at an offset and the offset after it. There is none where the word
is no opcode or the code ends too soon. -/
def instructionAt? (m : Module) (offset : Nat) : Option (String × Nat) := do
  let opcode ← Opcode.ofWord? (← m.code[offset]?)
  let layout := opcode.family.layout
  let next := offset + 1 + layout.length
  if m.code.size < next then none
  else
    let words := (m.code.extract (offset + 1) next).toList
    let texts := m.wordTexts layout opcode.variants words
    let operands := if texts.isEmpty then "" else " " ++ ", ".intercalate texts
    some (opcode.text ++ operands, next)

/-- A number in six columns, to the right. -/
def column (n : Nat) : String :=
  let digits := toString n
  String.ofList (List.replicate (6 - digits.length) ' ') ++ digits

/-- The lines from an offset on, at most `bound` instructions of them. -/
def linesFrom (m : Module) : Nat → Nat → List String
  | 0, _ => []
  | bound + 1, offset =>
    match m.code[offset]? with
    | none => []
    | some word =>
      let heading :=
        (m.functions.function? offset).toList.map fun f =>
          f.name.text ++ "/" ++ toString f.arity ++ ":"
      let (line, next) :=
        match m.instructionAt? offset with
        | some (text, next) => (text, next)
        | none => ("??? " ++ toString word.toNat, offset + 1)
      heading ++ (column offset ++ "  " ++ line) :: m.linesFrom bound next

/-- The text of all the code, each line ended by a line break. -/
def disassemble (m : Module) : String :=
  String.join ((m.linesFrom m.code.size 0).map (· ++ "\n"))

end ErlangMachine.Module
