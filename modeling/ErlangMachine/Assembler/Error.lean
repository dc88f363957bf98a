import ErlangMachine.Code.Opcode
import ErlangMachine.Code.Operation

/-!
# Errors of assembling

Why instructions cannot be made into a module, and the words for it.
-/

namespace ErlangMachine.Assembler

/-- What an operand should have been. -/
inductive Expectation where
  | labelNumber | source | dest | floatSource | floatDest | floatRegister | stackSlot | integer
  | label | atom | literalBits | function | functionOfArity | valuePairs | arityPairs
  deriving DecidableEq, Repr

/-- The words for an expectation. -/
def Expectation.text : Expectation → String
  | labelNumber => "a label number"
  | source => "a register, a stack slot or a constant"
  | dest => "a register or a stack slot"
  | floatSource => "a register, a stack slot, a float register or a constant"
  | floatDest => "a register, a stack slot or a float register"
  | floatRegister => "a float register"
  | stackSlot => "a stack slot"
  | integer => "an integer"
  | label => "a label"
  | atom => "an atom"
  | literalBits => "a literal bit string"
  | function => "an external function"
  | functionOfArity => "an external function taking the arguments passed to it"
  | valuePairs => "a list of value/label pairs"
  | arityPairs => "a list of arity/label pairs"

/-- A table that instructions fill. -/
inductive Table where
  | constants | imports | values | arities
  deriving DecidableEq, Repr

/-- The word for a table. -/
def Table.text : Table → String
  | constants => "constant"
  | imports => "import"
  | values => "value jump"
  | arities => "arity jump"

/-- Why instructions cannot be assembled. -/
inductive Error where
  /-- An instruction with too few or too many operands. -/
  | wrongArity (operation : Operation) (found : Nat)
  /-- An operand of the wrong kind. -/
  | unexpectedOperand (operation : Operation) (index : Nat) (expected : Expectation)
    (found : Operand)
  /-- A number that is too large or too small for its word. -/
  | outOfRange (operation : Operation) (index : Nat) (value : Int)
  /-- More sources than can be decoded ahead. -/
  | tooManySources (operation : Operation)
  /-- Variants that the family has no opcode for. -/
  | noOpcode (opcode : Opcode)
  /-- A label that stands at two places. -/
  | duplicateLabel (label : UInt32)
  /-- A label that stands nowhere. -/
  | undefinedLabel (label : UInt32)
  /-- A function whose entry label is not in its body. -/
  | missingEntry (function : LocalName) (label : UInt32)
  /-- A function that is defined twice. -/
  | duplicateFunction (function : LocalName)
  /-- An exported function that is not defined. -/
  | undefinedExport (function : LocalName)
  /-- A table without room for one more entry. -/
  | tableOverflow (table : Table)
  /-- More code than label words can address, or more registers than a word can count. -/
  | codeTooLarge

/-- The words for an error. -/
def Error.message : Error → String
  | wrongArity op found =>
    op.name ++ " takes " ++ toString op.arity ++ " operands but was given " ++ toString found
  | unexpectedOperand op index expected found =>
    "operand " ++ toString index ++ " of " ++ op.name ++ " must be " ++ expected.text ++ ", found "
      ++ found.text
  | outOfRange op index value =>
    "operand " ++ toString index ++ " of " ++ op.name ++ " does not fit in an instruction word: "
      ++ toString value
  | tooManySources op => op.name ++ " reads more than two source operands"
  | noOpcode o =>
    "no internal opcode executes " ++ o.family.name ++ " with operand variants ["
      ++ ", ".intercalate (o.variants.map fun v => String.ofList [v.letter.toUpper]) ++ "]"
  | duplicateLabel n => "label " ++ toString n.toNat ++ " is defined more than once"
  | undefinedLabel n => "label " ++ toString n.toNat ++ " is referenced but never defined"
  | missingEntry f n =>
    "function " ++ f.text ++ " never binds its entry label " ++ toString n.toNat
  | duplicateFunction f => "function " ++ f.text ++ " is defined more than once"
  | undefinedExport f => "exported function " ++ f.text ++ " is not defined"
  | tableOverflow t => "the " ++ t.text ++ " table is full"
  | codeTooLarge => "the code array exceeds the addressable range"

end ErlangMachine.Assembler
