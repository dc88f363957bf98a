import ErlangMachine.Term.Text

/-!
# Operands

The operands of instructions before they are assembled.
-/

namespace ErlangMachine

/-- An operand. -/
inductive Operand where
  /-- A register. -/
  | x (n : UInt16)
  /-- A stack slot, counted from the top. -/
  | y (n : UInt16)
  /-- A float register. -/
  | fr (n : UInt16)
  /-- An integer: a constant, or a count. -/
  | int (value : Int64)
  /-- An atom. -/
  | atom (name : Atom)
  /-- The empty list. -/
  | nil
  /-- Any other constant. -/
  | literal (value : Term)
  /-- A label. Label `0` stands for none. -/
  | label (n : UInt32)
  /-- A function of another module. -/
  | external (id : FunctionId)
  /-- The pairs of a jump table. -/
  | list (items : List Operand)

namespace Operand

instance : Inhabited Operand := ⟨nil⟩

/-- The term that a constant operand denotes. -/
def constant? : Operand → Option Term
  | int i => some (.integer i)
  | atom a => some (.atom a)
  | nil => some .nil
  | literal t => some t
  | _ => none

/-- Whether the operand is a register or a stack slot. -/
def isRegister : Operand → Bool
  | x _ | y _ => true
  | _ => false

/-- The tagged notation of listings: a tag and some parts in braces. -/
def tagged (tag : String) (parts : List String) : String :=
  "\x7b" ++ ",".intercalate (tag :: parts) ++ "\x7d"

mutual

/-- The text of an operand. -/
def text : Operand → String
  | x n => tagged "x" [toString n.toNat]
  | y n => tagged "y" [toString n.toNat]
  | fr n => tagged "fr" [toString n.toNat]
  | int i => tagged "integer" [toString i.toInt]
  | atom a => tagged "atom" [a.text]
  | nil => "nil"
  | literal t => tagged "literal" [t.text]
  | label n => tagged "f" [toString n.toNat]
  | external id => tagged "extfunc" [id.module.text, id.function.text, toString id.arity]
  | list items => tagged "list" ["[" ++ ",".intercalate (textAll items) ++ "]"]

/-- The texts of some operands. -/
def textAll : List Operand → List String
  | [] => []
  | o :: rest => text o :: textAll rest

end

end Operand

end ErlangMachine
