import ErlangMachine.Code.Opcode
import ErlangMachine.Module.FunctionTable
import ErlangMachine.Module.JumpTable

/-!
# Modules

A module is a sequence of code words together with the tables that its words refer to.
-/

namespace ErlangMachine

/-- A function that other modules may call. -/
structure Export where
  /-- The function. -/
  function : LocalName
  /-- The offset at which it is entered. -/
  entry : Nat
  deriving DecidableEq, Repr, Inhabited

/-- A function of another module that the code calls. -/
structure Import where
  /-- The function. -/
  id : FunctionId
  /-- Whether it is called where only a native may be. -/
  guard : Bool
  deriving DecidableEq, Repr, Inhabited

/-- Assembled code with its tables. -/
structure Module where
  /-- The module's name. -/
  name : Atom
  /-- The code words. -/
  code : Array UInt16
  /-- The pool of constants. -/
  constants : Array Term := #[]
  /-- The tables of `select_val` instructions. -/
  valueTables : Array ValueTable := #[]
  /-- The tables of `select_tuple_arity` instructions. -/
  arityTables : Array ArityTable := #[]
  /-- The functions. -/
  functions : FunctionTable
  /-- The functions that other modules may call. -/
  exports : List Export
  /-- The functions of other modules that the code calls. -/
  imports : Array Import := #[]
  deriving Inhabited

namespace Module

/-- The entry of an exported function. -/
def exportEntry? (m : Module) (f : LocalName) : Option Nat :=
  (m.exports.find? fun e => e.function = f).map (·.entry)

/-- The function whose code holds an offset. -/
def functionAt? (m : Module) (offset : Nat) : Option LocalName := m.functions.enclosing? offset

end Module

end ErlangMachine
