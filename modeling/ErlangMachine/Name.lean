/-!
# Names

Atoms are names that stand for themselves. A function is known outside its module by its module, its
own name and the number of its arguments.
-/

namespace ErlangMachine

/-- A constant whose value is its name. -/
structure Atom where
  /-- The text of the name, any characters allowed. -/
  name : String
  deriving DecidableEq, Repr, Inhabited

/-- Atoms are ordered as their texts are, by code points. -/
instance : Ord Atom := ⟨fun a b => compare a.name b.name⟩

instance : Coe String Atom := ⟨Atom.mk⟩

/-- A function as other modules refer to it. Functions of different arity are different. -/
structure FunctionId where
  /-- The module that holds the function. -/
  module : Atom
  /-- The function's name. -/
  function : Atom
  /-- The number of arguments. -/
  arity : Nat
  deriving DecidableEq, Repr, Inhabited

/-- The text `module:function/arity`. -/
def FunctionId.text (id : FunctionId) : String :=
  id.module.name ++ ":" ++ id.function.name ++ "/" ++ toString id.arity

/-- A function inside its module. -/
structure LocalName where
  /-- The function's name. -/
  name : Atom
  /-- The number of arguments. -/
  arity : Nat
  deriving DecidableEq, Repr, Inhabited

/-- The text `name/arity`. -/
def LocalName.text (f : LocalName) : String := f.name.name ++ "/" ++ toString f.arity

end ErlangMachine
