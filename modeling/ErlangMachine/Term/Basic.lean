import ErlangMachine.BitString.Cursor
import ErlangMachine.Name

/-!
# Terms

Terms are the values of the machine. Lists are built from cells, so a list may end in anything; one
that ends in `nil` is proper. Two kinds of term never leave the running code: a cursor, which stands
in a slot while a bit string is matched, and a catch tag, which marks the slot of a protected region
with the handlers that were in force when it was entered.
-/

namespace ErlangMachine

/-- How a handler receives a fault. -/
inductive HandlerKind where
  /-- One value in the first register. -/
  | catchValue
  /-- Class, reason and trace in the first three registers. -/
  | tryClauses
  deriving DecidableEq, Repr, Inhabited

/-- Where a fault in a protected region continues. -/
structure Handler where
  /-- What is handed over. -/
  kind : HandlerKind
  /-- The code offset to continue at. -/
  label : Nat
  /-- The depth of the stack to go back to. -/
  depth : Nat
  deriving DecidableEq, Repr, Inhabited

/-- A loaded module. A module loaded again under its name gets a place of its own, so code that was
taken from the first one keeps running. -/
structure ModuleRef where
  /-- The module's name. -/
  name : Atom
  /-- The module's place in the order of loading. -/
  place : Nat
  deriving DecidableEq, Repr, Inhabited

/-- A value of the machine. -/
inductive Term where
  /-- A 64-bit integer. -/
  | integer (value : Int64)
  /-- A double precision number. -/
  | float (value : Binary64)
  /-- An atom. -/
  | atom (name : Atom)
  /-- A reference. -/
  | reference (id : Nat)
  /-- A function with captured values: code in a loaded module that takes `arity` arguments and then
  the environment. -/
  | closure (code : ModuleRef) (entry arity : Nat) (environment : List Term)
  /-- A function given by its name, looked up whenever it is called. -/
  | external (id : FunctionId)
  /-- A port. -/
  | port (id : Nat)
  /-- A process identity. -/
  | pid (id : Nat)
  /-- A tuple. -/
  | tuple (elements : List Term)
  /-- The empty list. -/
  | nil
  /-- A list cell. -/
  | cons (head tail : Term)
  /-- A bit string. -/
  | bits (value : BitString)
  /-- A bit string that is being matched. -/
  | cursor (state : BitString.Cursor)
  /-- The mark of a protected region: its handler and the handlers around it. -/
  | catchTag (handler : Handler) (outer : List Handler)

namespace Term

/-- A slot that was never written holds the empty list. -/
instance : Inhabited Term := ⟨nil⟩

/-- The list of some elements that ends in `tail`. -/
def listWithTail (elements : List Term) (tail : Term) : Term := elements.foldr cons tail

/-- The proper list of some elements. -/
def list (elements : List Term) : Term := listWithTail elements nil

/-- The atom `true` or `false`. -/
def bool (b : Bool) : Term := atom (if b then "true" else "false")

/-- The bit string of some bytes. -/
def ofBytes (bytes : List UInt8) : Term := bits (.ofBytes bytes.toArray)

/-! ## Views -/

/-- The integer, if the term is one. -/
def integer? : Term → Option Int64
  | integer i => some i
  | _ => none

/-- The number as a float, rounded if it is an integer. -/
def number? : Term → Option Binary64
  | integer i => some (.ofInt i.toInt)
  | float x => some x
  | _ => none

/-- The atom, if the term is one. -/
def atom? : Term → Option Atom
  | atom a => some a
  | _ => none

/-- The truth value, if the term is one of its two atoms. -/
def bool? : Term → Option Bool
  | atom ⟨"true"⟩ => some true
  | atom ⟨"false"⟩ => some false
  | _ => none

/-- The integer as a size, if it is not negative. -/
def size? : Term → Option Nat
  | integer i => if 0 ≤ i.toInt then some i.toInt.toNat else none
  | _ => none

/-- The elements, if the term is a tuple. -/
def tuple? : Term → Option (List Term)
  | tuple elements => some elements
  | _ => none

/-- The elements, if the term is a proper list. -/
def list? : Term → Option (List Term)
  | nil => some []
  | cons head tail => (list? tail).map (head :: ·)
  | _ => none

/-- The bit string, if the term is one. -/
def bits? : Term → Option BitString
  | bits b => some b
  | _ => none

/-- The number of arguments, if the term is a function. -/
def functionArity? : Term → Option Nat
  | closure _ _ arity _ => some arity
  | external id => some id.arity
  | _ => none

end Term

/-- A question about the type of a term. -/
inductive TypeTest where
  | integer | float | number | atom | boolean | nil | list | nonemptyList | tuple | binary
  | bitString | function | pid | reference | port
  deriving DecidableEq, Repr

namespace TypeTest

/-- All questions. -/
def all : List TypeTest :=
  [integer, float, number, atom, boolean, nil, list, nonemptyList, tuple, binary, bitString,
    function, pid, reference, port]

/-- The answer. Only whole bytes make a binary, and any bits make a bit string. -/
def holds : TypeTest → Term → Bool
  | integer, .integer _ | float, .float _ | number, .integer _ | number, .float _ => true
  | atom, .atom _ => true
  | boolean, t => t.bool?.isSome
  | nil, .nil | list, .nil | list, .cons _ _ | nonemptyList, .cons _ _ => true
  | tuple, .tuple _ => true
  | binary, .bits b => b.isBinary
  | bitString, .bits _ => true
  | function, .closure .. | function, .external _ => true
  | pid, .pid _ | reference, .reference _ | port, .port _ => true
  | _, _ => false

end TypeTest

end ErlangMachine
