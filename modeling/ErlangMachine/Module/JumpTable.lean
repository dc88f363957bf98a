import ErlangMachine.Module.Search
import ErlangMachine.Term.Order

/-!
# Jump tables

A jump table gives the target of the first of its entries that fits. A value table finds integers
and atoms by what they are and looks through its other entries one by one. An arity table has its
entries in order, each size once.
-/

namespace ErlangMachine

/-- A value that is told apart by its number or its name alone. -/
inductive Key where
  | integer (value : Int64)
  | atom (name : Atom)
  deriving DecidableEq, Repr

/-- The key of a value, if it has one. -/
def Key.ofTerm? : Term → Option Key
  | .integer value => some (integer value)
  | .atom name => some (atom name)
  | _ => none

/-- Targets by value. -/
structure ValueTable where
  /-- The targets of values that have a key, no key twice. -/
  keyed : List (Key × Nat)
  /-- The other values and their targets, in order of precedence. -/
  linear : List (Term × Nat)
  deriving Inhabited

namespace ValueTable

/-- No entries. -/
def empty : ValueTable := ⟨[], []⟩

/-- The target of a value: of its key, or of the first entry that is exactly equal. -/
def lookup (t : ValueTable) (value : Term) : Option Nat :=
  match Key.ofTerm? value with
  | some key => t.keyed.lookup key
  | none => (t.linear.find? fun e => e.1.exactEq value).map (·.2)

/-- The table with one more entry, unless it has that key already. -/
def add (t : ValueTable) (entry : Term × Nat) : ValueTable :=
  match Key.ofTerm? entry.1 with
  | some key =>
    if (t.keyed.lookup key).isSome then t else { t with keyed := (key, entry.2) :: t.keyed }
  | none => { t with linear := t.linear ++ [entry] }

/-- The table of some entries. -/
def ofList (entries : List (Term × Nat)) : ValueTable := entries.foldl add empty

/-- The number of entries. -/
def size (t : ValueTable) : Nat := t.keyed.length + t.linear.length

end ValueTable

/-- Targets by tuple size. -/
structure ArityTable where
  /-- The sizes and their targets, in the order of the sizes, no size twice. -/
  entries : Array (Nat × Nat)
  deriving Inhabited

namespace ArityTable

/-- The table of some entries. Sorting keeps entries of one size in their order, and the first of
them is the one that stays. -/
def ofList (entries : List (Nat × Nat)) : ArityTable :=
  let sorted := entries.mergeSort fun e e' => e.1 ≤ e'.1
  ⟨(sorted.eraseRepsBy fun e e' => e.1 == e'.1).toArray⟩

/-- The target of a size. -/
def lookup (t : ArityTable) (arity : Nat) : Option Nat :=
  match search (fun e => compare e.1 arity) t.entries with
  | .found index => t.entries[index]?.map (·.2)
  | .vacant _ => none

/-- The number of entries. -/
def size (t : ArityTable) : Nat := t.entries.size

end ArityTable

end ErlangMachine
