import ErlangMachine.Module.Search
import ErlangMachine.Name

/-!
# Function tables

The functions of a module: where the code of each begins and where it is entered. No two functions
share a name or an entry. A code offset belongs to the function that begins last before it.
-/

namespace ErlangMachine

/-- A one-to-one correspondence between some values of two types. -/
structure Correspondence (α β : Type) where
  /-- The pairs, no value twice on its side. -/
  pairs : List (α × β)
  deriving DecidableEq, Inhabited

namespace Correspondence

variable {α β : Type} [DecidableEq α] [DecidableEq β]

/-- No pairs. -/
def empty : Correspondence α β := ⟨[]⟩

/-- What a value of the left side corresponds to. -/
def right? (c : Correspondence α β) (a : α) : Option β :=
  (c.pairs.find? fun p => p.1 = a).map (·.2)

/-- What a value of the right side corresponds to. -/
def left? (c : Correspondence α β) (b : β) : Option α :=
  (c.pairs.find? fun p => p.2 = b).map (·.1)

/-- The correspondence with one more pair, or none if a side of it is taken. -/
def insert? (c : Correspondence α β) (a : α) (b : β) : Option (Correspondence α β) :=
  if (c.right? a).isSome || (c.left? b).isSome then none else some ⟨(a, b) :: c.pairs⟩

end Correspondence

/-- One function of a module. -/
structure FunctionEntry where
  /-- The function. -/
  function : LocalName
  /-- The offset at which its code begins. -/
  start : Nat
  /-- The offset at which it is entered. -/
  entry : Nat
  deriving DecidableEq, Repr, Inhabited

/-- The functions of a module. -/
structure FunctionTable where
  /-- The functions and their entries. -/
  entries : Correspondence LocalName Nat
  /-- Where the code of each function begins, in this order. -/
  starts : Array (Nat × LocalName)
  deriving Inhabited

namespace FunctionTable

/-- No functions. -/
def empty : FunctionTable := ⟨.empty, #[]⟩

/-- The number of functions. -/
def size (t : FunctionTable) : Nat := t.entries.pairs.length

/-- The entry of a function. -/
def entry? (t : FunctionTable) (f : LocalName) : Option Nat := t.entries.right? f

/-- The function with a given entry. -/
def function? (t : FunctionTable) (entry : Nat) : Option LocalName := t.entries.left? entry

/-- The function whose code holds an offset: the last one that begins at or before it. -/
def enclosing? (t : FunctionTable) (offset : Nat) : Option LocalName :=
  match search (fun p => compare p.1 offset) t.starts with
  | .found index => t.starts[index]?.map (·.2)
  | .vacant 0 => none
  | .vacant (index + 1) => t.starts[index]?.map (·.2)

/-- Adds a function. It is given back with its entry if one of the two is taken. -/
def insert (e : FunctionEntry) : EStateM (LocalName × Nat) FunctionTable Unit := do
  let t ← get
  match t.entries.insert? e.function e.entry with
  | some entries =>
    let index := partitionPoint (fun p => p.1 ≤ e.start) t.starts
    set ({ entries, starts := t.starts.insertIdxIfInBounds index (e.start, e.function) } :
      FunctionTable)
  | none => throw (e.function, e.entry)

/-- The table with one more function, or none if the name or the entry is taken. -/
def insert? (t : FunctionTable) (e : FunctionEntry) : Option FunctionTable :=
  match insert e t with
  | .ok _ t => some t
  | .error _ _ => none

/-- The functions in the order of their entries. -/
def byEntry (t : FunctionTable) : List FunctionEntry :=
  let functions := t.starts.toList.filterMap fun (start, f) =>
    (t.entry? f).map fun entry => ⟨f, start, entry⟩
  functions.mergeSort fun e e' => e.entry ≤ e'.entry

end FunctionTable

end ErlangMachine
