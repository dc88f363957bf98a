import ErlangMachine.Native.Basic

/-!
# Natives on data

Comparisons, truth values, tuples, lists, bit strings, and the natives that raise.
-/

namespace ErlangMachine.Native

/-- The value of a view, which an argument must have. -/
def argument {α : Type} (view : Option α) : Except Fault α := Fault.require view .badarg

/-- A question about the order of two terms. -/
def ordered (holds : Ordering → Bool) (a b : Term) : Except Fault Term :=
  .ok (.bool (holds (a.compare b)))

/-- The greater of two terms, the first of equals. -/
def maximum (a b : Term) : Except Fault Term := .ok (if a.compare b = .lt then b else a)

/-- The lesser of two terms, the first of equals. -/
def minimum (a b : Term) : Except Fault Term := .ok (if a.compare b = .gt then b else a)

/-- A connective. -/
def logic (f : Bool → Bool → Bool) (a b : Term) : Except Fault Term := do
  return .bool (f (← argument a.bool?) (← argument b.bool?))

/-- The negation of a truth value. -/
def negation (a : Term) : Except Fault Term := return .bool !(← argument a.bool?)

/-- The index that a term, counting from one, gives into `size` elements. -/
def index? (t : Term) (size : Nat) : Option Nat :=
  t.size?.bind fun n => if 1 ≤ n ∧ n ≤ size then some (n - 1) else none

/-- An element of a tuple. -/
def element (n t : Term) : Except Fault Term := do
  let elements ← argument t.tuple?
  argument ((index? n elements.length).bind (elements[·]?))

/-- A tuple with one element replaced. -/
def setElement (n t value : Term) : Except Fault Term := do
  let elements ← argument t.tuple?
  return .tuple (elements.set (← argument (index? n elements.length)) value)

/-- A size as a term. -/
def ofSize (n : Nat) : Term := .integer (.ofNat n)

/-- The head of a list. -/
def head : Term → Except Fault Term
  | .cons head _ => .ok head
  | _ => .error .badarg

/-- The tail of a list. -/
def tail : Term → Except Fault Term
  | .cons _ tail => .ok tail
  | _ => .error .badarg

/-- Raises a fault given by its class, reason and trace. -/
def raise (kind reason trace : Term) : Except Fault Term := do
  let kind ← argument (kind.atom?.bind FaultClass.ofAtom?)
  let trace ← argument trace.list?
  .error ⟨kind, reason, trace⟩

/-- Sends the second argument to the first and gives it back. -/
def send : Native := fun arguments world =>
  match arguments with
  | [receiver, message] =>
    match world.send receiver message with
    | .ok world => (.ok message, world)
    | .error fault => (.error fault, world)
  | _ => (.error .badarg, world)

/-- The identity of the process. -/
def self : Native := fun _ world => (.ok (.pid world.self), world)

end ErlangMachine.Native
