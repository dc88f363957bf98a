import ErlangMachine.Machine.Run

/-!
# Equality of data

Terms are equal or they are not, and which of the two can be found out (`Term.same`). So can it for
everything that is made of terms: modules, frames and processes, and what a chain has come to.
Statements about what a program does on fixed inputs are decided by this.
-/

namespace ErlangMachine

deriving instance DecidableEq for BitString
deriving instance DecidableEq for BitString.Cursor

namespace Term

mutual

/-- Whether two terms are the same. -/
def same : Term → Term → Bool
  | integer a, integer b => a = b
  | float a, float b => a = b
  | atom a, atom b => a = b
  | reference a, reference b => a = b
  | port a, port b => a = b
  | pid a, pid b => a = b
  | external a, external b => a = b
  | bits a, bits b => a = b
  | cursor a, cursor b => a = b
  | catchTag handler outer, catchTag handler' outer' => handler = handler' && outer = outer'
  | closure code entry arity environment, closure code' entry' arity' environment' =>
    (code = code' && entry = entry' && arity = arity') && sameAll environment environment'
  | tuple elements, tuple elements' => sameAll elements elements'
  | cons head tail, cons head' tail' => same head head' && same tail tail'
  | nil, nil => true
  | _, _ => false

/-- Whether the elements of two lists are the same. -/
def sameAll : List Term → List Term → Bool
  | [], [] => true
  | t :: ts, u :: us => same t u && sameAll ts us
  | _, _ => false

end

mutual

/-- Terms that are the same are equal. -/
theorem same_iff : (t u : Term) → t.same u = true ↔ t = u
  | closure _ _ _ environment, u => by
    cases u <;> simp [same, sameAll_iff environment, and_assoc]
  | tuple elements, u => by cases u <;> simp [same, sameAll_iff elements]
  | cons head tail, u => by cases u <;> simp [same, same_iff head, same_iff tail]
  | integer _, u | float _, u | atom _, u | reference _, u | port _, u | pid _, u | external _, u
  | bits _, u | cursor _, u | catchTag .., u | nil, u => by cases u <;> simp [same]

/-- Elements that are the same are equal. -/
theorem sameAll_iff : (ts us : List Term) → sameAll ts us = true ↔ ts = us
  | [], us => by cases us <;> simp [sameAll]
  | t :: ts, us => by cases us <;> simp [sameAll, same_iff t, sameAll_iff ts]

end

instance : DecidableEq Term := fun t u => decidable_of_iff _ (same_iff t u)

end Term

deriving instance DecidableEq for Fault
deriving instance DecidableEq for ValueTable
deriving instance DecidableEq for ArityTable
deriving instance DecidableEq for FunctionTable
deriving instance DecidableEq for Module
deriving instance DecidableEq for Mailbox
deriving instance DecidableEq for World
deriving instance DecidableEq for BitString.Writer
deriving instance DecidableEq for BitString.Builder

/-- A result that is known apart from the error that there might have been. -/
theorem eq_ok_of_toOption {ε α : Type} {result : Except ε α} {value : α}
    (h : result.toOption = some value) : result = .ok value := by
  cases result with
  | ok found => exact congrArg Except.ok (Option.some.inj h)
  | error e => cases h

namespace Machine

deriving instance DecidableEq for Process
deriving instance DecidableEq for TupleDraft
deriving instance DecidableEq for Frame
deriving instance DecidableEq for Caller
deriving instance DecidableEq for Host
deriving instance DecidableEq for State
deriving instance DecidableEq for Wake
deriving instance DecidableEq for Continuation
deriving instance DecidableEq for Outcome
deriving instance DecidableEq for Halt
deriving instance DecidableEq for Chain
deriving instance DecidableEq for Progress

end Machine

end ErlangMachine
