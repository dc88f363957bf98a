import ErlangMachine.Term.Order

/-!
# Faults

A fault is an exception of the running program: a class, a reason, and the functions that it has
left so far without being caught, innermost first.
-/

namespace ErlangMachine

/-- The three ways to raise a fault. -/
inductive FaultClass where
  | error
  | exit
  | throw
  deriving DecidableEq, Repr, Inhabited

namespace FaultClass

/-- The atom that programs know a class by. -/
def atom : FaultClass → Atom
  | error => "error"
  | exit => "exit"
  | throw => "throw"

/-- The class that an atom stands for. -/
def ofAtom? (a : Atom) : Option FaultClass := [error, exit, throw].find? fun c => c.atom = a

end FaultClass

/-- An exception of the running program. -/
structure Fault where
  /-- How it was raised. -/
  kind : FaultClass
  /-- What was raised. -/
  reason : Term
  /-- The functions it has left, innermost first, each as a tuple of module, name and arity. -/
  trace : List Term := []
  deriving Inhabited

namespace Fault

/-- A fault of class `error`. -/
def error (reason : Term) : Fault := ⟨.error, reason, []⟩

/-- A fault of class `exit`. -/
def exit (reason : Term) : Fault := ⟨.exit, reason, []⟩

/-- A fault of class `throw`. -/
def throw (reason : Term) : Fault := ⟨.throw, reason, []⟩

/-! ## The reasons that the machine itself gives -/

/-- An argument of the wrong kind. -/
def badarg : Fault := error (.atom "badarg")

/-- Arithmetic without a result. -/
def badarith : Fault := error (.atom "badarith")

/-- A call of a function that does not exist. -/
def undefined : Fault := error (.atom "undef")

/-- No clause of a function matches. -/
def functionClause : Fault := error (.atom "function_clause")

/-- No branch of an `if` holds. -/
def ifClause : Fault := error (.atom "if_clause")

/-- A time to wait that is none. -/
def timeoutValue : Fault := error (.atom "timeout_value")

/-- An `error` whose reason is a pair of a name and a value. -/
def about (name : Atom) (value : Term) : Fault := error (.tuple [.atom name, value])

/-- A value that a pattern does not match. -/
def badmatch (value : Term) : Fault := about "badmatch" value

/-- A value that no clause of a `case` matches. -/
def caseClause (value : Term) : Fault := about "case_clause" value

/-- A value that no clause of a `try` matches. -/
def tryClause (value : Term) : Fault := about "try_clause" value

/-- A call of something that is no function. -/
def badfun (value : Term) : Fault := about "badfun" value

/-- A function called with the wrong number of arguments. -/
def badarity (function : Term) (arguments : List Term) : Fault :=
  about "badarity" (.tuple [function, .list arguments])

/-! ## Handing over -/

/-- The value if there is one, a fault otherwise. -/
def require {α : Type} (value : Option α) (otherwise : Fault) : Except Fault α :=
  match value with
  | some a => .ok a
  | none => .error otherwise

/-- The terms of a fault. -/
def terms (fault : Fault) : List Term := fault.reason :: fault.trace

/-- How a trace names a function. -/
def location (module : Atom) (f : LocalName) : Term :=
  .tuple [.atom module, .atom f.name, .integer (.ofNat f.arity)]

/-- Adds a function to those the fault has left. -/
def leave (fault : Fault) (place : Term) : Fault := { fault with trace := fault.trace ++ [place] }

/-- What a `catch` expression gives for a fault: a thrown term is itself, anything else is marked as
an exit, and an error shows its trace. -/
def catchValue (fault : Fault) : Term :=
  match fault.kind with
  | .throw => fault.reason
  | .exit => .tuple [.atom "EXIT", fault.reason]
  | .error => .tuple [.atom "EXIT", .tuple [fault.reason, .list fault.trace]]

end Fault

end ErlangMachine
