import ErlangMachine.World

/-!
# Native functions

A native is a function that is not code of a module: it takes its arguments and the world, gives a
term or a fault, and leaves the world as it may have changed it.
-/

namespace ErlangMachine

/-- A function that is not code of a module. -/
abbrev Native := List Term → World → Except Fault Term × World

namespace Native

/-- A native that looks at its arguments only. -/
def ofPure (f : List Term → Except Fault Term) : Native := fun arguments world =>
  (f arguments, world)

/-- A native of one argument. -/
def unary (f : Term → Except Fault Term) : Native := ofPure fun
  | [a] => f a
  | _ => .error .badarg

/-- A native of two arguments. -/
def binary (f : Term → Term → Except Fault Term) : Native := ofPure fun
  | [a, b] => f a b
  | _ => .error .badarg

/-- A native of three arguments. -/
def ternary (f : Term → Term → Term → Except Fault Term) : Native := ofPure fun
  | [a, b, c] => f a b c
  | _ => .error .badarg

/-- A native that always gives the same term. -/
def constant (value : Term) : Native := ofPure fun _ => .ok value

/-- A native that takes exactly `arity` arguments; any other number is an argument error. -/
def ofArity (arity : Nat) (f : Native) : Native := fun arguments world =>
  if arguments.length = arity then f arguments world else (.error .badarg, world)

end Native

end ErlangMachine
