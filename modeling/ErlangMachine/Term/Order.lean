import ErlangMachine.Term.Basic

/-!
# The order of terms

Terms are ordered by kind first: numbers, atoms, references, functions, ports, process identities,
tuples, the empty list, list cells, bit strings. Integers and floats compare by value, tuples by
size and then element by element. Exact equality is equality in this order, except that it tells an
integer from a float.
-/

namespace ErlangMachine.Term

/-- The place of a term's kind. -/
def rank : Term → Nat
  | integer _ | float _ => 0
  | atom _ => 1
  | reference _ => 2
  | closure .. | external _ => 3
  | port _ => 4
  | pid _ => 5
  | tuple _ => 6
  | nil => 7
  | cons .. => 8
  | bits _ => 9
  | cursor _ => 10
  | catchTag .. => 11

/-- The order of two floats. What is not a number counts as equal to everything. -/
def compareFloats (x y : Binary64) : Ordering := (x.compare? y).getD .eq

/-- The order of two functions known by name. -/
def compareIds (f g : FunctionId) : Ordering :=
  (Ord.compare f.module g.module).then
    ((Ord.compare f.function g.function).then (Ord.compare f.arity g.arity))

mutual

/-- The order of two terms. An integer is rounded to a float before it is compared with one. -/
def compare : Term → Term → Ordering
  | integer a, integer b => Ord.compare a.toInt b.toInt
  | integer a, float b => compareFloats (.ofInt a.toInt) b
  | float a, integer b => compareFloats a (.ofInt b.toInt)
  | float a, float b => compareFloats a b
  | atom a, atom b => Ord.compare a b
  | reference a, reference b => Ord.compare a b
  | port a, port b => Ord.compare a b
  | pid a, pid b => Ord.compare a b
  | closure m e _ xs, closure n f _ ys =>
    (Ord.compare m.name n.name).then ((Ord.compare e f).then
      ((Ord.compare xs.length ys.length).then (compareAll xs ys)))
  | closure .., external _ => .lt
  | external _, closure .. => .gt
  | external f, external g => compareIds f g
  | tuple xs, tuple ys => (Ord.compare xs.length ys.length).then (compareAll xs ys)
  | cons x xs, cons y ys => (compare x y).then (compare xs ys)
  | bits a, bits b => Ord.compare a b
  | s, t => Ord.compare s.rank t.rank

/-- The order of the first elements that differ. -/
def compareAll : List Term → List Term → Ordering
  | x :: xs, y :: ys => (compare x y).then (compareAll xs ys)
  | _, _ => .eq

end

mutual

/-- Exact equality. Inside tuples and lists it is exact too; the values that a closure captured are
compared by order. -/
def exactEq : Term → Term → Bool
  | integer _, float _ => false
  | float _, integer _ => false
  | tuple xs, tuple ys => xs.length == ys.length && exactEqAll xs ys
  | cons x xs, cons y ys => exactEq x y && exactEq xs ys
  | s, t => compare s t == .eq

/-- Exact equality of elements that stand at the same place. -/
def exactEqAll : List Term → List Term → Bool
  | x :: xs, y :: ys => exactEq x y && exactEqAll xs ys
  | _, _ => true

end

end ErlangMachine.Term
