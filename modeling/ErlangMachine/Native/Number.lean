import ErlangMachine.Native.Basic

/-!
# Arithmetic natives

Two integers give an integer, exactly or not at all. As soon as a float takes part both operands are
floats, and the result has to be finite.
-/

namespace ErlangMachine.Native

/-- An integer result. -/
def integerOr (otherwise : Fault) (result : Option Int64) : Except Fault Term :=
  (Fault.require result otherwise).map .integer

/-- A float result, which has to be finite. -/
def finite (x : Binary64) : Except Fault Term :=
  if x.isFinite then .ok (.float x) else .error .badarith

/-- An operand as a float. -/
def number (t : Term) : Except Fault Binary64 := Fault.require t.number? .badarith

/-- Integer arithmetic on two integers, float arithmetic otherwise. -/
def arithmetic (onIntegers : Int64 → Int64 → Option Int64)
    (onFloats : Binary64 → Binary64 → Binary64) (a b : Term) : Except Fault Term :=
  match a, b with
  | .integer x, .integer y => integerOr .badarith (onIntegers x y)
  | _, _ => do finite (onFloats (← number a) (← number b))

/-- The sum. -/
def add : Term → Term → Except Fault Term := arithmetic Integer.add? Binary64.add

/-- The difference. -/
def subtract : Term → Term → Except Fault Term := arithmetic Integer.sub? Binary64.sub

/-- The product. -/
def multiply : Term → Term → Except Fault Term := arithmetic Integer.mul? Binary64.mul

/-- The quotient, always a float. -/
def divide (a b : Term) : Except Fault Term := do
  let divisor ← number b
  if divisor.isZero then .error .badarith
  else finite ((← number a).div divisor)

/-- An operation on integers only. -/
def onIntegers (f : Int64 → Int64 → Option Int64) (a b : Term) : Except Fault Term :=
  match a, b with
  | .integer x, .integer y => integerOr .badarith (f x y)
  | _, _ => .error .badarith

/-- The negation. -/
def negate : Term → Except Fault Term
  | .integer x => integerOr .badarith (Integer.neg? x)
  | .float x => .ok (.float x.neg)
  | _ => .error .badarith

/-- A number unchanged. -/
def plus (a : Term) : Except Fault Term := (number a).map fun _ => a

/-- The absolute value. -/
def absolute : Term → Except Fault Term
  | .integer x => integerOr .badarith (Integer.abs? x)
  | .float x => .ok (.float x.abs)
  | _ => .error .badarg

/-- The integer with all bits turned over. -/
def complement (a : Term) : Except Fault Term := integerOr .badarg (a.integer?.map (~~~·))

/-- A number as a float. -/
def toFloat (a : Term) : Except Fault Term := (number a).map .float

/-- A number as an integer, by a given rounding. -/
def toInteger (rounding : Binary64 → Int) : Term → Except Fault Term
  | .integer x => .ok (.integer x)
  | .float x =>
    if x.isFinite then integerOr .badarith (Integer.ofInt? (rounding x)) else .error .badarith
  | _ => .error .badarg

end ErlangMachine.Native
