/-!
# Integers of the machine

An integer is 64 bits wide and never wraps: an operation whose exact result does not fit has no
result. `Integer.ofInt?` draws that line, and sums, differences, products, negations and absolute
values are the exact operations on `Int` followed by it. Divisions and shifts work on the 64 bits
themselves, and each checks beforehand or afterwards whether its result can be trusted.
-/

namespace ErlangMachine.Integer

/-- The integers that 64 bits hold in two's complement. -/
def Fits (v : Int) : Prop := Int64.minValue.toInt ≤ v ∧ v ≤ Int64.maxValue.toInt

instance (v : Int) : Decidable (Fits v) := inferInstanceAs (Decidable (_ ∧ _))

/-- The machine integer of value `v`, if there is one. -/
def ofInt? (v : Int) : Option Int64 := if Fits v then some (Int64.ofInt v) else none

/-- The exact sum. -/
def add? (x y : Int64) : Option Int64 := ofInt? (x.toInt + y.toInt)

/-- The exact difference. -/
def sub? (x y : Int64) : Option Int64 := ofInt? (x.toInt - y.toInt)

/-- The exact product. -/
def mul? (x y : Int64) : Option Int64 := ofInt? (x.toInt * y.toInt)

/-- The exact negation. -/
def neg? (x : Int64) : Option Int64 := ofInt? (-x.toInt)

/-- The exact absolute value. -/
def abs? (x : Int64) : Option Int64 := ofInt? x.toInt.natAbs

/-- Whether a quotient can be computed: the divisor is not zero, and it is not the least integer
that is divided by minus one. -/
def hasQuotient (x y : Int64) : Bool := y != 0 && !(x == Int64.minValue && y == -1)

/-- The quotient truncated toward zero. -/
def div? (x y : Int64) : Option Int64 := if hasQuotient x y then some (x / y) else none

/-- The remainder that goes with `div?`: there is one exactly when there is a quotient. -/
def rem? (x y : Int64) : Option Int64 := if hasQuotient x y then some (x % y) else none

/-- A shift by `n` to the left, or by `-n` to the right when `n` is negative. A left shift has a
result when the count is below the width and no bit is lost, which shows when it is shifted back. A
right shift rounds down and always has a result; from 64 on only copies of the sign are left. -/
def shift? (x n : Int64) : Option Int64 :=
  if 0 ≤ n then
    if n < 64 then
      let shifted := x <<< n
      if shifted >>> n = x then some shifted else none
    else none
  else if n ≤ -64 then some (if x < 0 then -1 else 0)
  else some (x >>> (-n))

/-- A shift to the right, which is the shift to the left by the negated count. -/
def shiftRight? (x n : Int64) : Option Int64 := (neg? n).bind (shift? x)

end ErlangMachine.Integer
