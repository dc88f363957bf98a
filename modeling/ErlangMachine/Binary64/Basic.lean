/-!
# Double precision numbers

A `Binary64` is an IEEE 754 double, kept as its bit pattern: a sign, eleven bits of exponent and 52
bits of fraction. A finite one denotes `± mantissa * 2 ^ exponent` exactly. All of its arithmetic is
defined on that exact value, so nothing here rests on the arithmetic of the host.
-/

namespace ErlangMachine

/-- A double precision number, given by its bit pattern. -/
structure Binary64 where
  /-- The IEEE 754 interchange format. -/
  bits : UInt64
  deriving DecidableEq, Repr, Inhabited

namespace Binary64

/-- Whether the sign bit is set. -/
def isNegative (x : Binary64) : Bool := 1 <<< 63 ≤ x.bits.toNat

/-- The pattern without its sign bit. It grows with the absolute value. -/
def magnitude (x : Binary64) : Nat := x.bits.toNat % (1 <<< 63)

/-- The biased exponent. -/
def exponentField (x : Binary64) : Nat := x.magnitude >>> 52

/-- The fraction, without the hidden bit. -/
def fraction (x : Binary64) : Nat := x.magnitude % (1 <<< 52)

/-- Neither infinite nor a NaN. -/
def isFinite (x : Binary64) : Bool := x.exponentField < 2047

/-- Not a number. -/
def isNaN (x : Binary64) : Bool := 2047 <<< 52 < x.magnitude

/-- Positive or negative infinity. -/
def isInfinite (x : Binary64) : Bool := x.magnitude = 2047 <<< 52

/-- Positive or negative zero. -/
def isZero (x : Binary64) : Bool := x.magnitude = 0

/-- The significand of a finite number as a whole number, the hidden bit included. -/
def mantissa (x : Binary64) : Nat :=
  if x.exponentField = 0 then x.fraction else (1 <<< 52) + x.fraction

/-- The power of two that scales the mantissa. -/
def exponent (x : Binary64) : Int := (max x.exponentField 1 : Nat) - 1075

/-- The mantissa with the number's sign. -/
def signedMantissa (x : Binary64) : Int := if x.isNegative then -x.mantissa else x.mantissa

/-- The number with the given sign and magnitude. -/
def ofMagnitude (negative : Bool) (magnitude : Nat) : Binary64 :=
  ⟨UInt64.ofNat (magnitude + if negative then 1 <<< 63 else 0)⟩

/-- Zero with a sign. -/
def zero (negative : Bool) : Binary64 := ofMagnitude negative 0

/-- Infinity with a sign. -/
def infinity (negative : Bool) : Binary64 := ofMagnitude negative (2047 <<< 52)

/-- The quiet NaN without a payload. -/
def nan : Binary64 := ofMagnitude false ((2047 <<< 52) + (1 <<< 51))

/-- The number with its sign bit flipped. -/
def neg (x : Binary64) : Binary64 := ofMagnitude (!x.isNegative) x.magnitude

/-- The number with its sign bit cleared. -/
def abs (x : Binary64) : Binary64 := ofMagnitude false x.magnitude

/-- Position on the number line: a whole number that orders all numbers but NaNs, in which the two
zeros coincide. -/
def position (x : Binary64) : Int := if x.isNegative then -x.magnitude else x.magnitude

/-- The order of two numbers. A NaN stands in no order to anything. -/
def compare? (x y : Binary64) : Option Ordering :=
  if x.isNaN || y.isNaN then none else some (compare x.position y.position)

end Binary64

end ErlangMachine
