import ErlangMachine.Binary64.Basic

/-!
# Rounding

`Format.round` takes a ratio of two natural numbers to the nearest number of a binary format, a half
going to the even neighbour. Every operation on doubles is the exact operation on their values
followed by this rounding; the cases with zeros, infinities and NaNs are written out.
-/

namespace ErlangMachine

/-- A binary interchange format, described by what rounding needs of it. -/
structure Format where
  /-- Bits of the significand, the hidden bit included. -/
  precision : Nat
  /-- The power of two that scales the least significand. -/
  minExponent : Int
  /-- The exponent field of infinity. -/
  top : Nat

namespace Format

/-- Double precision. -/
def double : Format := ⟨53, -1074, 2047⟩

/-- Single precision. -/
def single : Format := ⟨24, -149, 255⟩

/-- The magnitude of infinity. -/
def infinity (f : Format) : Nat := f.top <<< (f.precision - 1)

/-- The greatest `k` with `2 ^ k ≤ num / den`, both positive. -/
def floorLog2 (num den : Nat) : Int :=
  let k : Int := num.log2 - den.log2
  if num <<< (-k).toNat < den <<< k.toNat then k - 1 else k

/-- The quotient of `num` by `den`, to the nearest, a half to the even neighbour. -/
def roundQuotient (num den : Nat) : Nat :=
  let quotient := num / den
  let twice := 2 * (num % den)
  if den < twice ∨ (den = twice ∧ quotient % 2 = 1) then quotient + 1 else quotient

/-- The magnitude of the number nearest to `num / den`. A carry out of the significand moves into
the exponent field by itself, and past the largest number lies infinity. -/
def round (f : Format) (num den : Nat) : Nat :=
  if num = 0 then 0 else
    let e := max f.minExponent (floorLog2 num den - f.precision + 1)
    let significand := roundQuotient (num <<< (-e).toNat) (den <<< e.toNat)
    min f.infinity (((e - f.minExponent).toNat <<< (f.precision - 1)) + significand)

/-- The significand and the power of two of a finite magnitude. -/
def unpack (f : Format) (magnitude : Nat) : Nat × Int :=
  let hidden := 1 <<< (f.precision - 1)
  let field := magnitude / hidden
  if field = 0 then (magnitude, f.minExponent)
  else (hidden + magnitude % hidden, f.minExponent + (field - 1 : Nat))

end Format

namespace Binary64

/-- The double nearest to `± num / den`. -/
def ofRatio (negative : Bool) (num den : Nat) : Binary64 :=
  ofMagnitude negative (Format.double.round num den)

/-- The double nearest to `± m * 2 ^ e`. -/
def ofScaled (negative : Bool) (m : Nat) (e : Int) : Binary64 :=
  ofRatio negative (m <<< e.toNat) (1 <<< (-e).toNat)

/-- The double nearest to a whole number. -/
def ofInt (v : Int) : Binary64 := ofRatio (v < 0) v.natAbs 1

/-- The sum. A sum of zero is negative only if both numbers are. -/
def add (x y : Binary64) : Binary64 :=
  if x.isNaN || y.isNaN then nan
  else if x.isInfinite then
    if y.isInfinite && x.isNegative != y.isNegative then nan else x
  else if y.isInfinite then y
  else
    let e := min x.exponent y.exponent
    let total := (x.signedMantissa <<< (x.exponent - e).toNat)
      + (y.signedMantissa <<< (y.exponent - e).toNat)
    if total = 0 then zero (x.isNegative && y.isNegative)
    else ofScaled (total < 0) total.natAbs e

/-- The difference. -/
def sub (x y : Binary64) : Binary64 := add x y.neg

/-- The product. -/
def mul (x y : Binary64) : Binary64 :=
  let negative := x.isNegative != y.isNegative
  if x.isNaN || y.isNaN then nan
  else if x.isInfinite || y.isInfinite then
    if x.isZero || y.isZero then nan else infinity negative
  else ofScaled negative (x.mantissa * y.mantissa) (x.exponent + y.exponent)

/-- The quotient. -/
def div (x y : Binary64) : Binary64 :=
  let negative := x.isNegative != y.isNegative
  if x.isNaN || y.isNaN then nan
  else if x.isInfinite then if y.isInfinite then nan else infinity negative
  else if y.isInfinite then zero negative
  else if y.isZero then if x.isZero then nan else infinity negative
  else
    let e := x.exponent - y.exponent
    ofRatio negative (x.mantissa <<< e.toNat) (y.mantissa <<< (-e).toNat)

/-- The whole number next to a finite number, toward zero. -/
def truncate (x : Binary64) : Int :=
  let whole := (x.mantissa <<< x.exponent.toNat) >>> (-x.exponent).toNat
  if x.isNegative then -whole else whole

/-- The whole number nearest to a finite number, a half going away from zero. -/
def nearest (x : Binary64) : Int :=
  let num := x.mantissa <<< x.exponent.toNat
  let den := 1 <<< (-x.exponent).toNat
  let whole := (2 * num + den) / (2 * den)
  if x.isNegative then -whole else whole

/-- The pattern of the single nearest to a double. A NaN stays one, quiet, with the top of its
payload. -/
def toSingleBits (x : Binary64) : Nat :=
  let sign := if x.isNegative then 1 <<< 31 else 0
  if x.isNaN then sign + Format.single.infinity + (1 <<< 22 ||| x.fraction >>> 29)
  else if x.isInfinite then sign + Format.single.infinity
  else
    sign + Format.single.round (x.mantissa <<< x.exponent.toNat) (1 <<< (-x.exponent).toNat)

/-- The double with the value of a single, given by its pattern. -/
def ofSingleBits (bits : Nat) : Binary64 :=
  let negative := decide (1 <<< 31 ≤ bits)
  let magnitude := bits % (1 <<< 31)
  if Format.single.infinity < magnitude then
    ofMagnitude negative
      (Format.double.infinity + (1 <<< 51 ||| (magnitude % (1 <<< 23)) <<< 29))
  else if magnitude = Format.single.infinity then infinity negative
  else
    let (m, e) := Format.single.unpack magnitude
    ofScaled negative m e

end Binary64

end ErlangMachine
