import ErlangMachine.Binary64.Rounding

/-!
# Decimal text of doubles

Writing a double takes the fewest decimal digits that read back to it. `Decimal.shortest` looks for
them grid by grid: with one digit, with two and so on, it tests the two neighbours of the number
among the decimals of that many digits, until one of them lies in the interval of reals that round
to the number. `Binary64.text` lays the digits out. Reading goes the other way, through the exact
ratio that the text denotes.
-/

namespace ErlangMachine

/-- The decimal `digits * 10 ^ exponent`. -/
structure Decimal where
  /-- The digits, as one whole number. -/
  digits : Nat
  /-- The power of ten of the last digit. -/
  exponent : Int
  deriving DecidableEq, Repr

namespace Decimal

/-- The order of `a * 10 ^ k` and `b * 2 ^ e`. -/
def compareScaled (a : Nat) (k : Int) (b : Nat) (e : Int) : Ordering :=
  compare ((a * Nat.pow 10 k.toNat) <<< (-e).toNat) ((b <<< e.toNat) * Nat.pow 10 (-k).toNat)

/-- The reals that round to one number, as multiples of a power of two. -/
structure Interval where
  /-- The lower end. -/
  low : Nat
  /-- The number itself. -/
  middle : Nat
  /-- The upper end. -/
  high : Nat
  /-- The power of two that scales the three. -/
  exponent : Int
  /-- Whether the ends belong to it. -/
  closed : Bool

/-- The interval of the number `m * 2 ^ e`. It reaches half way to both neighbours, which below a
power of two lie closer; its ends round to the number when `m` is even. -/
def Interval.around (m : Nat) (e : Int) (narrowBelow : Bool) : Interval :=
  ⟨4 * m - (if narrowBelow then 1 else 2), 4 * m, 4 * m + 2, e - 2, m % 2 = 0⟩

/-- Whether a decimal lies in the interval. -/
def Interval.contains (i : Interval) (d : Decimal) : Bool :=
  let low := compareScaled d.digits d.exponent i.low i.exponent
  let high := compareScaled d.digits d.exponent i.high i.exponent
  (low == .gt || (i.closed && low == .eq)) && (high == .lt || (i.closed && high == .eq))

/-- The decimal below the number on the grid of multiples of `10 ^ k`. -/
def Interval.floorAt (i : Interval) (k : Int) : Decimal :=
  ⟨(i.middle <<< i.exponent.toNat) * Nat.pow 10 (-k).toNat
    / (Nat.pow 10 k.toNat <<< (-i.exponent).toNat), k⟩

/-- Of the two neighbours of the number on a grid, the one to write: the nearer one that lies in the
interval, the upper one if both are equally near. -/
def Interval.pick? (i : Interval) (k : Int) : Option Decimal :=
  let below := i.floorAt k
  let above : Decimal := ⟨below.digits + 1, k⟩
  match i.contains below, i.contains above with
  | false, false => none
  | true, false => some below
  | false, true => some above
  | true, true =>
    -- Twice the number against the sum of the two neighbours.
    match compareScaled (2 * below.digits + 1) k (2 * i.middle) i.exponent with
    | .gt => some below
    | _ => some above

/-- The power of ten of the leading digit. The estimate from the binary logarithm is at most one
off, to either side. -/
def Interval.leading (i : Interval) : Int :=
  let estimate := ((i.middle.log2 : Int) + i.exponent) * 30103 / 100000
  let reaches (k : Int) : Bool := compareScaled 1 k i.middle i.exponent ≠ .gt
  if reaches (estimate + 1) then estimate + 1 else if reaches estimate then estimate
  else estimate - 1

/-- The same decimal without trailing zeros, given as many steps as there may be zeros. -/
def stripZeros : Nat → Decimal → Decimal
  | 0, d => d
  | steps + 1, d =>
    if d.digits ≠ 0 ∧ d.digits % 10 = 0 then stripZeros steps ⟨d.digits / 10, d.exponent + 1⟩ else d

/-- The decimal with the fewest digits in the interval. Seventeen digits identify every double. -/
def shortest (i : Interval) : Decimal :=
  let lead := i.leading
  let found := (List.range 17).findSome? fun n => i.pick? (lead - (n : Nat))
  stripZeros 20 (found.getD (i.floorAt (lead - 17)))

/-- The number of decimal digits. -/
def length (d : Decimal) : Nat := (Nat.toDigits 10 d.digits).length

/-- The power of ten of the first digit. -/
def lead (d : Decimal) : Int := d.exponent + (d.length : Int) - 1

/-- Positional notation: all digits around a point, with at least one on either side. -/
def positional (d : Decimal) : String :=
  let digits := Nat.toDigits 10 d.digits
  let lead := d.lead
  if lead < 0 then
    String.ofList ('0' :: '.' :: List.replicate (-lead - 1).toNat '0' ++ digits)
  else
    let whole := lead.toNat + 1
    let padded := digits ++ List.replicate (whole - digits.length) '0'
    let rest := padded.drop whole
    String.ofList (padded.take whole ++ '.' :: if rest.isEmpty then ['0'] else rest)

/-- Scientific notation: one digit before the point, and neither a point nor a sign where none is
needed. -/
def scientific (d : Decimal) : String :=
  match Nat.toDigits 10 d.digits with
  | [] => ""
  | [c] => String.ofList [c] ++ "e" ++ toString d.lead
  | c :: rest => String.ofList (c :: '.' :: rest) ++ "e" ++ toString d.lead

/-- A decimal is written positionally from `1e-4` up to below `1e16`, otherwise scientifically. -/
def text (d : Decimal) : String :=
  if -4 ≤ d.lead ∧ d.lead < 16 then d.positional else d.scientific

end Decimal

namespace Binary64

/-- The interval of reals that round to a finite number other than zero. -/
def interval (x : Binary64) : Decimal.Interval :=
  .around x.mantissa x.exponent (x.fraction = 0 && 1 < x.exponentField)

/-- The text of a number: the fewest digits that read back to it. -/
def text (x : Binary64) : String :=
  let sign := if x.isNegative then "-" else ""
  if x.isNaN then "NaN"
  else if x.isInfinite then sign ++ "inf"
  else if x.isZero then sign ++ "0.0"
  else sign ++ (Decimal.shortest x.interval).text

/-- The double nearest to a decimal. Decimals far outside the range of doubles are settled by their
leading digit. -/
def ofDecimal (negative : Bool) (d : Decimal) : Binary64 :=
  if d.digits = 0 then zero negative
  else if 310 < d.lead then infinity negative
  else if d.lead < -330 then zero negative
  else ofRatio negative (d.digits * Nat.pow 10 d.exponent.toNat) (Nat.pow 10 (-d.exponent).toNat)

end Binary64

end ErlangMachine
