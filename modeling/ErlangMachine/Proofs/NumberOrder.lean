import ErlangMachine.Proofs.NearestDouble
import ErlangMachine.Proofs.Preorder

/-!
# The order of numbers

A finite double has an exact value, and the order of doubles is the order of these values. An
integer is rounded to the nearest double before it is compared with a float
(`abs_sub_value_ofInt_le`), and rounding never carries a number past a double.

For integers and finite floats together, the outcome is the order of the exact values except in one
case: an integer is equal to the float that it rounds to, whether it has the same value or not. The
order of numbers is transitive except where two integers of one rounding stand on either side of it.
-/

namespace ErlangMachine

namespace Binary64

/-! ## Floats -/

/-- Finite numbers compare by their values. -/
theorem compareFloats_eq {x y : Binary64} (hx : x.isFinite = true) (hy : y.isFinite = true) :
    Term.compareFloats x y = compare x.value y.value := by
  have hnumber {z : Binary64} (hz : z.isFinite = true) : z.isNaN = false := by
    have hmagnitude := isFinite_iff.1 hz
    exact decide_eq_false (by show ¬ 2047 * 2 ^ 52 < z.magnitude; omega)
  unfold Term.compareFloats compare?
  rw [hnumber hx, hnumber hy, value_eq, value_eq]
  show compare x.position y.position = _
  rw [← cmp_eq_compare, ← cmp_eq_compare, valueAt_strictMono.cmp_map_eq]

/-! ## Rounded integers -/

/-- The place of a rounded integer on the number line. -/
theorem position_ofInt {v : Int} (h : v.natAbs < 2 ^ 64) :
    (ofInt v).position = if v < 0 then -(Format.double.round v.natAbs 1 : Int)
      else Format.double.round v.natAbs 1 := by
  have hfinite := Format.round_double_lt h
  have hinfinity : Format.double.infinity = 2047 * 2 ^ 52 := by decide
  have hmagnitude : Format.double.round v.natAbs 1 < 2 ^ 63 := by omega
  unfold position ofInt ofRatio
  rw [isNegative_ofMagnitude _ hmagnitude, magnitude_ofMagnitude _ hmagnitude]
  simp only [decide_eq_true_eq]

/-- No point of the number line is nearer to a natural number than the one it rounds to. -/
theorem abs_sub_valueAt_round_le {n : Nat} (h : n < 2 ^ 64) (p : Int) :
    |(n : ℚ) - valueAt (Format.double.round n 1)| ≤ |(n : ℚ) - valueAt p| := by
  have hright (m : Nat) :
      |(n : ℚ) - valueAt (Format.double.round n 1)| ≤ |(n : ℚ) - valueAt m| := by
    obtain ⟨k, hk, hround⟩ := exists_nearest_round n one_ne_zero
    have hfinite := Format.round_double_lt h
    rw [Nat.cast_one, div_one] at hk
    obtain rfl : Format.double.round n 1 = k := by omega
    exact hk.le m
  rcases le_or_gt 0 p with hp | hp
  · obtain ⟨m, rfl⟩ := Int.eq_ofNat_of_zero_le hp
    exact hright m
  · -- On the left of zero, zero itself is nearer.
    have hvalue : valueAt p < 0 := valueAt_zero ▸ valueAt_strictMono hp
    have hn : (0 : ℚ) ≤ n := Nat.cast_nonneg n
    refine (hright 0).trans ?_
    rw [Nat.cast_zero, valueAt_zero, sub_zero, abs_of_nonneg hn, abs_of_nonneg (by linarith)]
    linarith

/-- No point of the number line is nearer to an integer than the one it rounds to. -/
theorem abs_sub_value_ofInt_le {v : Int} (h : v.natAbs < 2 ^ 64) (p : Int) :
    |(v : ℚ) - (ofInt v).value| ≤ |(v : ℚ) - valueAt p| := by
  rw [value_eq, position_ofInt h]
  split
  · rename_i hneg
    -- The mirror image of the number is a natural number.
    have hmirror (q : Int) : |(v : ℚ) - valueAt q| = |(v.natAbs : ℚ) - valueAt (-q)| := by
      have hv : (v.natAbs : ℚ) = -(v : ℚ) := by
        rw [← Int.cast_natCast, Int.natCast_natAbs, abs_of_neg hneg, Int.cast_neg]
      rw [hv, valueAt_neg, ← abs_neg]
      congr 1
      ring
    rw [hmirror, hmirror, neg_neg]
    exact abs_sub_valueAt_round_le h _
  · rename_i hpos
    have hv : (v : ℚ) = v.natAbs := by
      rw [← Int.cast_natCast, Int.natCast_natAbs, abs_of_nonneg (not_lt.1 hpos)]
    rw [hv]
    exact abs_sub_valueAt_round_le h _

/-- A whole number of at most 53 bits, or the next one, is the value of a magnitude. -/
theorem exists_units_eq {n : Nat} (h : n ≤ 2 ^ 53) : ∃ m, units m = n * unitsPerOne := by
  rcases Nat.eq_zero_or_pos n with rfl | hn
  · exact ⟨0, by rw [units_zero, Nat.zero_mul]⟩
  · have hlow : 2 ^ n.log2 ≤ n := Nat.log2_self_le hn.ne'
    have hhigh : n < 2 ^ (n.log2 + 1) := Nat.lt_log2_self
    generalize n.log2 = L at hlow hhigh
    -- Shifted until its leading bit is the hidden one, the number is a significand.
    have hleast : 2 ^ 52 ≤ n * 2 ^ (52 - L) :=
      calc 2 ^ 52 ≤ 2 ^ (L + (52 - L)) := Nat.pow_le_pow_right (by decide) (by omega)
        _ = 2 ^ L * 2 ^ (52 - L) := Nat.pow_add _ _ _
        _ ≤ n * 2 ^ (52 - L) := Nat.mul_le_mul_right _ hlow
    have hmost : n * 2 ^ (52 - L) ≤ 2 ^ 53 := by
      rcases Nat.lt_or_ge 52 L with hlarge | hsmall
      · rw [show 52 - L = 0 by omega, Nat.pow_zero, Nat.mul_one]
        exact h
      · calc n * 2 ^ (52 - L) ≤ 2 ^ (L + 1) * 2 ^ (52 - L) := Nat.mul_le_mul_right _ hhigh.le
          _ = 2 ^ 53 := by
            rw [← Nat.pow_add]
            congr 1
            omega
    refine ⟨(1074 - (52 - L)) * 2 ^ 52 + n * 2 ^ (52 - L), ?_⟩
    rw [units_add hmost (.inr hleast), Nat.mul_assoc, ← Nat.pow_add]
    have hunits : (-Format.double.minExponent).toNat = 1074 := rfl
    unfold unitsPerOne
    congr 2
    omega

/-- An integer that needs no more than 53 bits is not changed by rounding. -/
theorem value_ofInt {v : Int} (h : v.natAbs ≤ 2 ^ 53) : (ofInt v).value = v := by
  obtain ⟨m, hm⟩ := exists_units_eq h
  have hvalue : valueAt m = v.natAbs := by
    rw [valueAt_natCast, hm, Nat.cast_mul, mul_div_cancel_right₀ _ unitsPerOne_pos.ne']
  obtain ⟨p, hp⟩ : ∃ p, valueAt p = v := by
    rcases Int.natAbs_eq v with hv | hv
    · refine ⟨m, ?_⟩
      rw [hvalue, ← Int.cast_natCast, ← hv]
    · refine ⟨-m, ?_⟩
      rw [valueAt_neg, hvalue, ← Int.cast_natCast, ← Int.cast_neg, ← hv]
  have hrange : v.natAbs < 2 ^ 64 := by omega
  have hnearest := abs_sub_value_ofInt_le hrange p
  rw [hp, sub_self, abs_zero] at hnearest
  exact (sub_eq_zero.1 (abs_nonpos_iff.1 hnearest)).symm

end Binary64

/-! ## Integers and floats -/

/-- An integer or a finite float. -/
inductive Number where
  /-- A 64-bit integer. -/
  | integer (i : Int64)
  /-- A double that is neither infinite nor a NaN. -/
  | float (x : Binary64) (finite : x.isFinite = true)

namespace Number

variable {a b : Number}

/-- The number as a term. -/
def term : Number → Term
  | integer i => .integer i
  | float x _ => .float x

/-- The exact value. -/
def value : Number → ℚ
  | integer i => i.toInt
  | float x _ => x.value

/-- The value of the nearest double. -/
def rounded : Number → ℚ
  | integer i => (Binary64.ofInt i.toInt).value
  | float x _ => x.value

/-- Whether the number is an integer. -/
def isInteger : Number → Bool
  | integer _ => true
  | float .. => false

/-- Whether one of two numbers is an integer and the other a float. -/
def isMixed (a b : Number) : Bool := a.isInteger != b.isInteger

/-- Two numbers are of one kind if and only if a third one is of another kind than both or than
neither. -/
theorem isMixed_eq_false_iff (a b c : Number) :
    a.isMixed c = false ↔ a.isMixed b = b.isMixed c := by
  unfold isMixed
  cases a.isInteger <;> cases b.isInteger <;> cases c.isInteger <;> decide

/-- No double is nearer to a number than the one it rounds to. -/
theorem abs_sub_rounded_le (a : Number) (x : Binary64) :
    |a.value - a.rounded| ≤ |a.value - x.value| := by
  cases a with
  | integer i =>
    have hlow := i.le_toInt
    have hhigh := i.toInt_lt
    rw [x.value_eq]
    exact Binary64.abs_sub_value_ofInt_le (by omega) x.position
  | float y _ =>
    show |y.value - y.value| ≤ _
    rw [sub_self, abs_zero]
    exact abs_nonneg _

/-- A number that has the value of a double rounds to it. -/
theorem rounded_eq_value {x : Binary64} (h : a.value = x.value) : a.rounded = a.value := by
  have hnearest := a.abs_sub_rounded_le x
  rw [← h, sub_self, abs_zero] at hnearest
  exact (sub_eq_zero.1 (abs_nonpos_iff.1 hnearest)).symm

/-- What a number rounds to depends on its value only. -/
theorem rounded_congr (h : a.value = b.value) : a.rounded = b.rounded := by
  cases a with
  | float x hx => exact ((rounded_eq_value h.symm).trans h.symm).symm
  | integer i =>
    cases b with
    | float y hy => exact (rounded_eq_value h).trans h
    | integer j =>
      show (Binary64.ofInt i.toInt).value = (Binary64.ofInt j.toInt).value
      rw [Int.cast_inj.1 h]

/-- Every number rounds to a double. -/
theorem exists_rounded_eq (a : Number) : ∃ x : Binary64, a.rounded = x.value := by
  cases a with
  | integer i => exact ⟨_, rfl⟩
  | float x _ => exact ⟨x, rfl⟩

/-- Rounding keeps numbers in order. -/
theorem rounded_mono (h : a.value ≤ b.value) : a.rounded ≤ b.rounded := by
  rcases h.eq_or_lt with heq | hlt
  · exact (rounded_congr heq).le
  · by_contra hgt
    obtain ⟨x, hx⟩ := a.exists_rounded_eq
    obtain ⟨y, hy⟩ := b.exists_rounded_eq
    have ha := a.abs_sub_rounded_le y
    have hb := b.abs_sub_rounded_le x
    rw [← hy] at ha
    rw [← hx] at hb
    -- The middle between the two doubles is not above the lower number, nor below the upper one.
    have hlow : a.rounded + b.rounded ≤ 2 * a.value := by
      by_contra hmiddle
      have hnear : |a.value - b.rounded| < a.rounded - a.value := by
        rw [abs_lt]
        constructor <;> linarith
      linarith [neg_abs_le (a.value - a.rounded)]
    have hhigh : 2 * b.value ≤ a.rounded + b.rounded := by
      by_contra hmiddle
      have hnear : |b.value - a.rounded| < b.value - b.rounded := by
        rw [abs_lt]
        constructor <;> linarith
      linarith [le_abs_self (b.value - b.rounded)]
    linarith

/-- Numbers that round to different doubles compare as these do. -/
theorem compare_rounded (h : a.rounded ≠ b.rounded) :
    compare a.rounded b.rounded = compare a.value b.value := by
  rcases lt_or_gt_of_ne h with hlt | hgt
  · have hvalue : a.value < b.value := not_le.1 fun hle => hlt.not_ge (rounded_mono hle)
    rw [compare_lt_iff_lt.2 hlt, compare_lt_iff_lt.2 hvalue]
  · have hvalue : b.value < a.value := not_le.1 fun hle => hgt.not_ge (rounded_mono hle)
    rw [compare_gt_iff_gt.2 hgt, compare_gt_iff_gt.2 hvalue]

/-- A mixed comparison is one of doubles, any other one is exact. -/
theorem compare_term (a b : Number) : a.term.compare b.term =
    if a.isMixed b then compare a.rounded b.rounded else compare a.value b.value := by
  cases a with
  | integer i =>
    cases b with
    | integer j =>
      show compare i.toInt j.toInt = compare (i.toInt : ℚ) (j.toInt : ℚ)
      rw [← cmp_eq_compare, ← cmp_eq_compare]
      exact (Int.cast_strictMono.cmp_map_eq i.toInt j.toInt).symm
    | float y hy => exact Binary64.compareFloats_eq (Binary64.isFinite_ofInt i) hy
  | float x hx =>
    cases b with
    | integer j => exact Binary64.compareFloats_eq hx (Binary64.isFinite_ofInt j)
    | float y hy => exact Binary64.compareFloats_eq hx hy

/-- One number is not above another if it does not exceed it, after rounding if they are mixed. -/
theorem compare_term_ne_gt_iff (a b : Number) : a.term.compare b.term ≠ .gt ↔
    if a.isMixed b then a.rounded ≤ b.rounded else a.value ≤ b.value := by
  rw [compare_term]
  split
  · exact compare_le_iff_le
  · exact compare_le_iff_le

/-- One number that is not above another is not above it after rounding. -/
theorem rounded_le_of_compare_term (h : a.term.compare b.term ≠ .gt) : a.rounded ≤ b.rounded := by
  rw [compare_term_ne_gt_iff] at h
  split at h
  · exact h
  · exact rounded_mono h

/-- The order of three numbers is transitive, unless two integers that round to the same float come
in the wrong order around it. -/
theorem compare_term_trans_iff (a b c : Number) :
    (a.term.compare b.term ≠ .gt → b.term.compare c.term ≠ .gt → a.term.compare c.term ≠ .gt) ↔
      ¬ (a.isMixed b = true ∧ b.isMixed c = true ∧ a.rounded = b.rounded ∧ b.rounded = c.rounded ∧
        c.value < a.value) := by
  constructor
  · rintro htrans ⟨hab, hbc, hroundedab, hroundedbc, hlt⟩
    have hpure := (isMixed_eq_false_iff a b c).2 (hab.trans hbc.symm)
    have hac := htrans (by rw [compare_term_ne_gt_iff, if_pos hab]; exact hroundedab.le)
      (by rw [compare_term_ne_gt_iff, if_pos hbc]; exact hroundedbc.le)
    rw [compare_term_ne_gt_iff, hpure] at hac
    exact hlt.not_ge hac
  · intro hexcept hab hbc
    have hroundedab := rounded_le_of_compare_term hab
    have hroundedbc := rounded_le_of_compare_term hbc
    rw [compare_term_ne_gt_iff] at hab hbc ⊢
    split
    · exact hroundedab.trans hroundedbc
    · rename_i hpure
      have hkind := (isMixed_eq_false_iff a b c).1 (Bool.eq_false_iff.2 hpure)
      by_contra hlt
      rw [not_le] at hlt
      cases hmixed : a.isMixed b with
      | false =>
        rw [hmixed] at hab
        rw [← hkind, hmixed] at hbc
        exact hlt.not_ge (hab.trans hbc)
      | true =>
        -- The third number is below the first, so that all of them round to the same double.
        have hroundedca := rounded_mono hlt.le
        exact hexcept ⟨hmixed, hkind ▸ hmixed, hroundedab.antisymm (hroundedbc.trans hroundedca),
          hroundedbc.antisymm (hroundedca.trans hroundedab), hlt⟩

/-- Numbers compare by their exact values, whichever of them comes first, except that an integer and
a float are equal as soon as the integer rounds to the float. The order of three numbers is
transitive except around a float to which two integers round. An integer rounds to the nearest
double, and up to `2 ^ 53` it rounds to itself. -/
theorem compare_term_exact_or_rounded (a b c : Number) :
    a.term.compare b.term =
        (if a.isMixed b = true ∧ a.rounded = b.rounded then .eq else compare a.value b.value) ∧
      b.term.compare a.term = (a.term.compare b.term).swap ∧
      ((a.term.compare b.term ≠ .gt → b.term.compare c.term ≠ .gt → a.term.compare c.term ≠ .gt) ↔
        ¬ (a.isMixed b = true ∧ b.isMixed c = true ∧ a.rounded = b.rounded ∧
          b.rounded = c.rounded ∧ c.value < a.value)) ∧
      (∀ x : Binary64, x.isFinite = true → |a.value - a.rounded| ≤ |a.value - x.value|) ∧
      (|a.value| ≤ 2 ^ 53 → a.rounded = a.value) := by
  refine ⟨?_, Term.compare_swap a.term b.term, compare_term_trans_iff a b c,
    fun x _ => a.abs_sub_rounded_le x, fun hsmall => ?_⟩
  · -- Rounding is monotone, so it only matters where it makes two different numbers equal.
    rw [compare_term]
    by_cases hmixed : a.isMixed b = true
    · by_cases hrounded : a.rounded = b.rounded
      · rw [if_pos hmixed, if_pos ⟨hmixed, hrounded⟩]
        exact compare_eq_iff_eq.2 hrounded
      · rw [if_pos hmixed, if_neg fun h => hrounded h.2]
        exact compare_rounded hrounded
    · rw [if_neg hmixed, if_neg fun h => hmixed h.1]
  · cases a with
    | float x _ => rfl
    | integer i =>
      refine Binary64.value_ofInt ?_
      have hbound : |i.toInt| ≤ 2 ^ 53 := by
        have hcast : ((|i.toInt| : Int) : ℚ) ≤ ((2 ^ 53 : Int) : ℚ) := by
          rw [Int.cast_abs]
          exact hsmall.trans (by norm_num)
        exact Int.cast_le.1 hcast
      rw [Int.abs_eq_natAbs] at hbound
      omega

/-- The integer after `2 ^ 53` equals the float `2 ^ 53`, which it exceeds, and this float equals
the integer `2 ^ 53`, so that the order goes down from the first integer to the second without a
step down. -/
theorem compare_term_next_integer :
    let x : Binary64 := ⟨0x4340000000000000⟩
    x.isFinite = true ∧ x.value = 2 ^ 53 ∧
      (Term.integer 9007199254740993).compare (.float x) = .eq ∧
      compare (9007199254740993 : ℚ) x.value = .gt ∧
      (Term.float x).compare (.integer 9007199254740992) = .eq ∧
      (Term.integer 9007199254740993).compare (.integer 9007199254740992) = .gt := by
  intro x
  have hx : x = Binary64.ofInt (2 ^ 53) := by decide +kernel
  have hvalue : x.value = 2 ^ 53 := by
    rw [hx, Binary64.value_ofInt (by decide)]
    norm_num
  refine ⟨by decide +kernel, hvalue, by decide +kernel, ?_, by decide +kernel, by decide +kernel⟩
  rw [hvalue]
  exact compare_gt_iff_gt.2 (by norm_num)

end Number

end ErlangMachine
