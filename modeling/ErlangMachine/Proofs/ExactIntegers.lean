import ErlangMachine.Linker
import ErlangMachine.Proofs.Segments

/-!
# Exact shifts and divisions

The shifts and the divisions of `erlang` against the numbers that they stand for. A shift by `n`
stands for the product with `2 ^ n`, rounded down, and a division for the quotient of rationals,
rounded toward zero. `Answers v` is what the natives promise of every result: the integer `v` if 64
bits hold it, and the fault `badarith` otherwise.

Both promises have one exception. A shift to the left by 64 or more is refused before its result is
looked at, though a shifted zero is zero (`shifts_exact`). And the remainder of the least integer by
minus one, which is zero, is refused together with the quotient, which does not fit
(`divisions_exact`).
-/

namespace ErlangMachine

/-- The value of `x` shifted by `n` places to the left, or to the right if `n` is negative: the
product with a power of two, rounded down. -/
def scaled (x n : ℤ) : ℤ := ⌊(x : ℚ) * 2 ^ n⌋

/-- A rational number rounded toward zero. -/
def towardZero (q : ℚ) : ℤ := if 0 ≤ q then ⌊q⌋ else ⌈q⌉

/-- An operation with the exact result `v` gives this integer if it fits into 64 bits, and raises
`badarith` otherwise. -/
inductive Answers (v : ℤ) : Except Fault Term → Prop where
  | value {i : Int64} (h : i.toInt = v) : Answers v (.ok (.integer i))
  | fault (h : ¬ (-2 ^ 63 ≤ v ∧ v < 2 ^ 63)) : Answers v (.error .badarith)

/-- What a call of a native of `erlang` gives, with the world after it. -/
def Linker.callErlang? (name : String) (arguments : List Term) (w : World) :
    Option (Except Fault Term × World) :=
  match withErlang.resolve? ⟨"erlang", name, arguments.length⟩ with
  | some (.native _ run) => some (run arguments w)
  | _ => none

/-! ## Shifted values -/

/-- A shift to the left multiplies. -/
theorem scaled_natCast (x : ℤ) (n : ℕ) : scaled x n = x * 2 ^ n := by
  have hcast : (x : ℚ) * 2 ^ (n : ℤ) = ((x * 2 ^ n : ℤ) : ℚ) := by
    push_cast
    rw [zpow_natCast]
  unfold scaled
  rw [hcast, Int.floor_intCast]

/-- A shift to the right divides and rounds down. -/
theorem scaled_neg_natCast (x : ℤ) (n : ℕ) : scaled x (-n) = x / 2 ^ n := by
  have hcast : (x : ℚ) * 2 ^ (-(n : ℤ)) = (x : ℚ) / ((2 ^ n : ℕ) : ℚ) := by
    push_cast
    rw [zpow_neg, zpow_natCast, div_eq_mul_inv]
  unfold scaled
  rw [hcast, Rat.floor_intCast_div_natCast]
  push_cast
  rfl

/-- Zero stays zero. -/
theorem scaled_zero (n : ℤ) : scaled 0 n = 0 := by
  unfold scaled
  rw [Int.cast_zero, zero_mul, Int.floor_zero]

/-- Any other integer has more than 64 bits after 64 places. -/
theorem scaled_not_fits {x : ℤ} (hx : x ≠ 0) {n : ℕ} (hn : 64 ≤ n) :
    ¬ (-2 ^ 63 ≤ scaled x n ∧ scaled x n < 2 ^ 63) := by
  rw [scaled_natCast]
  obtain ⟨k, rfl⟩ := Nat.exists_eq_add_of_le hn
  have hone : (1 : ℤ) ≤ 2 ^ k := one_le_pow₀ (by norm_num)
  have hpower : (2 : ℤ) ^ 64 ≤ 2 ^ (64 + k) := by
    rw [pow_add]
    nlinarith
  rintro ⟨hlow, hhigh⟩
  rcases lt_or_gt_of_ne hx with hneg | hpos
  · nlinarith
  · nlinarith

/-! ## The shifts of the machine -/

namespace Integer

variable {n : Int64}

/-- A count between zero and the width is the number of places. -/
theorem toNat_smod (hlow : 0 ≤ n.toInt) (hhigh : n.toInt < 64) :
    (n.toBitVec.smod 64).toNat = n.toInt.toNat := by
  have hcount : (n.toBitVec.smod 64).toInt = n.toInt := by
    rw [BitVec.toInt_smod]
    show n.toInt.fmod 64 = n.toInt
    rw [Int.fmod_eq_emod_of_nonneg _ (by omega)]
    exact Int.emod_eq_of_lt hlow hhigh
  have hnat := BitVec.toInt_eq_toNat_bmod (n.toBitVec.smod 64)
  rw [hcount, Int.bmod_def] at hnat
  split at hnat <;> omega

/-- The bits of an integer shifted to the left stand for its product, as far as 64 bits go. -/
theorem toInt_shiftLeft (x : Int64) (hlow : 0 ≤ n.toInt) (hhigh : n.toInt < 64) :
    (x <<< n).toInt = (x.toInt * 2 ^ n.toInt.toNat).bmod (2 ^ 64) := by
  show (x <<< n).toBitVec.toInt = _
  rw [Int64.toBitVec_shiftLeft, BitVec.shiftLeft_eq', toNat_smod hlow hhigh, BitVec.toInt_shiftLeft,
    Nat.shiftLeft_eq]
  have hvalue : x.toInt = (x.toBitVec.toNat : ℤ).bmod (2 ^ 64) :=
    BitVec.toInt_eq_toNat_bmod x.toBitVec
  rw [hvalue, Int.bmod_mul_bmod]
  push_cast
  rfl

/-- Bits shifted to the right stand for the quotient. -/
theorem toInt_shiftRight (x : Int64) (hlow : 0 ≤ n.toInt) (hhigh : n.toInt < 64) :
    (x >>> n).toInt = x.toInt / 2 ^ n.toInt.toNat := by
  show (x >>> n).toBitVec.toInt = _
  rw [Int64.toBitVec_shiftRight, BitVec.toInt_sshiftRight', toNat_smod hlow hhigh,
    Int.shiftRight_eq_div_pow]
  rfl

/-- Shifting back gives the integer again if and only if no bit was lost, and then the bits stand
for the product. -/
theorem shiftLeft_shiftRight_eq_iff (x : Int64) (hlow : 0 ≤ n.toInt) (hhigh : n.toInt < 64) :
    (x <<< n) >>> n = x ↔ (x <<< n).toInt = x.toInt * 2 ^ n.toInt.toNat := by
  have hpos : (0 : ℤ) < 2 ^ n.toInt.toNat := by positivity
  rw [← Int64.toInt_inj, toInt_shiftRight _ hlow hhigh]
  constructor
  · intro hback
    -- What was shifted in from the right are zeros, so the quotient leaves no remainder.
    have hwidth : (2 : ℤ) ^ n.toInt.toNat ∣ 2 ^ 64 := pow_dvd_pow 2 (by omega)
    have hwrap : (2 : ℤ) ^ 64 ∣ (x <<< n).toInt - x.toInt * 2 ^ n.toInt.toNat := by
      rw [toInt_shiftLeft x hlow hhigh]
      exact Int.dvd_bmod_sub_self
    have hdvd : (2 : ℤ) ^ n.toInt.toNat ∣ (x <<< n).toInt :=
      (dvd_iff_dvd_of_dvd_sub (hwidth.trans hwrap)).2 (Dvd.intro_left _ rfl)
    rw [← Int.ediv_mul_cancel hdvd, hback]
  · intro hvalue
    rw [hvalue, Int.mul_ediv_cancel _ hpos.ne']

theorem toInt_bounds (x : Int64) : -2 ^ 63 ≤ x.toInt ∧ x.toInt < 2 ^ 63 := fits_iff.1 (fits_toInt x)

/-- A shift to the left by less than the width. -/
theorem shift?_of_lt (x : Int64) (hlow : 0 ≤ n.toInt) (hhigh : n.toInt < 64) :
    shift? x n = ofInt? (x.toInt * 2 ^ n.toInt.toNat) := by
  have hcount : 0 ≤ n ∧ n < 64 := by
    rw [Int64.le_iff_toInt_le, Int64.lt_iff_toInt_lt]
    exact ⟨hlow, hhigh⟩
  unfold shift?
  rw [if_pos hcount.1, if_pos hcount.2]
  dsimp only
  have hback := shiftLeft_shiftRight_eq_iff x hlow hhigh
  split
  case isTrue hsame => exact (ofInt?_of_toInt (hback.1 hsame)).symm
  case isFalse hlost =>
    refine (ofInt?_eq_none fun hfits => hlost (hback.2 ?_)).symm
    rw [toInt_shiftLeft x hlow hhigh]
    exact Int.bmod_eq_of_le (by omega) (by omega)

/-- A shift to the left by the width or more. -/
theorem shift?_of_le (x : Int64) (h : 64 ≤ n.toInt) : shift? x n = none := by
  have hcount : 0 ≤ n ∧ ¬ n < 64 := by
    rw [Int64.le_iff_toInt_le, Int64.lt_iff_toInt_lt]
    exact ⟨by show (0 : ℤ) ≤ _; omega, by show ¬ _ < (64 : ℤ); omega⟩
  unfold shift?
  rw [if_pos hcount.1, if_neg hcount.2]

/-- After 64 places only copies of the sign are left. -/
theorem ediv_two_pow_of_le (x : Int64) {k : ℕ} (hk : 64 ≤ k) :
    x.toInt / 2 ^ k = if x.toInt < 0 then -1 else 0 := by
  obtain ⟨hlow, hhigh⟩ := toInt_bounds x
  have hpower : (2 : ℤ) ^ 64 ≤ 2 ^ k := pow_le_pow_right₀ (by norm_num) hk
  split
  case isTrue hneg =>
    exact Int.ediv_eq_neg_one_of_neg_of_le hneg (by omega)
  case isFalse hnonneg => exact Int.ediv_eq_zero_of_lt (by omega) (by omega)

/-- A shift to the right. -/
theorem shift?_of_neg (x : Int64) (h : n.toInt < 0) :
    shift? x n = ofInt? (x.toInt / 2 ^ (-n.toInt).toNat) := by
  have hnegative : ¬ 0 ≤ n := by
    rw [Int64.le_iff_toInt_le]
    show ¬ (0 : ℤ) ≤ _
    omega
  unfold shift?
  rw [if_neg hnegative]
  by_cases hfar : n.toInt ≤ -64
  · rw [if_pos (Int64.le_iff_toInt_le.2 hfar), ediv_two_pow_of_le x (by omega)]
    have hsign : x < 0 ↔ x.toInt < 0 := Int64.lt_iff_toInt_lt
    by_cases hneg : x < 0
    · rw [if_pos hneg, if_pos (hsign.1 hneg)]
      exact (ofInt?_of_toInt rfl).symm
    · rw [if_neg hneg, if_neg (hsign.not.1 hneg)]
      exact (ofInt?_of_toInt rfl).symm
  · rw [if_neg fun hle => hfar (Int64.le_iff_toInt_le.1 hle)]
    have hneg : (-n).toInt = -n.toInt := by
      rw [Int64.toInt_neg]
      exact Int.bmod_eq_of_le (by omega) (by omega)
    have hvalue := toInt_shiftRight x (n := -n) (by omega) (by omega)
    rw [hneg] at hvalue
    exact (ofInt?_of_toInt hvalue).symm

/-- A shift is exact, except that a zero is not shifted to the left by the width or more. -/
theorem shift?_eq (x n : Int64) :
    shift? x n = if x = 0 ∧ 64 ≤ n.toInt then none else ofInt? (scaled x.toInt n.toInt) := by
  rcases lt_or_ge n.toInt 0 with hneg | hnonneg
  · have hcount : n.toInt = -((-n.toInt).toNat : ℤ) := by omega
    rw [if_neg (by omega), shift?_of_neg x hneg]
    conv_rhs => rw [hcount, scaled_neg_natCast]
  · have hcount : n.toInt = (n.toInt.toNat : ℤ) := by omega
    rcases lt_or_ge n.toInt 64 with hlt | hge
    · rw [if_neg (by omega), shift?_of_lt x hnonneg hlt]
      conv_rhs => rw [hcount, scaled_natCast]
    · rw [shift?_of_le x hge]
      by_cases hx : x = 0
      · rw [if_pos ⟨hx, hge⟩]
      · have hvalue : x.toInt ≠ 0 := fun h => hx (Int64.toInt_inj.1 h)
        rw [if_neg fun h => hx h.1, hcount, ofInt?_eq_none (scaled_not_fits hvalue (by omega))]

/-- A shift to the right is exact, except that a zero is not shifted to the left by the width or
more. The least count has no negation, but no other integer could be shifted as far as that. -/
theorem shiftRight?_eq (x n : Int64) :
    shiftRight? x n =
      if x = 0 ∧ n.toInt ≤ -64 then none else ofInt? (scaled x.toInt (-n.toInt)) := by
  obtain ⟨hlow, hhigh⟩ := toInt_bounds n
  unfold shiftRight? neg?
  by_cases hmin : n.toInt = -2 ^ 63
  · rw [ofInt?_eq_none (by omega), Option.bind_none]
    by_cases hx : x = 0
    · rw [if_pos ⟨hx, by omega⟩]
    · have hvalue : x.toInt ≠ 0 := fun h => hx (Int64.toInt_inj.1 h)
      have hcount : -n.toInt = ((2 ^ 63 : ℕ) : ℤ) := by omega
      rw [if_neg fun h => hx h.1, hcount, ofInt?_eq_none (scaled_not_fits hvalue (by norm_num))]
  · have hneg : (-n).toInt = -n.toInt := by
      rw [Int64.toInt_neg]
      exact Int.bmod_eq_of_le (by omega) (by omega)
    have hturn : 64 ≤ -n.toInt ↔ n.toInt ≤ -64 := by omega
    rw [ofInt?_of_toInt hneg, Option.bind_some, shift?_eq, hneg]
    simp only [hturn]

end Integer

/-! ## Quotients -/

/-- Rounding toward zero does not depend on the sign. -/
theorem towardZero_neg (q : ℚ) : towardZero (-q) = -towardZero q := by
  unfold towardZero
  rcases lt_trichotomy q 0 with hneg | rfl | hpos
  · rw [if_pos (by linarith), if_neg (by linarith), Int.floor_neg]
  · simp
  · rw [if_neg (by linarith), if_pos hpos.le, Int.ceil_neg]

/-- Numbers that are not negative are rounded down. -/
theorem towardZero_natCast_div (m n : ℕ) : towardZero ((m : ℚ) / n) = (m : ℤ).tdiv n := by
  have hfloor := Rat.floor_intCast_div_natCast m n
  rw [Int.cast_natCast] at hfloor
  unfold towardZero
  rw [if_pos (by positivity), hfloor]
  exact Int.ofNat_tdiv m n

/-- The quotient of two integers, rounded toward zero. -/
theorem towardZero_div (x y : ℤ) : towardZero ((x : ℚ) / y) = x.tdiv y := by
  obtain ⟨m, rfl | rfl⟩ := x.eq_nat_or_neg
  · obtain ⟨n, rfl | rfl⟩ := y.eq_nat_or_neg
    · exact towardZero_natCast_div m n
    · rw [Int.cast_neg, div_neg, towardZero_neg, Int.tdiv_neg]
      exact congrArg _ (towardZero_natCast_div m n)
  · obtain ⟨n, rfl | rfl⟩ := y.eq_nat_or_neg
    · rw [Int.cast_neg, neg_div, towardZero_neg, Int.neg_tdiv]
      exact congrArg _ (towardZero_natCast_div m n)
    · rw [Int.cast_neg, Int.cast_neg, neg_div_neg_eq, Int.neg_tdiv, Int.tdiv_neg, neg_neg]
      exact towardZero_natCast_div m n

namespace Integer

/-- The one quotient that does not fit. -/
def IsOverflow (x y : Int64) : Prop := x = Int64.minValue ∧ y = -1

/-- There is a quotient if the divisor is not zero, except for the one that does not fit. -/
theorem hasQuotient_iff (x y : Int64) : hasQuotient x y = true ↔ y ≠ 0 ∧ ¬ IsOverflow x y := by
  unfold hasQuotient IsOverflow
  simp [imp_iff_not_or]

/-- There is no quotient by zero. -/
theorem hasQuotient_zero (x : Int64) : hasQuotient x 0 = false := by
  rw [← Bool.not_eq_true, hasQuotient_iff]
  exact fun h => h.1 rfl

/-- Division is exact. -/
theorem div?_eq (x : Int64) {y : Int64} (hy : y ≠ 0) :
    div? x y = ofInt? (x.toInt.tdiv y.toInt) := by
  unfold div?
  by_cases hover : IsOverflow x y
  · obtain ⟨rfl, rfl⟩ := hover
    exact (ofInt?_eq_none (by decide)).symm
  · rw [if_pos ((hasQuotient_iff x y).2 ⟨hy, hover⟩)]
    refine (ofInt?_of_toInt ?_).symm
    by_cases hx : x = Int64.minValue
    · exact Int64.toInt_div_of_ne_right x y fun h => hover ⟨hx, h⟩
    · exact Int64.toInt_div_of_ne_left x y hx

/-- The machine's remainder is what is left of `x` after the quotient. -/
theorem eq_tdiv_mul_add_mod (x y : Int64) :
    x.toInt = x.toInt.tdiv y.toInt * y.toInt + (x % y).toInt := by
  rw [Int64.toInt_mod, Int.tdiv_mul_add_tmod]

end Integer

/-! ## The natives -/

namespace Native

/-- An exact result is answered with. -/
theorem answers_integerOr (v : ℤ) : Answers v (integerOr .badarith (Integer.ofInt? v)) := by
  by_cases hfits : -2 ^ 63 ≤ v ∧ v < 2 ^ 63
  · have hvalue : (Int64.ofInt v).toInt = v := Int64.toInt_ofInt_of_le (by omega) (by omega)
    rw [Integer.ofInt?_of_toInt hvalue]
    exact .value hvalue
  · rw [Integer.ofInt?_eq_none hfits]
    exact .fault hfits

/-- A result that fits is not refused. -/
theorem not_answers_badarith {v : ℤ} (h : -2 ^ 63 ≤ v ∧ v < 2 ^ 63) :
    ¬ Answers v (.error .badarith) := by
  rintro ⟨⟩
  contradiction

/-- An operation that is exact unless it refuses a zero, where it should not. -/
theorem answers_iff_of_zero {p : Prop} [Decidable p] {v : ℤ} (h : p → v = 0) :
    let answer := integerOr .badarith (if p then none else Integer.ofInt? v)
    (Answers v answer ↔ ¬ p) ∧ (p → answer = .error .badarith) := by
  intro answer
  by_cases hp : p
  · have hanswer : answer = .error .badarith := by
      show integerOr .badarith (if p then none else Integer.ofInt? v) = _
      rw [if_pos hp]
      rfl
    rw [hanswer, h hp]
    exact ⟨iff_of_false (not_answers_badarith (by norm_num)) (not_not_intro hp), fun _ => rfl⟩
  · have hanswer : answer = integerOr .badarith (Integer.ofInt? v) := by
      show integerOr .badarith (if p then none else Integer.ofInt? v) = _
      rw [if_neg hp]
    rw [hanswer]
    exact ⟨iff_of_true (answers_integerOr v) hp, fun h => absurd h hp⟩

/-- Shifts give the exact product with a power of two, rounded down, or raise `badarith` if it does
not fit into 64 bits. The one exception is that zero is not shifted to the left by 64 places or
more: this raises `badarith`, too. -/
theorem shifts_exact (x y : Int64) (w : World) : ∃ left right,
    Linker.callErlang? "bsl" [.integer x, .integer y] w = some (left, w) ∧
    Linker.callErlang? "bsr" [.integer x, .integer y] w = some (right, w) ∧
    ((Answers ⌊(x.toInt : ℚ) * 2 ^ y.toInt⌋ left ↔ ¬ (x = 0 ∧ 64 ≤ y.toInt)) ∧
      (x = 0 ∧ 64 ≤ y.toInt → left = .error .badarith)) ∧
    (Answers ⌊(x.toInt : ℚ) * 2 ^ (-y.toInt)⌋ right ↔ ¬ (x = 0 ∧ y.toInt ≤ -64)) ∧
      (x = 0 ∧ y.toInt ≤ -64 → right = .error .badarith) := by
  have hzero : ∀ {n : ℤ} {p : Prop}, x = 0 ∧ p → scaled x.toInt n = 0 := by
    rintro n p ⟨rfl, -⟩
    exact scaled_zero n
  refine ⟨integerOr .badarith (Integer.shift? x y), integerOr .badarith (Integer.shiftRight? x y),
    rfl, rfl, ?_, ?_⟩
  · rw [Integer.shift?_eq]
    exact answers_iff_of_zero hzero
  · rw [Integer.shiftRight?_eq]
    exact answers_iff_of_zero hzero

/-- Zero shifted by 64 places is zero, but the shift is refused. -/
theorem shift_of_zero_refused :
    ⌊((0 : Int64).toInt : ℚ) * 2 ^ (64 : Int64).toInt⌋ = (0 : Int64).toInt ∧
      Linker.callErlang? "bsl" [.integer 0, .integer 64] {} = some (.error .badarith, {}) :=
  ⟨scaled_zero _, rfl⟩

/-- Divisions give the quotient rounded toward zero, or raise `badarith` if there is none or it does
not fit into 64 bits. What is left of the dividend always fits, and is given as the remainder except
where the quotient does not fit: there the remainder raises `badarith`, too. -/
theorem divisions_exact (x y : Int64) (w : World) : ∃ quotient remainder,
    Linker.callErlang? "div" [.integer x, .integer y] w = some (quotient, w) ∧
    Linker.callErlang? "rem" [.integer x, .integer y] w = some (remainder, w) ∧
    (y = 0 → quotient = .error .badarith ∧ remainder = .error .badarith) ∧
    (y ≠ 0 → Answers (towardZero ((x.toInt : ℚ) / y.toInt)) quotient ∧
      ∃ r : Int64, x.toInt = towardZero ((x.toInt : ℚ) / y.toInt) * y.toInt + r.toInt ∧
        (remainder = .ok (.integer r) ↔ ¬ (x = Int64.minValue ∧ y = -1)) ∧
        (remainder = .error .badarith ↔ x = Int64.minValue ∧ y = -1)) := by
  refine ⟨integerOr .badarith (Integer.div? x y), integerOr .badarith (Integer.rem? x y), rfl, rfl,
    ?_, fun hy => ?_⟩
  · rintro rfl
    rw [Integer.div?, Integer.rem?, Integer.hasQuotient_zero]
    exact ⟨rfl, rfl⟩
  · rw [towardZero_div, Integer.div?_eq x hy]
    refine ⟨answers_integerOr _, x % y, Integer.eq_tdiv_mul_add_mod x y, ?_⟩
    have hquotient := Integer.hasQuotient_iff x y
    rw [Integer.rem?]
    by_cases hover : Integer.IsOverflow x y
    · rw [if_neg fun h => (hquotient.1 h).2 hover]
      exact ⟨iff_of_false (by rintro ⟨⟩) (not_not_intro hover), iff_of_true rfl hover⟩
    · rw [if_pos (hquotient.2 ⟨hy, hover⟩)]
      exact ⟨iff_of_true rfl hover, iff_of_false (by rintro ⟨⟩) hover⟩

/-- The least integer divided by minus one leaves nothing, but this remainder is refused. -/
theorem remainder_of_least_refused :
    Int64.minValue.toInt = towardZero ((Int64.minValue.toInt : ℚ) / (-1 : Int64).toInt) *
        (-1 : Int64).toInt + (0 : Int64).toInt ∧
      Linker.callErlang? "rem" [.integer Int64.minValue, .integer (-1)] {} =
        some (.error .badarith, {}) := by
  rw [towardZero_div]
  exact ⟨by decide, rfl⟩

end Native

end ErlangMachine
