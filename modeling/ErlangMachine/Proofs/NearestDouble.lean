import ErlangMachine.Binary64.Decimal
import ErlangMachine.Proofs.Rounding

/-!
# The nearest double

A finite double has an exact value. Counted in units of the least positive double the values are
whole numbers, and `units` gives them by magnitude: the next magnitude is always one place further
in the last bit of the significand, so `units` is strictly increasing. A number between the values
of two neighbours is rounded to the nearer one, and to the even one if it is halfway between them.
That makes one magnitude the nearest to each number (`Nearest.unique`), and `Format.round` finds it
(`exists_nearest_round`).

Magnitudes go on beyond the largest double, as if there were exponents for them, and infinity stands
for all of these. A decimal is rounded by the ratio that it denotes, unless its leading digit shows
that it is too large or too small for that (`ofDecimal_eq_iff`).
-/

namespace ErlangMachine

namespace Binary64

/-! ## Values -/

/-- The exact value of a finite number. -/
def value (x : Binary64) : ℚ := x.signedMantissa * 2 ^ x.exponent

/-- The value that belongs to a magnitude, in units of the least positive number. -/
def units (m : Nat) : Nat :=
  if m / 2 ^ 52 = 0 then m else (2 ^ 52 + m % 2 ^ 52) * 2 ^ (m / 2 ^ 52 - 1)

/-- A magnitude is a significand, with its hidden bit, on top of the power of two that scales it. A
significand that has just carried into its next bit counts as well. -/
theorem units_add {t s : Nat} (hs : s ≤ 2 ^ 53) (hnormal : t = 0 ∨ 2 ^ 52 ≤ s) :
    units (t * 2 ^ 52 + s) = s * 2 ^ t := by
  unfold units
  rcases Nat.lt_or_ge s (2 ^ 52) with hsmall | hlarge
  · obtain rfl := hnormal.resolve_right (by omega)
    rw [if_pos (by omega), Nat.zero_mul, Nat.zero_add, Nat.pow_zero, Nat.mul_one]
  · rcases Nat.eq_or_lt_of_le hs with rfl | hlt
    · -- The carry has moved into the exponent field and left no fraction behind.
      have hfield : (t * 2 ^ 52 + 2 ^ 53) / 2 ^ 52 = t + 2 := by omega
      have hfraction : (t * 2 ^ 52 + 2 ^ 53) % 2 ^ 52 = 0 := by omega
      rw [hfield, hfraction, if_neg (by omega)]
      show (2 ^ 52 + 0) * 2 ^ (t + 1) = 2 ^ 53 * 2 ^ t
      ring
    · have hfield : (t * 2 ^ 52 + s) / 2 ^ 52 = t + 1 := by omega
      have hfraction : 2 ^ 52 + (t * 2 ^ 52 + s) % 2 ^ 52 = s := by omega
      rw [hfield, hfraction, if_neg (by omega), Nat.add_sub_cancel]

/-- Every magnitude is of that form. -/
theorem exists_magnitude_eq (m : Nat) :
    ∃ t s, m = t * 2 ^ 52 + s ∧ s < 2 ^ 53 ∧ (t = 0 ∨ 2 ^ 52 ≤ s) :=
  ⟨m / 2 ^ 52 - 1, m - (m / 2 ^ 52 - 1) * 2 ^ 52, by omega, by omega, by omega⟩

/-- Values grow with the magnitude, since the next magnitude has the next significand. -/
theorem units_strictMono : StrictMono units := by
  refine strictMono_nat_of_lt_succ fun m => ?_
  obtain ⟨t, s, rfl, hs, hnormal⟩ := exists_magnitude_eq m
  rw [Nat.add_assoc, units_add hs.le hnormal, units_add (by omega) (by omega)]
  exact Nat.mul_lt_mul_of_pos_right (Nat.lt_succ_self s) (Nat.two_pow_pos t)

/-- The least magnitude is that of zero. -/
@[simp]
theorem units_zero : units 0 = 0 := by decide

/-- The number of units in one. -/
@[irreducible]
def unitsPerOne : Nat := 2 ^ (-Format.double.minExponent).toNat

/-- There are units in one. -/
theorem unitsPerOne_pos : (0 : ℚ) < unitsPerOne := by
  unfold unitsPerOne
  exact Nat.cast_pos.2 (Nat.two_pow_pos _)

/-- The number of units in one is a power of two. -/
theorem cast_unitsPerOne : (unitsPerOne : ℚ) = 2 ^ 1074 := by
  unfold unitsPerOne
  rw [Nat.cast_pow, Nat.cast_ofNat]
  rfl

/-- The value at a position on the number line. -/
def valueAt (p : Int) : ℚ := p.sign * units p.natAbs / unitsPerOne

/-- On the right of zero. -/
theorem valueAt_natCast (m : Nat) : valueAt m = units m / unitsPerOne := by
  unfold valueAt
  rcases Nat.eq_zero_or_pos m with rfl | hm
  · simp
  · rw [Int.sign_natCast_of_ne_zero hm.ne', Int.natAbs_natCast, Int.cast_one, one_mul]

/-- Zero is at its place. -/
theorem valueAt_zero : valueAt 0 = 0 := by
  unfold valueAt
  rw [Int.sign_zero, Int.cast_zero, zero_mul, zero_div]

/-- The line is the same on both sides of zero. -/
theorem valueAt_neg (p : Int) : valueAt (-p) = -valueAt p := by
  unfold valueAt
  rw [Int.sign_neg, Int.natAbs_neg]
  push_cast
  ring

/-- Values grow along the line. -/
theorem valueAt_strictMono : StrictMono valueAt := by
  refine strictMono_of_odd_strictMonoOn_nonneg valueAt_neg fun p hp q hq hlt => ?_
  obtain ⟨m, rfl⟩ := Int.eq_ofNat_of_zero_le hp
  obtain ⟨n, rfl⟩ := Int.eq_ofNat_of_zero_le hq
  rw [valueAt_natCast, valueAt_natCast]
  have hunits : units m < units n := units_strictMono (Int.ofNat_lt.1 hlt)
  exact div_lt_div_of_pos_right (Nat.cast_lt.2 hunits) unitsPerOne_pos

/-- The value of a number is the one at its position. -/
theorem value_eq (x : Binary64) : x.value = valueAt x.position := by
  have hfield : x.exponentField = x.magnitude / 2 ^ 52 := Nat.shiftRight_eq_div_pow _ _
  have hfraction : x.fraction = x.magnitude % 2 ^ 52 := rfl
  -- Subnormal numbers have the exponent of the least normal ones.
  obtain ⟨t, ht⟩ : ∃ t, max x.exponentField 1 = t + 1 := ⟨max x.exponentField 1 - 1, by omega⟩
  have hunits : units x.magnitude = x.mantissa * 2 ^ t := by
    unfold units mantissa
    rw [← hfield, ← hfraction]
    split
    · rw [show t = 0 by omega, Nat.pow_zero, Nat.mul_one]
      omega
    · rw [show x.exponentField - 1 = t by omega]
      rfl
  have hscale : (2 : ℚ) ^ x.exponent = 2 ^ t / unitsPerOne := by
    have hexponent : x.exponent = (t : Int) - ((-Format.double.minExponent).toNat : Nat) := by
      show ((max x.exponentField 1 : Nat) : Int) - 1075 = t - (1074 : Nat)
      omega
    unfold unitsPerOne
    rw [hexponent, zpow_sub₀ (by norm_num), zpow_natCast, zpow_natCast, Nat.cast_pow,
      Nat.cast_ofNat]
  have hright : (x.mantissa : ℚ) * 2 ^ x.exponent = valueAt x.magnitude := by
    rw [valueAt_natCast, hunits, hscale]
    push_cast
    ring
  unfold value signedMantissa position
  split
  · rw [valueAt_neg, ← hright]
    push_cast
    ring
  · rw [← hright]
    push_cast
    rfl

end Binary64

namespace Format

/-! ## Ratios -/

/-- An integer power as a ratio of natural ones. -/
theorem zpow_eq_div {b : ℚ} (hb : b ≠ 0) (e : Int) : b ^ e = b ^ e.toNat / b ^ (-e).toNat := by
  have he : e = (e.toNat : Int) - ((-e).toNat : Int) := by omega
  rw [← zpow_natCast, ← zpow_natCast, ← zpow_sub₀ hb, ← he]

/-- A power of two that goes to the side of a ratio where it is a whole number scales it. -/
theorem shifted_ratio (num den : Nat) (e : Int) :
    ((num <<< (-e).toNat : Nat) : ℚ) / (den <<< e.toNat : Nat) = num / den / 2 ^ e := by
  rw [Nat.shiftLeft_eq, Nat.shiftLeft_eq, zpow_eq_div two_ne_zero]
  push_cast
  rw [mul_div_mul_comm, div_div_eq_mul_div, mul_div_assoc]

/-- The power of two below a ratio. -/
theorem floorLog2_spec {num den : Nat} (hnum : num ≠ 0) (hden : den ≠ 0) :
    (2 : ℚ) ^ floorLog2 num den ≤ num / den ∧ (num / den : ℚ) < 2 ^ (floorLog2 num den + 1) := by
  have hpos : (0 : ℚ) < den := Nat.cast_pos.2 (Nat.pos_of_ne_zero hden)
  -- By their leading bits alone the two numbers may be one power of two further apart.
  have hlow : (2 : ℚ) ^ ((num.log2 : Int) - den.log2 - 1) ≤ num / den := by
    rw [sub_sub, zpow_sub₀ two_ne_zero]
    refine div_le_div₀ (Nat.cast_nonneg num) ?_ hpos ?_
    · exact_mod_cast Nat.log2_self_le hnum
    · exact_mod_cast Nat.lt_log2_self.le
  have hhigh : (num / den : ℚ) < 2 ^ ((num.log2 : Int) - den.log2 + 1) := by
    rw [sub_add_eq_add_sub, zpow_sub₀ two_ne_zero]
    refine div_lt_div₀ ?_ ?_ (zpow_nonneg zero_le_two _) (zpow_pos zero_lt_two _)
    · exact_mod_cast Nat.lt_log2_self
    · exact_mod_cast Nat.log2_self_le hden
  unfold floorLog2
  dsimp only
  generalize (num.log2 : Int) - den.log2 = k at hlow hhigh ⊢
  have hcompare : num <<< (-k).toNat < den <<< k.toNat ↔ (num / den : ℚ) < 2 ^ k := by
    have hshift : (0 : ℚ) < (den <<< k.toNat : Nat) := by
      rw [Nat.shiftLeft_eq]
      exact Nat.cast_pos.2 (Nat.mul_pos (Nat.pos_of_ne_zero hden) (Nat.two_pow_pos _))
    rw [← Nat.cast_lt (α := ℚ), ← div_lt_one hshift, shifted_ratio,
      div_lt_one (zpow_pos zero_lt_two k)]
  split
  case isTrue hlt =>
    rw [sub_add_cancel]
    exact ⟨hlow, hcompare.1 hlt⟩
  case isFalse hge => exact ⟨not_lt.1 (mt hcompare.2 hge), hhigh⟩

/-- A number between two neighbours goes to the nearer one, and to the even one from halfway. -/
inductive ToNeighbour (r : ℚ) (q : Nat) : Nat → Prop where
  | down (hmiddle : 2 * r ≤ 2 * q + 1) (htie : 2 * r = 2 * q + 1 → q % 2 = 0) : ToNeighbour r q q
  | up (hmiddle : 2 * q + 1 ≤ 2 * r) (htie : 2 * r = 2 * q + 1 → q % 2 = 1) :
    ToNeighbour r q (q + 1)

/-- A quotient is rounded to a neighbour. -/
theorem roundQuotient_ratio {num den : Nat} {r : ℚ} (hden : 0 < den) (hr : r = num / den) :
    ∃ q : Nat, q ≤ r ∧ r < q + 1 ∧ ToNeighbour r q (roundQuotient num den) := by
  have hpos : (0 : ℚ) < den := Nat.cast_pos.2 hden
  have hrest : num % den < den := Nat.mod_lt num hden
  obtain ⟨f, hf⟩ : ∃ f : ℚ, f = (num % den : Nat) / den := ⟨_, rfl⟩
  -- What is left over is a fraction of the denominator.
  have hsplit : r = (num / den : Nat) + f := by
    rw [hr, hf, ← mul_div_cancel_right₀ ((num / den : Nat) : ℚ) hpos.ne', ← add_div]
    congr 1
    exact_mod_cast (Nat.div_add_mod' num den).symm
  have hlow : 0 ≤ f := hf ▸ div_nonneg (Nat.cast_nonneg _) hpos.le
  have hhigh : f < 1 := hf ▸ (div_lt_one hpos).2 (Nat.cast_lt.2 hrest)
  have htwice : 2 * f = ((2 * (num % den) : Nat) : ℚ) / den := by
    rw [hf, Nat.cast_mul, Nat.cast_ofNat, mul_div_assoc]
  refine ⟨num / den, by linarith, by linarith, ?_⟩
  have hle : 2 * r ≤ 2 * (num / den : Nat) + 1 ↔ 2 * (num % den) ≤ den := by
    rw [hsplit, mul_add, add_le_add_iff_left, htwice, div_le_one hpos, Nat.cast_le]
  have hge : 2 * (num / den : Nat) + 1 ≤ 2 * r ↔ den ≤ 2 * (num % den) := by
    rw [hsplit, mul_add, add_le_add_iff_left, htwice, one_le_div hpos, Nat.cast_le]
  have htie (h : 2 * r = 2 * (num / den : Nat) + 1) : den = 2 * (num % den) :=
    Nat.le_antisymm (hge.1 h.ge) (hle.1 h.le)
  unfold roundQuotient
  dsimp only
  split
  case isTrue hup =>
    refine .up (hge.2 (by omega)) fun h => ?_
    have hhalf := htie h
    omega
  case isFalse hdown =>
    refine .down (hle.2 (by omega)) fun h => ?_
    have hhalf := htie h
    omega

end Format

namespace Binary64

/-! ## The nearest magnitude -/

/-- No magnitude has a value that is nearer to a given one, and if another is as near, this one is
even. Magnitudes go on beyond infinity here, as if there were exponents for them. -/
structure Nearest (v : ℚ) (m : Nat) : Prop where
  /-- No other is nearer. -/
  le : ∀ k : Nat, |v - valueAt m| ≤ |v - valueAt k|
  /-- The last bit decides between two. -/
  even : ∀ k : Nat, k ≠ m → |v - valueAt m| = |v - valueAt k| → m % 2 = 0

/-- Values grow with the magnitude. -/
theorem valueAt_natCast_lt {m k : Nat} (h : m < k) : valueAt m < valueAt k :=
  valueAt_strictMono (Int.ofNat_lt.2 h)

/-- Between two magnitudes, the lower one is nearest up to the middle. -/
theorem nearest_of_le {v : ℚ} {m : Nat} (hlow : valueAt m ≤ v)
    (hmiddle : 2 * v ≤ valueAt m + valueAt (m + 1 : Nat))
    (htie : 2 * v = valueAt m + valueAt (m + 1 : Nat) → m % 2 = 0) : Nearest v m := by
  have hnear : |v - valueAt m| = v - valueAt m := abs_of_nonneg (by linarith)
  have hbelow {k : Nat} (hk : k < m) : v - valueAt m < |v - valueAt k| := by
    have hvalue := valueAt_natCast_lt hk
    exact lt_of_lt_of_le (by linarith) (le_abs_self _)
  have habove {k : Nat} (hk : m < k) : valueAt (m + 1 : Nat) - v ≤ |v - valueAt k| := by
    have hvalue := valueAt_strictMono.monotone (Int.ofNat_le.2 (Nat.succ_le_of_lt hk))
    exact le_trans (by linarith) (neg_le_abs _)
  constructor
  · intro k
    rw [hnear]
    rcases Nat.lt_trichotomy k m with hlt | rfl | hgt
    · exact (hbelow hlt).le
    · exact hnear.ge
    · linarith [habove hgt]
  · intro k hk heq
    rw [hnear] at heq
    rcases Nat.lt_or_gt_of_ne hk with hlt | hgt
    · exact absurd heq (hbelow hlt).ne
    · exact htie (le_antisymm hmiddle (by linarith [habove hgt]))

/-- From the middle on, the upper one is. -/
theorem nearest_of_ge {v : ℚ} {m : Nat} (hhigh : v ≤ valueAt (m + 1 : Nat))
    (hmiddle : valueAt m + valueAt (m + 1 : Nat) ≤ 2 * v)
    (htie : 2 * v = valueAt m + valueAt (m + 1 : Nat) → m % 2 = 1) : Nearest v (m + 1) := by
  have hnear : |v - valueAt (m + 1 : Nat)| = valueAt (m + 1 : Nat) - v := by
    rw [abs_sub_comm]
    exact abs_of_nonneg (by linarith)
  have hbelow {k : Nat} (hk : k < m + 1) : v - valueAt m ≤ |v - valueAt k| := by
    have hvalue := valueAt_strictMono.monotone (Int.ofNat_le.2 (Nat.le_of_lt_succ hk))
    exact le_trans (by linarith) (le_abs_self _)
  have habove {k : Nat} (hk : m + 1 < k) : valueAt (m + 1 : Nat) - v < |v - valueAt k| := by
    have hvalue := valueAt_natCast_lt hk
    exact lt_of_lt_of_le (by linarith) (neg_le_abs _)
  constructor
  · intro k
    rw [hnear]
    rcases Nat.lt_trichotomy k (m + 1) with hlt | rfl | hgt
    · linarith [hbelow hlt]
    · exact hnear.ge
    · exact (habove hgt).le
  · intro k hk heq
    rw [hnear] at heq
    rcases Nat.lt_or_gt_of_ne hk with hlt | hgt
    · have hodd := htie (le_antisymm (by linarith [hbelow hlt]) hmiddle)
      omega
    · exact absurd heq (habove hgt).ne

/-- There is only one nearest magnitude. -/
theorem Nearest.unique {v : ℚ} {m k : Nat} (hm : Nearest v m) (hk : Nearest v k) : m = k := by
  by_contra hne
  wlog hlt : m < k generalizing m k
  · exact this hk hm (Ne.symm hne) (by omega)
  have hequal : |v - valueAt m| = |v - valueAt k| := le_antisymm (hm.le k) (hk.le m)
  have heven := hm.even k (Ne.symm hne) hequal
  have heven' := hk.even m hne hequal.symm
  -- Both are even, so there is one in between, and that is nearer.
  have hleft := valueAt_natCast_lt (Nat.lt_succ_self m)
  have hright := valueAt_natCast_lt (show m + 1 < k by omega)
  have hnearer := hm.le (m + 1)
  rcases abs_eq_abs.1 hequal with hsame | hopposite
  · linarith
  · have hdistance : |v - valueAt m| = v - valueAt m := abs_of_nonneg (by linarith)
    have hbetween : |v - valueAt (m + 1 : Nat)| < v - valueAt m :=
      abs_lt.2 ⟨by linarith, by linarith⟩
    linarith

end Binary64

namespace Format

/-- How a ratio is rounded: it is scaled so that its whole part has 53 bits, or fewer if it would
have to be scaled further than the least exponent allows. -/
theorem round_double_eq {num den : Nat} (hnum : num ≠ 0) (hden : den ≠ 0) :
    ∃ t num' den' : Nat, 0 < den' ∧
      (num' / den' : ℚ) * 2 ^ t = num / den * Binary64.unitsPerOne ∧ (num' / den' : ℚ) < 2 ^ 53 ∧
      (t = 0 ∨ 2 ^ 52 ≤ (num' / den' : ℚ)) ∧
      double.round num den = min double.infinity (t * 2 ^ 52 + roundQuotient num' den') := by
  obtain ⟨hlow, hhigh⟩ := floorLog2_spec hnum hden
  generalize hL : floorLog2 num den = L at hlow hhigh
  -- The scale leaves 53 bits, unless it would have to be less than the least exponent.
  obtain ⟨e, he⟩ : ∃ e : Int, e = max (-1074) (L - 52) := ⟨_, rfl⟩
  have hscale : (0 : ℚ) < 2 ^ e := zpow_pos zero_lt_two e
  refine ⟨(e + 1074).toNat, num <<< (-e).toNat, den <<< e.toNat, ?_, ?_, ?_, ?_, ?_⟩
  · rw [Nat.shiftLeft_eq]
    exact Nat.mul_pos (Nat.pos_of_ne_zero hden) (Nat.two_pow_pos _)
  · have hexponent : ((e + 1074).toNat : Int) = e + (1074 : Nat) := by omega
    rw [shifted_ratio, Binary64.cast_unitsPerOne, ← zpow_natCast, hexponent, zpow_add₀ two_ne_zero,
      zpow_natCast, ← mul_assoc, div_mul_cancel₀ _ hscale.ne']
  · rw [shifted_ratio, div_lt_iff₀ hscale, ← zpow_natCast, ← zpow_add₀ two_ne_zero]
    refine hhigh.trans_le (zpow_le_zpow_right₀ one_le_two ?_)
    omega
  · refine or_iff_not_imp_left.2 fun ht => ?_
    rw [shifted_ratio, le_div_iff₀ hscale, ← zpow_natCast, ← zpow_add₀ two_ne_zero]
    refine (zpow_le_zpow_right₀ one_le_two ?_).trans hlow
    omega
  · have hfield : e - double.minExponent = e + 1074 := rfl
    have hexponent : max double.minExponent (L - double.precision + 1) = e := by
      show max (-1074 : Int) (L - (53 : Nat) + 1) = e
      omega
    unfold round
    rw [if_neg hnum, hL]
    dsimp only
    rw [hexponent, hfield, Nat.shiftLeft_eq _ (double.precision - 1)]
    rfl

end Format

namespace Binary64

/-- The value of a significand that is scaled by a power of two. -/
theorem valueAt_significand {t s : Nat} (hs : s ≤ 2 ^ 53) (hnormal : t = 0 ∨ 2 ^ 52 ≤ s) :
    valueAt (t * 2 ^ 52 + s : Nat) = s * (2 ^ t / unitsPerOne) := by
  rw [valueAt_natCast, units_add hs hnormal, Nat.cast_mul, Nat.cast_pow, Nat.cast_ofNat,
    mul_div_assoc]

/-- The nearest magnitude has the nearest whole number for its significand. -/
theorem nearest_significand {r : ℚ} {t q s : Nat} (hlow : q ≤ r) (hhigh : r < q + 1)
    (hlt : r < 2 ^ 53) (hnormal : t = 0 ∨ 2 ^ 52 ≤ r) (hs : Format.ToNeighbour r q s) :
    Nearest (r * (2 ^ t / unitsPerOne)) (t * 2 ^ 52 + s) := by
  have hq : q < 2 ^ 53 := by exact_mod_cast hlow.trans_lt hlt
  have hq' : t = 0 ∨ 2 ^ 52 ≤ q := by
    refine hnormal.imp_right fun h => Nat.le_of_lt_succ ?_
    exact_mod_cast h.trans_lt hhigh
  -- The whole part and the next whole number are significands of neighbours.
  have hbelow := valueAt_significand hq.le hq'
  have habove := valueAt_significand hq (hq'.imp_right Nat.le_succ_of_le)
  have hunit : (0 : ℚ) < 2 ^ t / unitsPerOne := div_pos (pow_pos zero_lt_two t) unitsPerOne_pos
  generalize (2 ^ t / unitsPerOne : ℚ) = u at *
  have hsum : valueAt (t * 2 ^ 52 + q : Nat) + valueAt (t * 2 ^ 52 + q + 1 : Nat) =
      (2 * q + 1) * u := by
    rw [Nat.add_assoc (t * 2 ^ 52) q 1, hbelow, habove, Nat.cast_succ]
    ring
  have htwice : 2 * (r * u) = (2 * r) * u := by ring
  cases hs with
  | down hmiddle htie =>
    refine nearest_of_le ?_ ?_ ?_
    · rw [hbelow]
      exact mul_le_mul_of_nonneg_right hlow hunit.le
    · rw [hsum, htwice]
      exact mul_le_mul_of_nonneg_right hmiddle hunit.le
    · rw [hsum, htwice]
      intro h
      have heven := htie (mul_right_cancel₀ hunit.ne' h)
      omega
  | up hmiddle htie =>
    rw [← Nat.add_assoc (t * 2 ^ 52) q 1]
    refine nearest_of_ge ?_ ?_ ?_
    · rw [Nat.add_assoc (t * 2 ^ 52) q 1, habove, Nat.cast_succ]
      exact mul_le_mul_of_nonneg_right hhigh.le hunit.le
    · rw [hsum, htwice]
      exact mul_le_mul_of_nonneg_right hmiddle hunit.le
    · rw [hsum, htwice]
      intro h
      have hodd := htie (mul_right_cancel₀ hunit.ne' h)
      omega

/-- A number is rounded to zero up to half a unit. -/
theorem nearest_zero {v : ℚ} (hlow : 0 ≤ v) (hhigh : 2 * v ≤ valueAt (1 : Nat)) : Nearest v 0 := by
  have hzero : valueAt (0 : Nat) = 0 := valueAt_zero
  refine nearest_of_le ?_ ?_ fun _ => rfl
  · rwa [hzero]
  · rwa [hzero, zero_add]

/-- Rounding gives the nearest magnitude, but none beyond that of infinity. -/
theorem exists_nearest_round (num : Nat) {den : Nat} (hden : den ≠ 0) :
    ∃ m, Nearest (num / den) m ∧ Format.double.round num den = min Format.double.infinity m := by
  rcases Nat.eq_zero_or_pos num with rfl | hnum
  · refine ⟨0, ?_, rfl⟩
    have hunit : valueAt 0 < valueAt (1 : Nat) := valueAt_strictMono one_pos
    rw [valueAt_zero] at hunit
    rw [Nat.cast_zero, zero_div]
    exact nearest_zero le_rfl (by linarith)
  · obtain ⟨t, num', den', hden', hratio, hlt, hnormal, hround⟩ :=
      Format.round_double_eq hnum.ne' hden
    obtain ⟨q, hlow, hhigh, hs⟩ :=
      Format.roundQuotient_ratio hden' (rfl : (num' / den' : ℚ) = num' / den')
    have hnearest := nearest_significand hlow hhigh hlt hnormal hs
    rw [← mul_div_assoc, hratio, mul_div_cancel_right₀ _ unitsPerOne_pos.ne'] at hnearest
    exact ⟨_, hnearest, hround⟩

end Binary64

/-! ## Decimals -/

/-- The number that a decimal denotes. -/
def Decimal.value (d : Decimal) : ℚ := d.digits * 10 ^ d.exponent

/-- The place of the leading digit bounds a decimal. -/
theorem Decimal.lead_spec {d : Decimal} (h : d.digits ≠ 0) :
    (10 : ℚ) ^ d.lead ≤ d.value ∧ d.value < 10 ^ (d.lead + 1) := by
  have hlength : 0 < d.length := Nat.length_toDigits_pos
  have hpos : (0 : ℚ) < 10 ^ d.exponent := zpow_pos (by norm_num) _
  have hhigh : d.digits < 10 ^ d.length :=
    (Nat.length_toDigits_le_iff (by decide) hlength).1 (Nat.le_refl _)
  have hlow : 10 ^ (d.length - 1) ≤ d.digits := by
    rcases Nat.eq_or_lt_of_le hlength with hone | hmore
    · rw [← hone]
      exact Nat.pos_of_ne_zero h
    · by_contra hlt
      have hle := (Nat.length_toDigits_le_iff (by decide) (by omega)).2 (Nat.not_le.1 hlt)
      have hsame : (Nat.toDigits 10 d.digits).length = d.length := rfl
      omega
  have hlead : d.lead = ((d.length - 1 : Nat) : Int) + d.exponent := by
    unfold lead
    omega
  have hnext : d.lead + 1 = (d.length : Int) + d.exponent := by
    omega
  rw [hnext, hlead, zpow_add₀ (by norm_num), zpow_add₀ (by norm_num), zpow_natCast, zpow_natCast]
  constructor
  · refine mul_le_mul_of_nonneg_right ?_ hpos.le
    exact_mod_cast hlow
  · refine mul_lt_mul_of_pos_right ?_ hpos
    exact_mod_cast hhigh

namespace Binary64

/-- A double with a given sign is the nearest one to a number, apart from the sign of that. Whatever
is nearest to a magnitude beyond the largest double becomes infinite. -/
structure Rounded (negative : Bool) (v : ℚ) (x : Binary64) : Prop where
  /-- It has the sign. -/
  isNegative : x.isNegative = negative
  /-- Its magnitude is the nearest one, or that of infinity. -/
  exists_nearest : ∃ m, Nearest v m ∧ x.magnitude = min Format.double.infinity m

/-- There is only one such double. -/
theorem Rounded.unique {negative : Bool} {v : ℚ} {x y : Binary64} (hx : Rounded negative v x)
    (hy : Rounded negative v y) : x = y := by
  obtain ⟨m, hm, hmagnitude⟩ := hx.exists_nearest
  obtain ⟨k, hk, hmagnitude'⟩ := hy.exists_nearest
  obtain rfl := hm.unique hk
  rw [← x.ofMagnitude_eq, ← y.ofMagnitude_eq, hx.isNegative, hy.isNegative, hmagnitude,
    hmagnitude']

/-- The double with a magnitude that is the nearest one, or that of infinity. -/
theorem rounded_ofMagnitude (negative : Bool) {v : ℚ} {m : Nat} (h : Nearest v m) :
    Rounded negative v (ofMagnitude negative (min Format.double.infinity m)) := by
  have hinfinity : Format.double.infinity = 2047 * 2 ^ 52 := by decide
  have hlt : min Format.double.infinity m < 2 ^ 63 := by omega
  exact ⟨isNegative_ofMagnitude negative hlt, m, h, magnitude_ofMagnitude negative hlt⟩

/-- Infinity stands where the next power of two would be. -/
theorem valueAt_infinity : valueAt Format.double.infinity = 2 ^ 1024 := by
  have hinfinity : Format.double.infinity = 2046 * 2 ^ 52 + 2 ^ 52 := by decide
  rw [hinfinity, valueAt_significand (by decide) (.inr (Nat.le_refl _)), cast_unitsPerOne,
    Nat.cast_pow, Nat.cast_ofNat, ← mul_div_assoc, ← pow_add, div_eq_iff (by positivity), ← pow_add]

/-- From there on every number is rounded to infinity. -/
theorem Nearest.infinity_le {v : ℚ} {m : Nat} (h : Nearest v m)
    (hv : valueAt Format.double.infinity ≤ v) : Format.double.infinity ≤ m := by
  by_contra hlt
  have hless := valueAt_natCast_lt (Nat.not_le.1 hlt)
  have hnearest := h.le Format.double.infinity
  rw [abs_of_nonneg (by linarith), abs_of_nonneg (by linarith)] at hnearest
  linarith

/-- A decimal is read as the nearest double. -/
theorem rounded_ofDecimal (negative : Bool) (d : Decimal) :
    Rounded negative d.value (ofDecimal negative d) := by
  -- The exact path rounds the quotient of two naturals, which is the value of the decimal.
  have hratio : d.value =
      (d.digits * 10 ^ d.exponent.toNat : Nat) / (10 ^ (-d.exponent).toNat : Nat) := by
    unfold Decimal.value
    rw [Format.zpow_eq_div (by norm_num), ← mul_div_assoc]
    push_cast
    rfl
  have hden : 10 ^ (-d.exponent).toNat ≠ 0 := (Nat.pow_pos (by decide)).ne'
  obtain ⟨m, hm, hround⟩ := exists_nearest_round (d.digits * 10 ^ d.exponent.toNat) hden
  have hlargest : 2 ^ 1024 ≤ 10 ^ 311 := by decide +kernel
  have hleast : 2 * 2 ^ 1074 ≤ 1 * 10 ^ 330 := by decide +kernel
  rw [← hratio] at hm
  have hrounded := rounded_ofMagnitude negative hm
  unfold ofDecimal
  split
  case isTrue hzero =>
    rw [← hround, hzero, Nat.zero_mul] at hrounded
    exact hrounded
  case isFalse hnonzero =>
    obtain ⟨hlow, hhigh⟩ := Decimal.lead_spec hnonzero
    split
    case isTrue hlarge =>
      -- Shortcut for huge decimals: the exact path rounds them beyond the largest double as well.
      have hinfinity : Format.double.infinity ≤ m := by
        refine hm.infinity_le ?_
        calc valueAt Format.double.infinity = 2 ^ 1024 := valueAt_infinity
          _ ≤ 10 ^ 311 := by exact_mod_cast hlargest
          _ ≤ 10 ^ d.lead := by
            rw [← zpow_natCast]
            exact zpow_le_zpow_right₀ (by norm_num) (by omega)
          _ ≤ d.value := hlow
      rw [Nat.min_eq_left hinfinity] at hrounded
      exact hrounded
    case isFalse =>
      split
      case isTrue hsmall =>
        -- Shortcut for tiny decimals: they are closer to zero than to the least double.
        have hpos : 0 ≤ d.value := (zpow_nonneg (by norm_num) _).trans hlow
        have hless : 2 * d.value < valueAt (1 : Nat) := by
          have hvalue : valueAt (1 : Nat) = 1 / 2 ^ 1074 := by
            rw [valueAt_natCast, cast_unitsPerOne]
            rfl
          have hpower : (10 : ℚ) ^ (d.lead + 1) ≤ 10 ^ (-330 : Int) :=
            zpow_le_zpow_right₀ (by norm_num) (by omega)
          rw [hvalue]
          calc 2 * d.value < 2 * 10 ^ (d.lead + 1) := by linarith
            _ ≤ 2 * 10 ^ (-330 : Int) := by linarith
            _ ≤ 1 / 2 ^ 1074 := by
              rw [zpow_neg, ← div_eq_mul_inv, div_le_div_iff₀ (by positivity) (by positivity)]
              exact_mod_cast hleast
        rw [hm.unique (nearest_zero hpos hless.le)] at hrounded
        exact hrounded
      case isFalse =>
        rw [← hround] at hrounded
        exact hrounded

theorem ofDecimal_eq_iff {negative : Bool} {d : Decimal} {x : Binary64} :
    ofDecimal negative d = x ↔ Rounded negative d.value x :=
  ⟨fun h => h ▸ rounded_ofDecimal negative d, (rounded_ofDecimal negative d).unique⟩

end Binary64

end ErlangMachine
