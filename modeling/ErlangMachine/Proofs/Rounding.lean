import Mathlib
import ErlangMachine.Binary64.Rounding

/-!
# Rounding and infinity

A number rounds to infinity when it is too large for a format, and the question here is when that
happens. Numbers are taken as `m * 2 ^ e`, which is how floats give their values. Rounding then
keeps the leading bits of `m`, as many as the precision says (`Format.scaled_lt`), so a number that
is well below the largest of the format stays finite (`Format.round_scaled_lt`). For single
precision the limit is exact: the doubles that overflow are those from `2 ^ 128 - 2 ^ 103` on
(`Binary64.round_single_lt_iff`).
-/

namespace ErlangMachine

/-! ## Quotients -/

namespace Format

variable {m : Nat}

/-- Rounding a quotient gives at least its whole part. -/
theorem le_roundQuotient (num den : Nat) : num / den ≤ roundQuotient num den := by
  unfold roundQuotient
  dsimp only
  split
  · exact Nat.le_succ _
  · exact Nat.le_refl _

/-- Rounding a quotient gives at most one more than its whole part. -/
theorem roundQuotient_le (num den : Nat) : roundQuotient num den ≤ num / den + 1 := by
  unfold roundQuotient
  dsimp only
  split
  · exact Nat.le_refl _
  · exact Nat.le_succ _

/-- A quotient rounds to an even number or beyond from halfway below that number on, since a half
goes to the even neighbour. -/
theorem le_roundQuotient_iff {num den : Nat} (hden : 0 < den) (heven : m % 2 = 0) (hm : 0 < m) :
    m ≤ roundQuotient num den ↔ (2 * m - 1) * den ≤ 2 * num := by
  have hdivide := Nat.div_add_mod num den
  have hrest := Nat.mod_lt num hden
  have hlow := le_roundQuotient num den
  have hhigh := roundQuotient_le num den
  rcases Nat.lt_trichotomy (num / den + 1) m with hlt | heq | hgt
  · -- Too small by more than one.
    have hnum : 2 * num < 2 * (den * (m - 1)) := by
      have hstep : den * (num / den + 1) ≤ den * (m - 1) := Nat.mul_le_mul_left den (by omega)
      rw [Nat.mul_succ] at hstep
      omega
    have hsmall : 2 * (den * (m - 1)) ≤ (2 * m - 1) * den := by
      calc 2 * (den * (m - 1)) = (2 * (m - 1)) * den := by ring
        _ ≤ (2 * m - 1) * den := Nat.mul_le_mul_right den (by omega)
    exact iff_of_false (by omega) (by omega)
  · -- The whole part is the odd number below, and the remainder decides.
    have hodd : num / den % 2 = 1 := by omega
    have hscaled : (2 * m - 1) * den = 2 * (den * (num / den)) + den := by
      obtain rfl := heq
      have hdouble : 2 * (num / den + 1) - 1 = 2 * (num / den) + 1 := by omega
      rw [hdouble]
      ring
    unfold roundQuotient
    dsimp only
    split
    · exact iff_of_true (by omega) (by omega)
    · exact iff_of_false (by omega) (by omega)
  · have hnum : den * m ≤ den * (num / den) := Nat.mul_le_mul_left den (by omega)
    have hlarge : (2 * m - 1) * den ≤ 2 * (den * m) := by
      calc (2 * m - 1) * den ≤ (2 * m) * den := Nat.mul_le_mul_right den (by omega)
        _ = 2 * (den * m) := by ring
    exact iff_of_true (by omega) (by omega)

/-! ## Scaled numbers -/

/-- The leading bit of a number of `p` bits, which may be zero. -/
theorem log2_lt_of_lt {p : Nat} (hp : 0 < p) (h : m < 2 ^ p) : m.log2 < p := by
  rcases Nat.eq_zero_or_pos m with rfl | hm
  · exact hp
  · exact (Nat.log2_lt hm.ne').2 h

/-- A power of two moves the leading bit. -/
theorem log2_shiftLeft (hm : m ≠ 0) (i : Nat) : (m <<< i).log2 = m.log2 + i := by
  have hlow : 2 ^ m.log2 ≤ m := Nat.log2_self_le hm
  have hhigh : m < 2 ^ (m.log2 + 1) := Nat.lt_log2_self
  have hpos := Nat.two_pow_pos i
  rw [Nat.shiftLeft_eq]
  refine (Nat.log2_eq_iff (Nat.mul_ne_zero hm hpos.ne')).2 ⟨?_, ?_⟩
  · rw [Nat.pow_add]
    exact Nat.mul_le_mul_right _ hlow
  · rw [Nat.add_right_comm, Nat.pow_add]
    exact Nat.mul_lt_mul_of_pos_right hhigh hpos

/-- The power of two below `m * 2 ^ e`. -/
theorem floorLog2_scaled (hm : m ≠ 0) (e : Int) :
    floorLog2 (m <<< e.toNat) (1 <<< (-e).toNat) = m.log2 + e := by
  have hlow : 2 ^ m.log2 ≤ m := Nat.log2_self_le hm
  have hone : Nat.log2 1 = 0 := by decide
  unfold floorLog2
  dsimp only
  rw [log2_shiftLeft hm, log2_shiftLeft (by decide), hone]
  have hk : ((m.log2 + e.toNat : Nat) : Int) - ((0 + (-e).toNat : Nat) : Int) = m.log2 + e := by
    omega
  rw [hk, if_neg]
  -- The two sides have their leading bits at the same place, and one of them has no other bit.
  simp only [Nat.shiftLeft_eq, Nat.one_mul, Nat.mul_assoc, ← Nat.pow_add]
  rw [Nat.not_lt]
  calc 2 ^ ((-e).toNat + (m.log2 + e).toNat)
      = 2 ^ m.log2 * 2 ^ (e.toNat + (-(m.log2 + e)).toNat) := by
        rw [← Nat.pow_add]
        congr 1
        omega
    _ ≤ m * 2 ^ (e.toNat + (-(m.log2 + e)).toNat) := Nat.mul_le_mul_right _ hlow

/-- The significand of a scaled number has no more bits than it is cut to. -/
theorem scaled_lt (m : Nat) {p : Nat} {e k : Int} (hk : m.log2 + e - p + 1 ≤ k) :
    ((m <<< e.toNat) <<< (-k).toNat) / ((1 <<< (-e).toNat) <<< k.toNat) < 2 ^ p := by
  have hlt : m < 2 ^ (m.log2 + 1) := Nat.lt_log2_self
  simp only [Nat.shiftLeft_eq, Nat.one_mul, Nat.mul_assoc, ← Nat.pow_add]
  rw [Nat.div_lt_iff_lt_mul (Nat.two_pow_pos _), ← Nat.pow_add]
  calc m * 2 ^ (e.toNat + (-k).toNat)
      < 2 ^ (m.log2 + 1) * 2 ^ (e.toNat + (-k).toNat) :=
        Nat.mul_lt_mul_of_pos_right hlt (Nat.two_pow_pos _)
    _ = 2 ^ (m.log2 + 1 + (e.toNat + (-k).toNat)) := by rw [← Nat.pow_add]
    _ ≤ 2 ^ (p + ((-e).toNat + k.toNat)) := Nat.pow_le_pow_right (by omega) (by omega)

/-- A number stays finite if its exponent is below the greatest of the format. -/
theorem round_scaled_lt (f : Format) {e : Int} (hprecision : 0 < f.precision) (htop : 2 < f.top)
    (h : m.log2 + e - f.precision + 1 - f.minExponent + 2 < f.top) :
    f.round (m <<< e.toNat) (1 <<< (-e).toNat) < f.infinity := by
  unfold round
  split
  · unfold infinity
    rw [Nat.shiftLeft_eq]
    exact Nat.mul_pos (by omega) (Nat.two_pow_pos _)
  · rename_i hzero
    have hm : m ≠ 0 := fun hm => hzero (by rw [hm, Nat.zero_shiftLeft])
    dsimp only
    rw [floorLog2_scaled hm]
    generalize hk : max f.minExponent (m.log2 + e - f.precision + 1) = k
    have hscaled := scaled_lt m (p := f.precision) (e := e) (k := k) (by omega)
    have hsignificand := roundQuotient_le ((m <<< e.toNat) <<< (-k).toNat)
      ((1 <<< (-e).toNat) <<< k.toNat)
    have hdouble : 2 ^ f.precision = 2 * 2 ^ (f.precision - 1) := by
      rw [← Nat.pow_succ']
      congr 1
      omega
    have hexponent : (k - f.minExponent).toNat + 3 ≤ f.top := by omega
    have hshift := Nat.mul_le_mul_right (2 ^ (f.precision - 1)) hexponent
    rw [Nat.add_mul] at hshift
    refine Nat.lt_of_le_of_lt (Nat.min_le_right _ _) ?_
    unfold infinity
    rw [Nat.shiftLeft_eq _ (f.precision - 1), Nat.shiftLeft_eq f.top]
    have hpos := Nat.two_pow_pos (f.precision - 1)
    omega

/-- Rounding goes no further than infinity. -/
theorem round_le_infinity (f : Format) (num den : Nat) : f.round num den ≤ f.infinity := by
  unfold round
  split
  · exact Nat.zero_le _
  · exact Nat.min_le_left _ _

/-- No 64-bit number rounds to infinity. -/
theorem round_double_lt {n : Nat} (h : n < 2 ^ 64) : double.round n 1 < double.infinity := by
  have hlog : n.log2 < 64 := log2_lt_of_lt (by decide) h
  refine double.round_scaled_lt (e := 0) (by decide) (by decide) ?_
  show (n.log2 : Int) + 0 - (53 : Nat) + 1 - (-1074) + 2 < (2047 : Nat)
  omega

/-- A single below infinity has a significand of 24 bits, and its exponent is not too large. -/
theorem unpack_single {magnitude : Nat} (h : magnitude < single.infinity) :
    (single.unpack magnitude).1 < 2 ^ 24 ∧ (single.unpack magnitude).2 ≤ 104 := by
  have hinfinity : single.infinity = 255 * 2 ^ 23 := by decide
  have hhidden : 1 <<< (single.precision - 1) = 2 ^ 23 := by decide
  have hleast : single.minExponent = -149 := rfl
  unfold unpack
  dsimp only
  rw [hhidden, hleast]
  split
  · exact ⟨by show magnitude < 2 ^ 24; omega, by show (-149 : Int) ≤ 104; omega⟩
  · refine ⟨?_, ?_⟩
    · show 2 ^ 23 + magnitude % 2 ^ 23 < 2 ^ 24
      omega
    · show (-149 : Int) + (magnitude / 2 ^ 23 - 1 : Nat) ≤ 104
      omega

end Format

namespace Binary64

variable {x : Binary64}

/-! ## Finite doubles -/

/-- The pattern of the number with a given sign and magnitude. -/
theorem toNat_bits_ofMagnitude (negative : Bool) {m : Nat} (h : m < 2 ^ 63) :
    (ofMagnitude negative m).bits.toNat = m + if negative then 2 ^ 63 else 0 := by
  show (UInt64.ofNat _).toNat = _
  rw [UInt64.toNat_ofNat']
  cases negative
  · exact Nat.mod_eq_of_lt (by show m + 0 < _; omega)
  · exact Nat.mod_eq_of_lt (by show m + 2 ^ 63 < _; omega)

/-- The number with a given magnitude has it. -/
theorem magnitude_ofMagnitude (negative : Bool) {m : Nat} (h : m < 2 ^ 63) :
    (ofMagnitude negative m).magnitude = m := by
  show (ofMagnitude negative m).bits.toNat % 2 ^ 63 = m
  rw [toNat_bits_ofMagnitude negative h]
  cases negative
  · exact Nat.mod_eq_of_lt h
  · show (m + 2 ^ 63) % 2 ^ 63 = m
    omega

/-- The number with a given sign has it. -/
theorem isNegative_ofMagnitude (negative : Bool) {m : Nat} (h : m < 2 ^ 63) :
    (ofMagnitude negative m).isNegative = negative := by
  show decide (2 ^ 63 ≤ (ofMagnitude negative m).bits.toNat) = negative
  rw [toNat_bits_ofMagnitude negative h]
  cases negative
  · exact decide_eq_false (by show ¬ 2 ^ 63 ≤ m + 0; omega)
  · exact decide_eq_true (by show 2 ^ 63 ≤ m + 2 ^ 63; omega)

/-- A number is given by its sign and its magnitude. -/
theorem ofMagnitude_eq (x : Binary64) : ofMagnitude x.isNegative x.magnitude = x := by
  have hlt : x.bits.toNat < 2 ^ 64 := x.bits.toNat_lt
  have hmagnitude : x.magnitude = x.bits.toNat % 2 ^ 63 := rfl
  have hsign : x.isNegative = decide (2 ^ 63 ≤ x.bits.toNat) := rfl
  have hbits : (ofMagnitude x.isNegative x.magnitude).bits = x.bits := by
    rw [← UInt64.toNat_inj, toNat_bits_ofMagnitude _ (by omega), hsign, hmagnitude]
    by_cases h : 2 ^ 63 ≤ x.bits.toNat
    · rw [decide_eq_true h, if_pos rfl]
      omega
    · rw [decide_eq_false h, if_neg Bool.false_ne_true]
      omega
  exact congrArg Binary64.mk hbits

/-- The magnitude of a finite number is below that of infinity. -/
theorem isFinite_iff : x.isFinite = true ↔ x.magnitude < 2047 * 2 ^ 52 := by
  unfold isFinite exponentField
  rw [decide_eq_true_iff, Nat.shiftRight_eq_div_pow, Nat.div_lt_iff_lt_mul (by decide)]

/-- A magnitude below that of infinity makes a finite number. -/
theorem isFinite_ofMagnitude (negative : Bool) {m : Nat} (h : m < 2047 * 2 ^ 52) :
    (ofMagnitude negative m).isFinite = true := by
  rw [isFinite_iff, magnitude_ofMagnitude negative (by omega)]
  exact h

/-- The sign does not matter. -/
theorem isFinite_neg (h : x.isFinite = true) : x.neg.isFinite = true :=
  isFinite_ofMagnitude _ (isFinite_iff.1 h)

theorem isFinite_abs (h : x.isFinite = true) : x.abs.isFinite = true :=
  isFinite_ofMagnitude _ (isFinite_iff.1 h)

/-- A 64-bit integer as a float. -/
theorem isFinite_ofInt (i : Int64) : (ofInt i.toInt).isFinite = true := by
  refine isFinite_ofMagnitude _ (Format.round_double_lt ?_)
  have hlow := i.le_toInt
  have hhigh := i.toInt_lt
  omega

/-- The mantissa has 53 bits. -/
theorem mantissa_lt (x : Binary64) : x.mantissa < 2 ^ 53 := by
  have hfraction : x.fraction < 2 ^ 52 := Nat.mod_lt _ (by decide)
  unfold mantissa
  split
  · omega
  · show 2 ^ 52 + x.fraction < 2 ^ 53
    omega

/-! ## Single precision -/

/-- The magnitude of `2 ^ 128 - 2 ^ 103`, which is as near to the largest single as to the next
power of two. -/
def singleLimit : Nat := 0x47EFFFFFF0000000

/-- A double with a large exponent, rounded to a single. -/
theorem round_single_eq {t : Nat} (h : x.exponentField = t + 1075) (ht : 0 < t) :
    Format.single.round (x.mantissa <<< x.exponent.toNat) (1 <<< (-x.exponent).toNat) =
      min (255 * 2 ^ 23) ((t + 178) * 2 ^ 23 +
        Format.roundQuotient (x.mantissa * 2 ^ t) (2 ^ (t + 29))) := by
  have hlow : 2 ^ 52 ≤ x.mantissa := by
    unfold mantissa
    rw [if_neg (by omega)]
    show 2 ^ 52 ≤ 2 ^ 52 + x.fraction
    omega
  -- The leading bit of the mantissa fixes the scale, which is 29 above that of the double.
  have hlog : x.mantissa.log2 = 52 := (Nat.log2_eq_iff (by omega)).2 ⟨hlow, x.mantissa_lt⟩
  have hexponent : x.exponent = t := by
    unfold exponent
    rw [h]
    omega
  have hk : max Format.single.minExponent
      (x.mantissa.log2 + x.exponent - Format.single.precision + 1) = t + 29 := by
    rw [hlog, hexponent]
    show max (-149 : Int) ((52 : Nat) + t - (24 : Nat) + 1) = t + 29
    omega
  have hnonzero : x.mantissa <<< x.exponent.toNat ≠ 0 := by
    rw [Nat.shiftLeft_eq]
    exact Nat.mul_ne_zero (by omega) (Nat.two_pow_pos _).ne'
  unfold Format.round
  rw [if_neg hnonzero]
  dsimp only
  rw [Format.floorLog2_scaled (by omega), hk, hexponent]
  have hback : (-((t : Int) + 29)).toNat = 0 := by omega
  have hforth : ((t : Int) + 29).toNat = t + 29 := by omega
  have hunit : (-(t : Int)).toNat = 0 := by omega
  have hfield : ((t : Int) + 29 - Format.single.minExponent).toNat = t + 178 := by
    show ((t : Int) + 29 - (-149)).toNat = t + 178
    omega
  have hinfinity : Format.single.infinity = 255 * 2 ^ 23 := by decide
  have hshift : Format.single.precision - 1 = 23 := rfl
  rw [hback, hforth, hunit, hfield, hinfinity, hshift, Int.toNat_natCast, Nat.shiftLeft_zero,
    Nat.shiftLeft_zero, Nat.shiftLeft_eq, Nat.shiftLeft_eq, Nat.shiftLeft_eq, Nat.one_mul]

/-- A double rounds to a finite single if and only if its magnitude is below the limit. -/
theorem round_single_lt_iff (x : Binary64) :
    Format.single.round (x.mantissa <<< x.exponent.toNat) (1 <<< (-x.exponent).toNat) <
        Format.single.infinity ↔ x.magnitude < singleLimit := by
  have hinfinity : Format.single.infinity = 255 * 2 ^ 23 := by decide
  have hlimit : singleLimit = 1150 * 2 ^ 52 + (2 ^ 24 - 1) * 2 ^ 28 := by decide
  have hfield : x.exponentField = x.magnitude / 2 ^ 52 := Nat.shiftRight_eq_div_pow _ _
  have hfraction : x.fraction = x.magnitude % 2 ^ 52 := rfl
  rcases Nat.lt_or_ge x.exponentField 1150 with hsmall | hlarge
  · -- The exponent alone keeps the number below the largest single.
    have hlog : x.mantissa.log2 < 53 := Format.log2_lt_of_lt (by decide) x.mantissa_lt
    refine iff_of_true (Format.single.round_scaled_lt (by decide) (by decide) ?_) (by omega)
    show (x.mantissa.log2 : Int) + x.exponent - (24 : Nat) + 1 - (-149) + 2 < (255 : Nat)
    unfold exponent
    omega
  · obtain ⟨t, ht⟩ : ∃ t, x.exponentField = t + 1075 := ⟨x.exponentField - 1075, by omega⟩
    have hmantissa : x.mantissa = 2 ^ 52 + x.fraction := by
      unfold mantissa
      rw [if_neg (by omega)]
      rfl
    rw [round_single_eq ht (by omega), hinfinity]
    -- Halfway between the largest single and the next power of two, rounding carries.
    have hcarry : 2 ^ 24 ≤ Format.roundQuotient (x.mantissa * 2 ^ t) (2 ^ (t + 29)) ↔
        (2 ^ 25 - 1) * 2 ^ 28 ≤ x.mantissa := by
      rw [Format.le_roundQuotient_iff (Nat.two_pow_pos _) (by decide) (by decide)]
      have hleft : (2 * 2 ^ 24 - 1) * 2 ^ (t + 29) = ((2 ^ 25 - 1) * 2 ^ 28) * (2 * 2 ^ t) := by
        rw [Nat.pow_add]
        ring
      have hright : 2 * (x.mantissa * 2 ^ t) = x.mantissa * (2 * 2 ^ t) := by ring
      rw [hleft, hright]
      exact Nat.mul_le_mul_right_iff (Nat.mul_pos (by decide) (Nat.two_pow_pos t))
    rcases Nat.eq_or_lt_of_le hlarge with hedge | habove
    · generalize Format.roundQuotient (x.mantissa * 2 ^ t) (2 ^ (t + 29)) = significand at hcarry
      omega
    · refine iff_of_false ?_ (by omega)
      have hquotient : 2 ^ 23 ≤ x.mantissa * 2 ^ t / 2 ^ (t + 29) := by
        rw [Nat.le_div_iff_mul_le (Nat.two_pow_pos _)]
        calc 2 ^ 23 * 2 ^ (t + 29) = 2 ^ 52 * 2 ^ t := by
              rw [Nat.pow_add]
              ring
          _ ≤ x.mantissa * 2 ^ t := Nat.mul_le_mul_right _ (by omega)
      have hsignificand := hquotient.trans (Format.le_roundQuotient _ _)
      have hexponent : 254 * 2 ^ 23 ≤ (t + 178) * 2 ^ 23 := Nat.mul_le_mul_right _ (by omega)
      have htotal : 255 * 2 ^ 23 ≤ (t + 178) * 2 ^ 23 +
          Format.roundQuotient (x.mantissa * 2 ^ t) (2 ^ (t + 29)) :=
        calc 255 * 2 ^ 23 = 254 * 2 ^ 23 + 2 ^ 23 := by norm_num
          _ ≤ _ := Nat.add_le_add hexponent hsignificand
      rw [Nat.min_eq_left htotal]
      exact Nat.lt_irrefl _

/-- The pattern of the single nearest to a finite double is its sign and the rounded magnitude. -/
theorem toSingleBits_eq (h : x.isFinite = true) : x.toSingleBits =
    (if x.isNegative then 2 ^ 31 else 0) +
      Format.single.round (x.mantissa <<< x.exponent.toNat) (1 <<< (-x.exponent).toNat) := by
  have hmagnitude := isFinite_iff.1 h
  have hnan : x.isNaN = false := by
    unfold isNaN
    exact decide_eq_false (by show ¬ 2047 * 2 ^ 52 < x.magnitude; omega)
  have hinfinite : x.isInfinite = false := by
    unfold isInfinite
    exact decide_eq_false (by show ¬ x.magnitude = 2047 * 2 ^ 52; omega)
  unfold toSingleBits
  simp only [hnan, hinfinite, Bool.false_eq_true, if_false]
  rfl

/-- The pattern of a single has 32 bits. -/
theorem toSingleBits_lt (h : x.isFinite = true) : x.toSingleBits < 2 ^ 32 := by
  have hround := Format.single.round_le_infinity (x.mantissa <<< x.exponent.toNat)
    (1 <<< (-x.exponent).toNat)
  have hinfinity : Format.single.infinity = 255 * 2 ^ 23 := by decide
  rw [toSingleBits_eq h]
  split
  · omega
  · omega

/-- A single below infinity is a finite double, and infinity is none. -/
theorem isFinite_ofSingleBits {bits : Nat} (h : bits % 2 ^ 31 ≤ Format.single.infinity) :
    (ofSingleBits bits).isFinite = true ↔ bits % 2 ^ 31 < Format.single.infinity := by
  have hmodulus : 1 <<< 31 = 2 ^ 31 := by decide
  unfold ofSingleBits
  dsimp only
  rw [hmodulus, if_neg (Nat.not_lt.2 h)]
  rcases Nat.eq_or_lt_of_le h with heq | hlt
  · rw [if_pos heq]
    refine iff_of_false ?_ (by omega)
    cases decide (2 ^ 31 ≤ bits)
    · decide
    · decide
  · rw [if_neg hlt.ne]
    refine iff_of_true ?_ hlt
    obtain ⟨hm, he⟩ := Format.unpack_single hlt
    generalize Format.single.unpack (bits % 2 ^ 31) = unpacked at hm he
    have hlog : unpacked.1.log2 < 24 := Format.log2_lt_of_lt (by decide) hm
    refine isFinite_ofMagnitude _ (Format.double.round_scaled_lt (by decide) (by decide) ?_)
    show (unpacked.1.log2 : Int) + unpacked.2 - (53 : Nat) + 1 - (-1074) + 2 < (2047 : Nat)
    omega

/-- A finite double is still finite after rounding to single precision if and only if its magnitude
is below the limit. -/
theorem isFinite_ofSingleBits_toSingleBits (h : x.isFinite = true) :
    (ofSingleBits x.toSingleBits).isFinite = true ↔ x.magnitude < singleLimit := by
  have hround := Format.single.round_le_infinity (x.mantissa <<< x.exponent.toNat)
    (1 <<< (-x.exponent).toNat)
  have hinfinity : Format.single.infinity = 255 * 2 ^ 23 := by decide
  have hmagnitude : x.toSingleBits % 2 ^ 31 =
      Format.single.round (x.mantissa <<< x.exponent.toNat) (1 <<< (-x.exponent).toNat) := by
    rw [toSingleBits_eq h]
    split
    · omega
    · omega
  rw [isFinite_ofSingleBits (by omega), hmagnitude, round_single_lt_iff]

end Binary64

end ErlangMachine
