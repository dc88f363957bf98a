import ErlangMachine.Integer
import ErlangMachine.Proofs.Significance

/-!
# Integers as segments

Writing an integer as a segment and reading it back are inverse to each other. Every position of a
segment has its own significance, and `significance` is its own inverse, in both byte orders and
with a last byte of any size. So the number that bits denote is known by its binary digits
(`Encoding.testBit_toNat`), and everything else follows from that: bits denote what they were
written from, up to a multiple of a power of two, and no two lists of bits of one length denote the
same number.
-/

namespace ErlangMachine

namespace Encoding

/-- An integer is written with as many bits as asked for. -/
@[simp] theorem length_ofInt (e : Encoding) (n : Nat) (v : Int) : (e.ofInt n v).length = n := by
  simp [ofInt]

/-- A number with `n` binary digits is below the `n`th power of two. -/
theorem sum_digits_lt (digit : Nat → Bool) (n : Nat) :
    ∑ j ∈ Finset.range n, (if digit j then 2 ^ j else 0) < 2 ^ n := by
  induction n with
  | zero => simp
  | succ n ih =>
    rw [Finset.sum_range_succ, Nat.pow_succ]
    split <;> omega

/-- The number with given binary digits has these digits. -/
theorem testBit_sum_digits (digit : Nat → Bool) (n i : Nat) :
    (∑ j ∈ Finset.range n, (if digit j then 2 ^ j else 0)).testBit i =
      (decide (i < n) && digit i) := by
  induction n with
  | zero => simp
  | succ n ih =>
    have hlt := sum_digits_lt digit n
    rw [Finset.sum_range_succ]
    cases hdigit : digit n with
    | false =>
      rw [if_neg (by simp), Nat.add_zero, ih]
      rcases Nat.lt_trichotomy i n with h | rfl | h
      · simp [h, Nat.lt_succ_of_lt h]
      · simp [hdigit]
      · simp [Nat.not_lt.2 (Nat.le_of_lt h), Nat.not_lt.2 (Nat.succ_le_of_lt h)]
    | true =>
      rw [if_pos rfl, Nat.add_comm]
      rcases Nat.lt_trichotomy i n with h | rfl | h
      · rw [Nat.testBit_two_pow_add_gt h, ih]
        simp [h, Nat.lt_succ_of_lt h]
      · rw [Nat.testBit_two_pow_add_eq, ih]
        simp [hdigit]
      · have hbound : 2 ^ n + ∑ j ∈ Finset.range n, (if digit j then 2 ^ j else 0) < 2 ^ i := by
          have hpow : 2 ^ (n + 1) ≤ 2 ^ i := Nat.pow_le_pow_right (by omega) h
          omega
        rw [Nat.testBit_lt_two_pow hbound]
        simp [Nat.not_lt.2 (Nat.succ_le_of_lt h)]

/-- The number that bits denote, with the bits in the order of their significance. -/
theorem toNat_eq_sum (e : Encoding) (bits : List Bool) :
    e.toNat bits = ∑ i ∈ Finset.range bits.length,
      if bits.getD (significance i bits.length e.little) false then 2 ^ i else 0 := by
  unfold toNat
  rw [← List.sum_eq_foldl, List.mapIdx_eq_ofFn, List.sum_ofFn, Finset.sum_range]
  let place (i : Fin bits.length) : Fin bits.length :=
    ⟨significance i bits.length e.little, significance_lt i.isLt _⟩
  have hplace (i : Fin bits.length) : place (place i) = i :=
    Fin.ext (significance_significance i.isLt _)
  refine Finset.sum_nbij' place place (fun _ _ => Finset.mem_univ _) (fun _ _ => Finset.mem_univ _)
    (fun i _ => hplace i) (fun i _ => hplace i) fun i _ => ?_
  simp only [place, significance_significance i.isLt, Nat.one_shiftLeft,
    List.getD_eq_getElem _ _ i.isLt]
  rfl

/-- Digit `i` of the number that bits denote is the bit with significance `i`. -/
theorem testBit_toNat (e : Encoding) (bits : List Bool) (i : Nat) :
    (e.toNat bits).testBit i = (decide (i < bits.length) &&
      bits.getD (significance i bits.length e.little) false) := by
  rw [toNat_eq_sum, testBit_sum_digits
    fun i => bits.getD (significance i bits.length e.little) false]

/-- The number that bits denote is below a power of two. -/
theorem toNat_lt (e : Encoding) (bits : List Bool) : e.toNat bits < 2 ^ bits.length := by
  rw [toNat_eq_sum]
  exact sum_digits_lt (fun i => bits.getD (significance i bits.length e.little) false) _

theorem getElem_ofInt (e : Encoding) {n : Nat} (v : Int) {s : Nat} (h : s < n) :
    (e.ofInt n v).getD s false = decide ((v >>> significance s n e.little) % 2 = 1) := by
  simp [ofInt, h]

/-- Shifting a remainder modulo a larger power of two keeps the lowest bit. -/
theorem emod_two_pow_shiftRight (v : Int) {i n : Nat} (h : i < n) :
    ((v % 2 ^ n) >>> i) % 2 = (v >>> i) % 2 := by
  obtain ⟨k, rfl⟩ := Nat.exists_eq_add_of_lt h
  have hsplit : v = v % 2 ^ (i + k + 1) + 2 ^ i * (2 * (2 ^ k * (v / 2 ^ (i + k + 1)))) := by
    rw [← mul_assoc 2, ← mul_assoc, ← pow_succ', ← pow_add, Nat.add_assoc]
    exact (Int.emod_add_mul_ediv _ _).symm
  rw [Int.shiftRight_eq_div_pow, Int.shiftRight_eq_div_pow]
  conv_rhs => rw [hsplit]
  push_cast
  rw [Int.add_mul_ediv_left _ _ (by positivity), Int.add_mul_emod_self_left]

/-- A digit of a natural number, found by shifting. -/
theorem testBit_eq_shiftRight (m i : Nat) : m.testBit i = decide (((m : Int) >>> i) % 2 = 1) := by
  rw [Nat.testBit_eq_decide_div_mod_eq, Int.shiftRight_eq_div_pow]
  norm_cast

/-- Bits that an integer was written to denote its remainder modulo a power of two. -/
theorem toNat_ofInt (e : Encoding) (n : Nat) (v : Int) :
    (e.toNat (e.ofInt n v) : Int) = v % 2 ^ n := by
  obtain ⟨m, hm⟩ := Int.eq_ofNat_of_zero_le (Int.emod_nonneg v (b := 2 ^ n) (by positivity))
  have hlt : m < 2 ^ n := by
    have := Int.emod_lt_of_pos v (b := 2 ^ n) (by positivity)
    rw [hm] at this
    exact_mod_cast this
  rw [hm]
  refine congrArg Nat.cast (Nat.eq_of_testBit_eq fun i => ?_)
  rw [testBit_toNat, length_ofInt]
  by_cases h : i < n
  · rw [getElem_ofInt e v (significance_lt h _), significance_significance h,
      testBit_eq_shiftRight m, ← hm, emod_two_pow_shiftRight v h]
    simp [h]
  · rw [Nat.testBit_lt_two_pow (hlt.trans_le (Nat.pow_le_pow_right (by omega) (Nat.not_lt.1 h)))]
    simp [h]

/-- Bits are what the number that they denote is written to. -/
theorem ofInt_toNat (e : Encoding) (bits : List Bool) :
    e.ofInt bits.length (e.toNat bits) = bits := by
  refine List.ext_getElem (length_ofInt _ _ _) fun s _ h => ?_
  have hs := getElem_ofInt e (e.toNat bits) h
  rw [← testBit_eq_shiftRight, testBit_toNat, significance_significance h] at hs
  simpa [h, significance_lt h] using hs

/-- The integers that `n` bits hold. Without a sign these are the numbers below a power of two, and
with one half of them are negative. No bits hold zero only. -/
def Holds (e : Encoding) (n : Nat) (v : Int) : Prop :=
  if e.signed then -2 ^ n ≤ 2 * v ∧ 2 * v < 2 ^ n else 0 ≤ v ∧ v < 2 ^ n

instance (e : Encoding) (n : Nat) (v : Int) : Decidable (e.Holds n v) :=
  inferInstanceAs
    (Decidable (if e.signed then -2 ^ n ≤ 2 * v ∧ 2 * v < 2 ^ n else 0 ≤ v ∧ v < 2 ^ n))

/-- An integer that fits into its segment is read back. -/
theorem toInt_ofInt {e : Encoding} {n : Nat} {v : Int} (h : e.Holds n v) :
    e.toInt (e.ofInt n v) = v := by
  have hread := toNat_ofInt e n v
  unfold Holds at h
  unfold toInt
  simp only [length_ofInt, Nat.one_shiftLeft]
  generalize e.toNat (e.ofInt n v) = m at hread ⊢
  cases hsigned : e.signed with
  | false =>
    rw [hsigned, if_neg Bool.false_ne_true] at h
    rw [Int.emod_eq_of_lt h.1 h.2] at hread
    simpa using hread
  | true =>
    rw [hsigned, if_pos rfl] at h
    cases n with
    | zero =>
      obtain rfl : v = 0 := by omega
      simpa using hread
    | succ k =>
      simp only [Nat.add_sub_cancel, Nat.pow_succ, Int.pow_succ] at h hread ⊢
      -- A negative integer has the highest bit set, and any other has not.
      by_cases hv : v < 0
      · have hmod : v % (2 ^ k * 2) = v + 2 ^ k * 2 := by
          rw [← Int.add_emod_right, Int.emod_eq_of_lt (by omega) (by omega)]
        have hhigh : 2 ^ k ≤ m := by
          zify
          omega
        push_cast
        simp
        omega
      · have hmod : v % (2 ^ k * 2) = v := Int.emod_eq_of_lt (by omega) (by omega)
        have hlow : ¬ 2 ^ k ≤ m := by
          zify
          omega
        simp [hlow]
        omega

end Encoding

/-! ## The integers of the machine -/

namespace Integer

/-- Every integer of the machine fits. -/
theorem fits_toInt (v : Int64) : Fits v.toInt := ⟨Int64.minValue_le_toInt v, Int64.toInt_le v⟩

/-- An integer of the machine is the one with its value. -/
theorem ofInt?_toInt (v : Int64) : ofInt? v.toInt = some v := by
  rw [ofInt?, if_pos (fits_toInt v), Int64.ofInt_toInt]

/-- The integers that fit are those of 64 bits. -/
theorem fits_iff {v : Int} : Fits v ↔ -2 ^ 63 ≤ v ∧ v < 2 ^ 63 := by
  have hmin : Int64.minValue.toInt = -2 ^ 63 := by decide
  have hmax : Int64.maxValue.toInt = 2 ^ 63 - 1 := by decide
  unfold Fits
  omega

theorem ofInt?_of_toInt {v : Int} {i : Int64} (h : i.toInt = v) : ofInt? v = some i := by
  rw [← h, ofInt?_toInt]

/-- An integer that fits keeps its value. -/
theorem toInt_of_ofInt? {v : Int} {i : Int64} (h : ofInt? v = some i) : i.toInt = v := by
  unfold ofInt? at h
  split at h
  case isTrue hfits =>
    cases h
    have hbounds := fits_iff.1 hfits
    exact Int64.toInt_ofInt_of_le (by omega) (by omega)
  case isFalse => cases h

theorem ofInt?_eq_none {v : Int} (h : ¬ (-2 ^ 63 ≤ v ∧ v < 2 ^ 63)) : ofInt? v = none :=
  if_neg fun hfits => h (fits_iff.1 hfits)

/-- A number of at most 63 bits is the value of an integer of the machine. -/
theorem exists_toInt_eq {m : Nat} (h : m < 2 ^ 63) : ∃ v : Int64, v.toInt = m :=
  ⟨Int64.ofInt m, Int64.toInt_ofInt_of_le (by omega) (by omega)⟩

end Integer

end ErlangMachine
