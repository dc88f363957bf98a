import ErlangMachine.Proofs.Bits

/-!
# Reading integers

A cursor reads an integer in one of three ways: whole bytes are taken byte by byte, other big endian
segments of at most 64 bits bit by bit, and all others are put together from bits by their
significance, where bits beyond a word have to continue its sign. All three give the integer that
the bits denote, and fail only if it has more than 64 bits.

What bits denote is defined in `Encoding.value` without regard to how they are read: the number
whose first bit counts most, or the one whose bytes stand in reverse, in two's complement if there
is a sign. `word?_eq` says that the word is known by the number's digits in all cases, and
`interpret?_of_le` and `interpret?_of_lt` what becomes of it. Together they give `integer?_exact`.
-/

namespace ErlangMachine

/-! ## What bits denote -/

namespace Encoding

/-- The number that bits denote if the first counts most. -/
def highFirst (bits : List Bool) : Nat := bits.foldl (fun v b => 2 * v + b.toNat) 0

/-- The number that bits denote if they are bytes from the least to the most significant, each with
its highest bit first. The last one may be shorter. -/
def lowByteFirst (bits : List Bool) : Nat :=
  if bits.length ≤ 8 then highFirst bits
  else highFirst (bits.take 8) + 2 ^ 8 * lowByteFirst (bits.drop 8)
termination_by bits.length
decreasing_by simp; omega

/-- The integer that bits denote, in two's complement if it has a sign. -/
def value (e : Encoding) (bits : List Bool) : Int :=
  let m := if e.little then lowByteFirst bits else highFirst bits
  if e.signed then (BitVec.ofNat bits.length m).toInt else m

/-- One more bit at the end doubles the number. -/
theorem highFirst_concat (bits : List Bool) (b : Bool) :
    highFirst (bits ++ [b]) = 2 * highFirst bits + b.toNat := by
  simp [highFirst]

/-- The number of two parts. -/
theorem highFirst_append (xs ys : List Bool) :
    highFirst (xs ++ ys) = highFirst xs * 2 ^ ys.length + highFirst ys := by
  induction ys using List.reverseRecOn with
  | nil => simp [highFirst]
  | append_singleton ys b ih =>
    rw [← List.append_assoc, highFirst_concat, highFirst_concat, ih, List.length_append,
      List.length_singleton, Nat.pow_succ]
    ring

/-- The digits of a number whose first bit counts most. -/
theorem testBit_highFirst (bits : List Bool) (i : Nat) :
    (highFirst bits).testBit i =
      (decide (i < bits.length) && bits.getD (bits.length - 1 - i) false) := by
  induction bits using List.reverseRecOn generalizing i with
  | nil => simp [highFirst]
  | append_singleton bits b ih =>
    have hbit : b.toNat < 2 := b.toNat_lt
    rw [highFirst_concat, List.length_append, List.length_singleton]
    cases i with
    | zero =>
      have hlast : (bits ++ [b]).getD (bits.length + 1 - 1 - 0) false = b := by simp
      cases b <;> simp
    | succ i =>
      have hhalf : (2 * highFirst bits + b.toNat) / 2 = highFirst bits := by omega
      rw [Nat.testBit_succ, hhalf, ih]
      by_cases hi : i < bits.length
      · have hplace : bits.length + 1 - 1 - (i + 1) = bits.length - 1 - i := by omega
        rw [hplace, List.getD_append _ _ _ _ (by omega)]
        simp [hi]
      · simp [hi]

/-- Big endian bits count most at the front. -/
theorem toNat_eq_highFirst {e : Encoding} (h : e.little = false) (bits : List Bool) :
    e.toNat bits = highFirst bits := by
  refine Nat.eq_of_testBit_eq fun i => ?_
  rw [testBit_toNat, testBit_highFirst, h]
  simp [significance]

/-- A number whose first bit counts most is below a power of two. -/
theorem highFirst_lt (bits : List Bool) : highFirst bits < 2 ^ bits.length := by
  rw [← toNat_eq_highFirst (e := ⟨false, false⟩) rfl]
  exact toNat_lt _ bits

/-- Little endian bits are bytes from the least to the most significant. -/
theorem toNat_eq_lowByteFirst {e : Encoding} (h : e.little = true) (bits : List Bool) :
    e.toNat bits = lowByteFirst bits := by
  refine Nat.eq_of_testBit_eq fun i => ?_
  rw [testBit_toNat, h]
  fun_induction lowByteFirst bits generalizing i with
  | case1 bits hshort =>
    rw [testBit_highFirst]
    by_cases hi : i < bits.length
    · have hplace : significance i bits.length true = bits.length - 1 - i := by
        simp only [significance, if_true]
        omega
      rw [hplace]
    · simp [hi]
  | case2 bits hlong ih =>
    have hfirst := highFirst_lt (bits.take 8)
    rw [List.length_take_of_le (by omega)] at hfirst
    rw [Nat.add_comm, Nat.testBit_two_pow_mul_add _ hfirst]
    split
    case isTrue hi =>
      -- The first byte holds the lowest eight bits.
      have hplace : significance i bits.length true = 8 - 1 - i := by
        simp only [significance, if_true]
        omega
      have hlength : i < bits.length := by omega
      rw [testBit_highFirst, List.length_take_of_le (by omega), hplace, List.getD_eq_getElem?_getD,
        List.getD_eq_getElem?_getD, List.getElem?_take_of_lt (by omega)]
      simp [hi, hlength]
    case isFalse hi =>
      -- The bits after it are those of the other bytes, all counting eight places more.
      rw [← ih]
      by_cases hi' : i < bits.length
      · have hplace : significance i bits.length true =
            8 + significance (i - 8) (bits.length - 8) true := by
          simp only [significance, if_true]
          omega
        have hrest : i - 8 < bits.length - 8 := by omega
        rw [hplace]
        simp [hi', hrest, List.getD_eq_getElem?_getD]
      · have hrest : ¬ i - 8 < bits.length - 8 := by omega
        simp [hi', hrest]

/-- The integer that bits denote, bit by bit or as a whole. -/
theorem toInt_eq_value (e : Encoding) (bits : List Bool) : e.toInt bits = e.value bits := by
  have hm : (if e.little then lowByteFirst bits else highFirst bits) = e.toNat bits := by
    cases h : e.little with
    | true => rw [if_pos rfl, toNat_eq_lowByteFirst h]
    | false => rw [if_neg (by simp), toNat_eq_highFirst h]
  have hlt := toNat_lt e bits
  unfold toInt value
  rw [hm]
  simp only [Nat.one_shiftLeft]
  cases e.signed with
  | false => simp
  | true =>
    rw [if_pos rfl, BitVec.toInt_eq_toNat_cond, BitVec.toNat_ofNat, Nat.mod_eq_of_lt hlt]
    generalize e.toNat bits = m at hlt
    cases hlength : bits.length with
    | zero =>
      rw [hlength] at hlt
      obtain rfl : m = 0 := by simpa using hlt
      simp
    | succ k =>
      simp only [Bool.true_and, Nat.succ_pos, true_and, Nat.add_sub_cancel, decide_eq_true_eq]
      by_cases hhigh : 2 ^ k ≤ m
      · rw [if_pos hhigh, if_neg (by omega)]
      · rw [if_neg hhigh, if_pos (by omega)]

end Encoding

/-! ## Words -/

theorem toNat_ofNat_mod {k : Nat} (hk : k < 64) : (UInt64.ofNat k).toNat % 64 = k := by
  rw [UInt64.toNat_ofNat']
  omega

/-- A word shifted by some places, with a number in the places that have become free. -/
theorem toNat_shiftLeft_or (v w : UInt64) {k : Nat} (hk : k < 64) (hw : w.toNat < 2 ^ k) :
    (v <<< UInt64.ofNat k ||| w).toNat = (v.toNat * 2 ^ k + w.toNat) % 2 ^ 64 := by
  have hsplit : 2 ^ 64 = 2 ^ (64 - k) * 2 ^ k := by rw [← Nat.pow_add]; congr 1; omega
  rw [UInt64.toNat_or, UInt64.toNat_shiftLeft, toNat_ofNat_mod hk, Nat.shiftLeft_eq]
  -- What is shifted out is lost, and the rest leaves the low places free.
  have hlow : v.toNat * 2 ^ k % 2 ^ 64 = (v.toNat % 2 ^ (64 - k)) <<< k := by
    rw [hsplit, Nat.mul_mod_mul_right, Nat.shiftLeft_eq]
  rw [hlow, ← Nat.shiftLeft_add_eq_or_of_lt hw, ← hlow, Nat.add_mod, Nat.mod_eq_of_lt w.toNat_lt]
  refine (Nat.mod_eq_of_lt ?_).symm
  have hlt : v.toNat % 2 ^ (64 - k) < 2 ^ (64 - k) := Nat.mod_lt _ (Nat.two_pow_pos _)
  rw [hlow, Nat.shiftLeft_eq, hsplit]
  calc v.toNat % 2 ^ (64 - k) * 2 ^ k + w.toNat
      < v.toNat % 2 ^ (64 - k) * 2 ^ k + 2 ^ k := Nat.add_lt_add_left hw _
    _ = (v.toNat % 2 ^ (64 - k) + 1) * 2 ^ k := by ring
    _ ≤ 2 ^ (64 - k) * 2 ^ k := Nat.mul_le_mul_right _ hlt

/-- Units of `k` bits that are shifted into a word one after the other are the low bits of the
number that their bits denote. -/
theorem toNat_foldl_shiftLeft {α : Type} (word : α → UInt64) (bits : α → List Bool) {k : Nat}
    (hk : k < 64) (hlength : ∀ x, (bits x).length = k)
    (hword : ∀ x, (word x).toNat = Encoding.highFirst (bits x)) (xs : List α) :
    (xs.foldl (fun v x => v <<< UInt64.ofNat k ||| word x) 0).toNat =
      Encoding.highFirst (xs.flatMap bits) % 2 ^ 64 := by
  induction xs using List.reverseRecOn with
  | nil => rfl
  | append_singleton xs x ih =>
    have hlt : (word x).toNat < 2 ^ k := by
      rw [hword, ← hlength x]
      exact Encoding.highFirst_lt _
    rw [List.foldl_append, List.foldl_cons, List.foldl_nil, toNat_shiftLeft_or _ _ hk hlt, ih,
      List.flatMap_append, List.flatMap_singleton, Encoding.highFirst_append, hlength, hword]
    simp [Nat.add_mod, Nat.mul_mod]

/-- A word as an integer with a sign. -/
theorem toInt_toInt64 (w : UInt64) :
    w.toInt64.toInt = if w.toNat < 2 ^ 63 then (w.toNat : Int) else w.toNat - 2 ^ 64 := by
  have hcond := BitVec.toInt_eq_toNat_cond w.toBitVec
  rw [UInt64.toNat_toBitVec] at hcond
  show w.toBitVec.toInt = _
  rw [hcond]
  split <;> split <;> omega

namespace BitString

/-- The number of a byte is that of its bits. -/
theorem highFirst_bitsOfByte (byte : UInt8) :
    Encoding.highFirst (bitsOfByte byte) = byte.toNat := by
  have hread := Encoding.toNat_ofInt ⟨false, false⟩ 8 byte.toNat
  have hlt := byte.toNat_lt
  rw [Int.emod_eq_of_lt (by omega) (by omega), Encoding.toNat_eq_highFirst rfl] at hread
  exact_mod_cast hread

/-- The bits of a piece inside the window, one by one. -/
theorem toList_slice_eq_map {b : BitString} {i n : Nat} (h : n ≤ b.size - i) :
    (b.slice i n).toList = (List.range n).map fun j => b.bit (i + j) := by
  rcases Nat.eq_zero_or_pos n with rfl | hn
  · simp [toList, slice]
  · have hstart : min i b.size = i := Nat.min_eq_left (by omega)
    have hsize : min n (b.size - i) = n := Nat.min_eq_left h
    simp [toList, slice, bit, hstart, hsize, Nat.add_assoc]

/-- Bits inside the window that are read at once, byte by byte or bit by bit, give the number that
they denote. -/
theorem toNat_read {b : BitString} {i n : Nat} (hn : n ≤ 64) (h : n ≤ b.size - i) :
    (b.read i n).toNat = Encoding.highFirst (b.slice i n).toList := by
  have hfits := b.fits
  have hbits := toList_slice_eq_map h
  rcases Nat.eq_zero_or_pos n with rfl | hpos
  · simp [hbits, read, Encoding.highFirst]
  -- A word has room for the number, so nothing is lost where it is shifted.
  have hlt : Encoding.highFirst (b.slice i n).toList < 2 ^ 64 := by
    refine (Encoding.highFirst_lt _).trans_le (Nat.pow_le_pow_right (by omega) ?_)
    rw [hbits, List.length_map, List.length_range]
    exact hn
  unfold read
  dsimp only
  split
  case isTrue haligned =>
    have hcut : (b.start + i + n) / 8 = (b.start + i) / 8 + n / 8 := by omega
    have hwhole := flatMap_extract b.bytes (k := (b.start + i) / 8) (j := n / 8) (by omega)
    rw [← Array.foldl_toList, hcut]
    have hread := toNat_foldl_shiftLeft UInt8.toUInt64 bitsOfByte (k := 8) (by omega)
      (fun _ => length_bitsOfByte _) (fun byte => by simp [highFirst_bitsOfByte])
      (b.bytes.extract ((b.start + i) / 8) ((b.start + i) / 8 + n / 8)).toList
    refine hread.trans ?_
    rw [hwhole]
    have hsame : ((List.range (8 * (n / 8))).map fun j =>
        bufferBit b.bytes (8 * ((b.start + i) / 8) + j)) = (b.slice i n).toList := by
      have hcount : 8 * (n / 8) = n := by omega
      rw [hcount, hbits]
      refine List.map_congr_left fun j _ => ?_
      congr 1
      omega
    rw [hsame, Nat.mod_eq_of_lt hlt]
  case isFalse =>
    have hread := toNat_foldl_shiftLeft (fun j => (b.bit (i + j)).toUInt64)
      (fun j => [b.bit (i + j)]) (k := 1) (by omega) (fun _ => rfl)
      (fun j => by cases b.bit (i + j) <;> rfl) (List.range n)
    refine hread.trans ?_
    rw [← List.map_eq_flatMap, ← hbits, Nat.mod_eq_of_lt hlt]

/-! ## Putting bits together -/

/-- A word with one bit set, or none. -/
theorem testBit_shiftLeft_toUInt64 (b : Bool) {i : Nat} (hi : i < 64) (j : Nat) :
    (b.toUInt64 <<< UInt64.ofNat i).toNat.testBit j = (decide (j = i) && b) := by
  rw [UInt64.toNat_shiftLeft, toNat_ofNat_mod hi, Nat.testBit_mod_two_pow]
  cases b with
  | false =>
    have hzero : false.toUInt64.toNat = 0 := rfl
    simp [hzero]
  | true =>
    have hone : true.toUInt64.toNat = 1 := rfl
    rw [hone, Nat.one_shiftLeft, Nat.testBit_two_pow]
    by_cases hj : i = j
    · subst hj
      simp [hi]
    · simp [hj, Ne.symm hj]

/-- What the first `k` bits of a segment are put together to. If one that counts too much for a word
is not equal to `fill` there is no result. -/
theorem foldlM_gather (bit : Nat → Bool) (fill little : Bool) {n k : Nat} (hk : k ≤ n) :
    let gathered : Option UInt64 := (List.range k).foldlM (fun v s =>
      if significance s n little < 64 then
        some (v ||| (bit s).toUInt64 <<< UInt64.ofNat (significance s n little))
      else if bit s = fill then some v
      else none) 0
    (gathered = none ∧ ∃ s < k, 64 ≤ significance s n little ∧ bit s ≠ fill) ∨
      ∃ v, gathered = some v ∧ (∀ s < k, 64 ≤ significance s n little → bit s = fill) ∧
        ∀ j, v.toNat.testBit j = (decide (j < 64 ∧ j < n ∧ significance j n little < k) &&
          bit (significance j n little)) := by
  induction k with
  | zero => exact .inr ⟨0, rfl, nofun, fun j => by simp⟩
  | succ k ih =>
    rw [List.range_succ, List.foldlM_append]
    rcases ih (by omega) with ⟨hnone, s, hs, hbad⟩ | ⟨v, hv, hfill, hdigits⟩
    · rw [hnone]
      exact .inl ⟨rfl, s, by omega, hbad⟩
    rw [hv, Option.bind_eq_bind, Option.bind_some, List.foldlM_cons]
    have hback := significance_significance (show k < n by omega) little
    -- Only the significance of position `k` is found there.
    have hother : ∀ j, j < n → j ≠ significance k n little →
        (significance j n little < k + 1 ↔ significance j n little < k) := by
      intro j hj hne
      have hne' : significance j n little ≠ k := by
        rintro rfl
        exact hne (significance_significance hj little).symm
      omega
    split
    case isTrue hlow =>
      refine .inr ⟨_, rfl, fun s hs hhigh => ?_, fun j => ?_⟩
      · rcases Nat.lt_succ_iff_lt_or_eq.1 hs with hs | rfl
        · exact hfill s hs hhigh
        · omega
      · rw [UInt64.toNat_or, Nat.testBit_or, hdigits, testBit_shiftLeft_toUInt64 _ hlow]
        by_cases hj : j = significance k n little
        · subst hj
          have hlt := significance_lt (show k < n by omega) little
          simp [hback, hlow, hlt]
        · by_cases hjn : j < n
          · simp [hj, hother j hjn hj]
          · simp [hj, hjn]
    case isFalse hhigh =>
      split
      case isTrue heq =>
        refine .inr ⟨v, rfl, fun s hs hs' => ?_, fun j => ?_⟩
        · rcases Nat.lt_succ_iff_lt_or_eq.1 hs with hs | rfl
          · exact hfill s hs hs'
          · exact heq
        · rw [hdigits]
          by_cases hj : j < 64 ∧ j < n
          · simp [hother j hj.2 (by omega)]
          · have hno : ∀ p : Prop, ¬ (j < 64 ∧ j < n ∧ p) := fun p hp => hj ⟨hp.1, hp.2.1⟩
            simp [hno]
      case isFalse hne => exact .inl ⟨rfl, k, by omega, by omega, hne⟩

/-- The digits of a number beyond the 64th are all alike. -/
theorem high_digits_iff {m n : Nat} (hm : m < 2 ^ n) (fill : Bool) :
    m / 2 ^ 64 = (if fill then 2 ^ (n - 64) - 1 else 0) ↔
      ∀ i, 64 ≤ i → i < n → m.testBit i = fill := by
  have hdigits : ∀ i, (if fill then 2 ^ (n - 64) - 1 else 0).testBit i =
      (fill && decide (i < n - 64)) := by
    intro i
    cases fill with
    | false => simp
    | true => simp [Nat.testBit_two_pow_sub_one]
  constructor
  · intro h i hhigh hi
    have hdigit := congrArg (Nat.testBit · (i - 64)) h
    simp only [Nat.testBit_div_two_pow, hdigits, Nat.sub_add_cancel hhigh] at hdigit
    rw [hdigit, decide_eq_true (by omega), Bool.and_true]
  · intro h
    refine Nat.eq_of_testBit_eq fun i => ?_
    rw [Nat.testBit_div_two_pow, hdigits]
    by_cases hi : i < n - 64
    · rw [h (i + 64) (by omega) (by omega), decide_eq_true hi, Bool.and_true]
    · have hle : 2 ^ n ≤ 2 ^ (i + 64) := Nat.pow_le_pow_right (by omega) (by omega)
      rw [Nat.testBit_lt_two_pow (hm.trans_le hle), decide_eq_false hi, Bool.and_false]

/-! ## Cursors -/

namespace Cursor

variable {c : Cursor} {n : Nat} (h : n ≤ c.remaining)

include h

theorem length_toList_peek : (c.peek n).toList.length = n := by
  rw [peek, toList_slice_eq_map h, List.length_map, List.length_range]

/-- The digits of the number that the bits ahead denote. -/
theorem testBit_toNat_peek (e : Encoding) (i : Nat) :
    (e.toNat (c.peek n).toList).testBit i =
      (decide (i < n) && c.subject.bit (c.offset + significance i n e.little)) := by
  rw [Encoding.testBit_toNat, length_toList_peek h]
  by_cases hi : i < n
  · have hlt := significance_lt hi e.little
    simp [hi, peek, toList_slice_eq_map h, hlt]
  · simp [hi]

/-- Bits that are put together one by one make the word of the number that they denote, if the
digits beyond the word are those that its sign asks for. -/
theorem gather?_eq (e : Encoding) :
    c.gather? n e =
      let m := e.toNat (c.peek n).toList
      if m / 2 ^ 64 = (if e.signed && m.testBit 63 then 2 ^ (n - 64) - 1 else 0) then
        some (UInt64.ofNat m)
      else none := by
  have hlt := Encoding.toNat_lt e (c.peek n).toList
  rw [length_toList_peek h] at hlt
  have hdigits := testBit_toNat_peek h e
  generalize e.toNat (c.peek n).toList = m at hlt hdigits
  generalize hfill : (e.signed && c.subject.bit (c.offset + positionOf 63 n e.little)) = fill
  -- Nothing is filled unless the segment is wider than a word.
  have hsign : m / 2 ^ 64 = (if e.signed && m.testBit 63 then 2 ^ (n - 64) - 1 else 0) ↔
      ∀ i, 64 ≤ i → i < n → m.testBit i = fill := by
    rw [high_digits_iff hlt]
    by_cases hwide : 64 < n
    · rw [hdigits 63, decide_eq_true (by omega : 63 < n), Bool.true_and,
        ← positionOf_eq (by omega : 63 < n), hfill]
    · exact ⟨fun _ i hi hi' => by omega, fun _ i hi hi' => by omega⟩
  unfold gather?
  rw [hfill]
  rcases foldlM_gather (fun s => c.subject.bit (c.offset + s)) fill e.little (Nat.le_refl n) with
    ⟨hnone, s, hs, hhigh, hbad⟩ | ⟨v, hv, hfilled, hword⟩
  · have hback := hdigits (significance s n e.little)
    rw [significance_significance hs, decide_eq_true (significance_lt hs _), Bool.true_and] at hback
    rw [if_neg fun hall => hbad (hback.symm.trans (hsign.1 hall _ hhigh (significance_lt hs _)))]
    exact hnone
  · have hall : ∀ i, 64 ≤ i → i < n → m.testBit i = fill := by
      intro i hhigh hi
      rw [hdigits, decide_eq_true hi, Bool.true_and]
      refine hfilled _ (significance_lt hi _) ?_
      rwa [significance_significance hi]
    rw [if_pos (hsign.2 hall)]
    refine hv.trans (congrArg some (UInt64.toNat_inj.1 (Nat.eq_of_testBit_eq fun j => ?_)))
    rw [UInt64.toNat_ofNat', Nat.testBit_mod_two_pow, hdigits, hword]
    by_cases hj : j < n
    · simp [hj, significance_lt hj]
    · simp [hj]

omit h

/-- Big endian bits that fit a word are read at once, and the result is the same as if they had been
put together. -/
theorem word?_eq (h : n ≤ c.remaining) (e : Encoding) :
    c.word? n e =
      let m := e.toNat (c.peek n).toList
      if m / 2 ^ 64 = (if e.signed && m.testBit 63 then 2 ^ (n - 64) - 1 else 0) then
        some (UInt64.ofNat m)
      else none := by
  unfold word?
  split
  case isTrue hread =>
    obtain ⟨hbig, hn⟩ := hread
    have hlt := Encoding.toNat_lt e (c.peek n).toList
    rw [length_toList_peek h] at hlt
    have hword : (c.subject.read c.offset n).toNat = e.toNat (c.peek n).toList := by
      rw [Encoding.toNat_eq_highFirst hbig]
      exact toNat_read hn h
    have hle : 2 ^ n ≤ 2 ^ 64 := Nat.pow_le_pow_right (by omega) hn
    have hsmall : n - 64 = 0 := by omega
    dsimp only
    rw [Nat.div_eq_of_lt (hlt.trans_le hle), hsmall, Nat.pow_zero, Nat.sub_self, ite_self,
      if_pos rfl, ← hword, UInt64.ofNat_toNat]
  case isFalse => exact gather?_eq h e

/-- The highest of the `n` bits of a word is set if its number is large. -/
theorem shiftRight_and_one_eq_one {w : UInt64} {k : Nat} (hk : k < 64)
    (hw : w.toNat < 2 ^ (k + 1)) : (w >>> UInt64.ofNat k) &&& 1 = 1 ↔ 2 ^ k ≤ w.toNat := by
  have hone : (1 : UInt64).toNat = 1 := rfl
  rw [← UInt64.toNat_inj, UInt64.toNat_and, UInt64.toNat_shiftRight, toNat_ofNat_mod hk, hone,
    Nat.and_one_is_mod, Nat.shiftRight_eq_div_pow]
  have hquotient : w.toNat / 2 ^ k < 2 := by
    rw [Nat.div_lt_iff_lt_mul (Nat.two_pow_pos k), ← Nat.pow_succ']
    exact hw
  have hpositive := Nat.one_le_div_iff (Nat.two_pow_pos k) (a := w.toNat)
  generalize w.toNat / 2 ^ k = quotient at *
  omega

/-- A word whose bits from position `n` on are set, and then read with a sign. -/
theorem toInt_or_shiftLeft {w : UInt64} {n : Nat} (hn : n < 64) (hw : w.toNat < 2 ^ n)
    (hhigh : 2 ^ n ≤ 2 * w.toNat) :
    (w ||| (~~~0 <<< UInt64.ofNat n)).toInt64.toInt = (w.toNat : Int) - (2 ^ n : Nat) := by
  have hle : 2 ^ n ≤ 2 ^ 63 := Nat.pow_le_pow_right (by omega) (by omega)
  have hones : (~~~(0 : UInt64)).toNat = 2 ^ 64 - 1 := rfl
  have hnat : (w ||| (~~~0 <<< UInt64.ofNat n)).toNat = 2 ^ 64 - 2 ^ n + w.toNat := by
    rw [UInt64.or_comm, toNat_shiftLeft_or _ _ hn hw, hones]
    -- The ones that are shifted out make a multiple of `2 ^ 64`.
    have hsplit : (2 ^ 64 - 1) * 2 ^ n + w.toNat =
        (2 ^ n - 1) * 2 ^ 64 + (2 ^ 64 - 2 ^ n + w.toNat) := by
      omega
    rw [hsplit, Nat.mul_add_mod', Nat.mod_eq_of_lt (by omega)]
  rw [toInt_toInt64, hnat, if_neg (by omega)]
  omega

/-- What a word of at most 64 bits denotes. -/
theorem interpret?_of_le (signed : Bool) {n m : Nat} (hn : n ≤ 64) (hm : m < 2 ^ n) :
    interpret? n signed (UInt64.ofNat m) = Integer.ofInt?
      (if signed && decide (0 < n ∧ 2 ^ (n - 1) ≤ m) then (m : Int) - (2 ^ n : Nat) else m) := by
  have hle : 2 ^ n ≤ 2 ^ 64 := Nat.pow_le_pow_right (by omega) hn
  have hword : (UInt64.ofNat m).toNat = m := by
    rw [UInt64.toNat_ofNat', Nat.mod_eq_of_lt (hm.trans_le hle)]
  generalize UInt64.ofNat m = w at hword
  subst hword
  have hsign := toInt_toInt64 w
  have hzero : (0 : Int64).toInt = 0 := rfl
  -- A short word leaves the highest bit clear.
  have hshort : n < 64 → w.toNat < 2 ^ 63 := fun hlt =>
    hm.trans_le (Nat.pow_le_pow_right (by omega) (by omega))
  unfold interpret?
  cases signed with
  | false =>
    simp only [Bool.false_eq_true, if_false, Bool.false_and, Int64.lt_iff_toInt_lt, hzero]
    by_cases hlow : w.toNat < 2 ^ 63
    · rw [if_pos hlow] at hsign
      rw [if_neg (by omega), Integer.ofInt?_of_toInt hsign]
    · rw [if_pos ⟨by omega, by omega⟩, Integer.ofInt?_eq_none (by omega)]
  | true =>
    simp only [if_true, Bool.true_and, decide_eq_true_eq]
    rcases Nat.eq_zero_or_pos n with rfl | hpos
    · rw [if_neg (by omega), if_neg (by omega), Integer.ofInt?_of_toInt]
      rw [hsign, if_pos (by omega)]
    obtain ⟨k, rfl⟩ : ∃ k, n = k + 1 := ⟨n - 1, by omega⟩
    have hbit := shiftRight_and_one_eq_one (show k < 64 by omega) hm
    by_cases hhigh : 2 ^ k ≤ w.toNat
    · have hvalue : (if 0 < k + 1 ∧ 2 ^ (k + 1 - 1) ≤ w.toNat then
          (w.toNat : Int) - (2 ^ (k + 1) : Nat) else w.toNat) = w.toNat - (2 ^ (k + 1) : Nat) :=
        if_pos ⟨hpos, hhigh⟩
      rw [hvalue]
      by_cases hfull : k + 1 < 64
      · rw [if_pos ⟨hpos, hfull, hbit.2 hhigh⟩]
        exact (Integer.ofInt?_of_toInt (toInt_or_shiftLeft hfull hm (by omega))).symm
      · obtain rfl : k = 63 := by omega
        rw [if_neg fun hboth => hfull hboth.2.1, Integer.ofInt?_of_toInt]
        rw [hsign, if_neg (by omega)]
        rfl
    · rw [if_neg fun hboth => hhigh (hbit.1 hboth.2.2), if_neg fun hboth => hhigh hboth.2,
        Integer.ofInt?_of_toInt]
      have hle : 2 ^ k ≤ 2 ^ 63 := Nat.pow_le_pow_right (by omega) (by omega)
      rw [hsign, if_pos (by omega)]

/-- What more than 64 bits denote. The word alone tells it if all other digits are as its sign asks
for, and otherwise the integer is too large. -/
theorem interpret?_of_lt (signed : Bool) {n m : Nat} (hn : 64 < n) (hm : m < 2 ^ n) :
    (if m / 2 ^ 64 = (if signed && m.testBit 63 then 2 ^ (n - 64) - 1 else 0) then
        interpret? n signed (UInt64.ofNat m)
      else none) = Integer.ofInt?
      (if signed && decide (0 < n ∧ 2 ^ (n - 1) ≤ m) then (m : Int) - (2 ^ n : Nat) else m) := by
  obtain ⟨k, rfl⟩ : ∃ k, n = k + 65 := ⟨n - 65, by omega⟩
  have hcount : k + 65 - 64 = k + 1 := by omega
  have hlast : k + 65 - 1 = k + 64 := by omega
  have hpow : 2 ^ (k + 1) = 2 * 2 ^ k := Nat.pow_succ'
  have hhalf : 2 ^ (k + 64) = 2 ^ k * 2 ^ 64 := Nat.pow_add _ _ _
  have hwhole : 2 ^ (k + 65) = 2 * (2 ^ k * 2 ^ 64) := by rw [Nat.pow_add]; ring
  have hpos := Nat.two_pow_pos k
  have hword : (UInt64.ofNat m).toNat = m % 2 ^ 64 := UInt64.toNat_ofNat'
  generalize UInt64.ofNat m = w at hword
  -- The word, the value and the digits beyond the word depend on the digits 63 and `n - 1` alone.
  have hsign : w.toInt64.toInt =
      if m / 2 ^ 63 % 2 = 1 then (w.toNat : Int) - 2 ^ 64 else (w.toNat : Int) := by
    rw [toInt_toInt64]
    split <;> split <;> omega
  rw [hcount, hlast, hpow, hhalf, hwhole, Nat.testBit_eq_decide_div_mod_eq]
  rw [hwhole] at hm
  generalize 2 ^ k = q at hm hpos
  cases signed with
  | false =>
    have hzero : (0 : Int64).toInt = 0 := rfl
    have hinterpret : interpret? (k + 65) false w =
        if w.toInt64.toInt < 0 then none else some w.toInt64 := by
      simp [interpret?, Int64.lt_iff_toInt_lt, hzero]
    simp only [Bool.false_eq_true, if_false, Bool.false_and, hinterpret]
    by_cases hlow : m < 2 ^ 63
    · rw [if_pos (by omega), if_neg (by omega), Integer.ofInt?_of_toInt]
      omega
    · rw [Integer.ofInt?_eq_none (by omega)]
      split
      · rw [if_pos (by omega)] at hsign
        rw [if_pos (by omega)]
      · rfl
  | true =>
    have hinterpret : interpret? (k + 65) true w = some w.toInt64 := by
      simp [interpret?]
    simp only [Bool.true_and, decide_eq_true_eq, hinterpret]
    generalize hvalue : (if 0 < k + 65 ∧ q * 2 ^ 64 ≤ m then (m : Int) - (2 * (q * 2 ^ 64) : Nat)
      else m) = v
    have hv : v = if q * 2 ^ 64 ≤ m then (m : Int) - 2 * (q * 2 ^ 64) else (m : Int) := by
      rw [← hvalue]
      split <;> split <;> omega
    by_cases hfits : -2 ^ 63 ≤ v ∧ v < 2 ^ 63
    · have hrest : m / 2 ^ 64 = if m / 2 ^ 63 % 2 = 1 then 2 * q - 1 else 0 := by
        split at hv <;> split <;> omega
      rw [if_pos hrest, Integer.ofInt?_of_toInt]
      split at hv <;> split at hsign <;> omega
    · rw [Integer.ofInt?_eq_none hfits, if_neg]
      split at hv <;> split <;> omega

/-- An integer is read if the cursor has its bits ahead and the machine has an integer with the
value that they denote. -/
theorem integer?_eq_ofInt? (c : Cursor) (n : Nat) (e : Encoding) :
    c.integer? n e =
      if c.remaining < n then none
      else (Integer.ofInt? (e.toInt (c.peek n).toList)).map (·, c.advance n) := by
  unfold integer?
  split
  case isTrue => rfl
  case isFalse hshort =>
    have h := Nat.not_lt.1 hshort
    have hlt := Encoding.toNat_lt e (c.peek n).toList
    rw [length_toList_peek h] at hlt
    congr 1
    rw [word?_eq h]
    unfold Encoding.toInt
    rw [length_toList_peek h]
    generalize e.toNat (c.peek n).toList = m at hlt
    simp only [Nat.one_shiftLeft]
    by_cases hn : n ≤ 64
    · have hword : m / 2 ^ 64 = 0 :=
        Nat.div_eq_of_lt (hlt.trans_le (Nat.pow_le_pow_right (by omega) hn))
      have hnone : 2 ^ (n - 64) - 1 = 0 := by
        rw [Nat.sub_eq_zero_of_le hn]
        rfl
      rw [hword, hnone, ite_self, if_pos rfl, Option.bind_some, interpret?_of_le _ hn hlt]
    · rw [← interpret?_of_lt _ (by omega) hlt, apply_ite (Option.bind · _)]
      rfl

/-- Reading an integer gives the exact value or fails. It succeeds if and only if the cursor has `n`
bits ahead and the integer that they denote has at most 64 bits; then the result is that integer,
and the cursor moves on by `n`. -/
theorem integer?_exact (c : Cursor) (n : Nat) (flags : UInt16) :
    let e := Encoding.ofFlags flags
    let v := e.value (c.ahead.take n)
    (∀ i next, c.integer? n e = some (i, next) ↔
      n ≤ c.remaining ∧ i.toInt = v ∧ next = c.advance n) ∧
    (c.integer? n e = none ↔ c.remaining < n ∨ ¬ (-2 ^ 63 ≤ v ∧ v < 2 ^ 63)) := by
  intro e v
  have hv : e.toInt (c.peek n).toList = v := by
    rw [Encoding.toInt_eq_value, toList_peek]
  rw [integer?_eq_ofInt?, hv]
  by_cases hshort : c.remaining < n
  · rw [if_pos hshort]
    exact ⟨fun i next => ⟨nofun, fun h => absurd h.1 (by omega)⟩, fun _ => .inl hshort,
      fun _ => rfl⟩
  rw [if_neg hshort]
  by_cases hfits : -2 ^ 63 ≤ v ∧ v < 2 ^ 63
  · obtain ⟨i, hi⟩ : ∃ i : Int64, i.toInt = v :=
      ⟨Int64.ofInt v, Int64.toInt_ofInt_of_le hfits.1 hfits.2⟩
    rw [Integer.ofInt?_of_toInt hi, Option.map_some]
    refine ⟨fun j next => ⟨?_, ?_⟩, nofun, fun h => absurd h (by omega)⟩
    · intro heq
      cases heq
      exact ⟨Nat.not_lt.1 hshort, hi, rfl⟩
    · rintro ⟨-, hj, rfl⟩
      rw [Int64.toInt_inj.1 (hj.trans hi.symm)]
  · rw [Integer.ofInt?_eq_none hfits, Option.map_none]
    refine ⟨fun i next => ⟨nofun, ?_⟩, fun _ => .inr hfits, fun _ => rfl⟩
    rintro ⟨-, hi, -⟩
    exact absurd (Integer.fits_iff.1 (hi ▸ Integer.fits_toInt i)) hfits

end Cursor

end BitString

end ErlangMachine
