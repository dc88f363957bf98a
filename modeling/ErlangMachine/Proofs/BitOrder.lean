import ErlangMachine.Proofs.ReadIntegers

/-!
# The order of bit strings

Two bit strings are compared byte by byte if both are whole bytes of their buffers, and bit by bit
otherwise. Both ways give the lexicographic order of their bits (`compare_eq`): of bytes, because
the order of bits of the same number is the order of the numbers that they denote
(`compare_highFirst`). So it does not matter where in its buffer a bit string stands.
-/

namespace ErlangMachine

/-- Lists are compared part by part if the first parts have the same length. -/
theorem compare_append {α : Type} [Ord α] {xs ys : List α} (h : xs.length = ys.length)
    (us vs : List α) : compare (xs ++ us) (ys ++ vs) = (compare xs ys).then (compare us vs) := by
  induction xs generalizing ys with
  | nil =>
    rw [List.eq_nil_of_length_eq_zero h.symm]
    rfl
  | cons x xs ih =>
    cases ys with
    | nil => cases h
    | cons y ys =>
      have hrest := ih (Nat.succ.inj h)
      rw [List.cons_append, List.cons_append, List.compare_cons_cons, List.compare_cons_cons, hrest]
      cases compare x y <;> rfl

/-- As many bits on both sides are ordered as the numbers that they denote. -/
theorem Encoding.compare_highFirst {xs ys : List Bool} (h : xs.length = ys.length) :
    compare xs ys = compare (highFirst xs) (highFirst ys) := by
  induction xs generalizing ys with
  | nil =>
    rw [List.eq_nil_of_length_eq_zero h.symm]
    rfl
  | cons x xs ih =>
    cases ys with
    | nil => cases h
    | cons y ys =>
      have hlength : xs.length = ys.length := Nat.succ.inj h
      have hfront : ∀ (b : Bool) (bits : List Bool),
          highFirst (b :: bits) = b.toNat * 2 ^ bits.length + highFirst bits := by
        intro b bits
        have hparts := highFirst_append [b] bits
        simpa [highFirst] using hparts
      have hx := highFirst_lt xs
      have hy := highFirst_lt ys
      rw [List.compare_cons_cons, ih hlength, hfront, hfront, hlength]
      rw [hlength] at hx
      generalize 2 ^ ys.length = weight at hx hy ⊢
      -- The first bits decide if they differ: the others denote less than their weight.
      cases x with
      | false =>
        cases y with
        | false => simp
        | true =>
          have hless :
              false.toNat * weight + highFirst xs < true.toNat * weight + highFirst ys := by
            simp
            omega
          rw [Nat.compare_eq_lt.2 hless]
          rfl
      | true =>
        cases y with
        | false =>
          have hmore :
              false.toNat * weight + highFirst ys < true.toNat * weight + highFirst xs := by
            simp
            omega
          rw [Nat.compare_eq_gt.2 hmore]
          rfl
        | true => simp [Nat.compare_eq_ite_lt]

namespace BitString

/-- Bytes are ordered as their bits are. -/
theorem compare_bitsOfByte (x y : UInt8) : compare x y = compare (bitsOfByte x) (bitsOfByte y) := by
  rw [Encoding.compare_highFirst (by simp), highFirst_bitsOfByte, highFirst_bitsOfByte]
  exact UInt8.compare_eq_toNat_compare_toNat x y

/-- Lists of bytes are ordered as their bits are. -/
theorem compare_flatMap_bitsOfByte (as bs : List UInt8) :
    compare (as.flatMap bitsOfByte) (bs.flatMap bitsOfByte) = compare as bs := by
  induction as generalizing bs with
  | nil =>
    cases bs with
    | nil => rfl
    | cons b bs => rfl
  | cons a as ih =>
    cases bs with
    | nil => rfl
    | cons b bs =>
      rw [List.flatMap_cons, List.flatMap_cons, compare_append (by simp), ih,
        List.compare_cons_cons, compare_bitsOfByte]

/-- Looking for the first place where two sequences differ gives the lexicographic order. -/
theorem findSome?_range_eq (f g : Nat → Bool) (m n : Nat) :
    ((List.range (min m n)).findSome? fun i =>
      if compare (f i) (g i) = .eq then none else some (compare (f i) (g i))).getD (compare m n) =
      compare ((List.range m).map f) ((List.range n).map g) := by
  induction m generalizing n f g with
  | zero =>
    cases n with
    | zero => rfl
    | succ n => simp [List.range_succ_eq_map, Nat.compare_eq_lt.2]
  | succ m ih =>
    cases n with
    | zero => simp [List.range_succ_eq_map, Nat.compare_eq_gt.2]
    | succ n =>
      have hmin : min (m + 1) (n + 1) = min m n + 1 := by omega
      have hcompare : compare (m + 1) (n + 1) = compare m n := by simp [Nat.compare_eq_ite_lt]
      have hrest := ih (f ∘ Nat.succ) (g ∘ Nat.succ) n
      rw [hmin, hcompare, List.range_succ_eq_map, List.range_succ_eq_map, List.range_succ_eq_map,
        List.findSome?_cons, List.findSome?_map, List.map_cons, List.map_cons, List.map_map,
        List.map_map, List.compare_cons_cons, ← hrest]
      cases compare (f 0) (g 0) <;> rfl

/-- Bit by bit, bit strings are ordered as their bits are. -/
theorem compareBits_eq (a b : BitString) : compareBits a b = compare a.toList b.toList :=
  findSome?_range_eq a.bit b.bit a.size b.size

/-- Bit strings are ordered as their bits are, however they stand in their buffers. -/
theorem compare_eq (a b : BitString) : compare a b = compare a.toList b.toList := by
  show BitString.compare a b = _
  unfold BitString.compare
  split
  case h_1 as bs ha hb =>
    rw [← flatMap_alignedBytes? ha, ← flatMap_alignedBytes? hb, compare_flatMap_bitsOfByte]
  case h_2 => exact compareBits_eq a b

/-- The order of bit strings is oriented and transitive, as that of bits is. -/
instance : Std.TransOrd BitString where
  eq_swap := by
    intro a b
    rw [compare_eq, compare_eq]
    exact Std.OrientedOrd.eq_swap
  isLE_trans := by
    intro a b c hab hbc
    rw [compare_eq] at hab hbc ⊢
    exact Std.TransOrd.isLE_trans hab hbc

/-- Neither of two bit strings comes first if and only if their bits are the same. -/
theorem compare_eq_eq_iff {a b : BitString} : compare a b = .eq ↔ a.toList = b.toList := by
  rw [compare_eq, Std.compare_eq_iff_eq]

/-- Bit strings are equal if and only if their bits are the same. -/
theorem beq_iff {a b : BitString} : (a == b) = true ↔ a.toList = b.toList := by
  show (compare a b == .eq) = true ↔ _
  rw [beq_iff_eq, compare_eq_eq_iff]

end BitString

end ErlangMachine
