import ErlangMachine.Proofs.BitOrder

/-!
# Windows with the same bits

A bit string may stand anywhere in its buffer, and what is done with it goes by whole bytes where
its window allows that. What comes out depends on the bits alone: each operation is the one on lists
of bits that it should be, for windows of any alignment, cut out of other windows or not.
-/

namespace ErlangMachine

/-- Bits come first in the order of lists if and only if they come first in the comparison. -/
theorem compare_eq_lt_iff {xs ys : List Bool} : compare xs ys = .lt ↔ xs < ys := by
  induction xs generalizing ys with
  | nil =>
    cases ys with
    | nil => simp
    | cons y ys => simp
  | cons x xs ih =>
    cases ys with
    | nil => simp
    | cons y ys =>
      have hless : compare x y = .lt ↔ x < y := by cases x <;> cases y <;> decide
      rw [List.compare_cons_cons, List.cons_lt_cons_iff, Ordering.then_eq_lt, ih, hless,
        Std.compare_eq_iff_eq]

namespace BitString

/-- The operations on bit strings are those on their lists of bits. Up to 64 bits inside the window
are read as the number that they denote, the first counting most; a piece inside the window has the
bits that stand there; the bytes have all bits in order and then clear ones up to a full byte; one
bit string comes before another if its bits come first lexicographically, a proper beginning first;
and two are equal if they have the same bits. -/
theorem operations_on_bits (a b : BitString) :
    (∀ i n, n ≤ 64 → i + n ≤ a.size →
      (a.read i n).toNat = Encoding.highFirst ((a.toList.drop i).take n)) ∧
    (∀ i n, i + n ≤ a.size →
      (a.slice i n).size = n ∧ (a.slice i n).toList = (a.toList.drop i).take n) ∧
    a.toBytes.flatMap bitsOfByte = a.toList ++ List.replicate ((8 - a.size % 8) % 8) false ∧
    (compare a b = .lt ↔ a.toList < b.toList) ∧
    (compare a b = .gt ↔ b.toList < a.toList) ∧
    ((a == b) = true ↔ a.toList = b.toList) := by
  refine ⟨fun i n hn hend => ?_, fun i n hend => ⟨?_, toList_slice a i n⟩, flatMap_toBytes a, ?_,
    ?_, beq_iff⟩
  · rw [toNat_read hn (by omega), toList_slice]
  · exact Nat.min_eq_left (by omega)
  · rw [compare_eq, compare_eq_lt_iff]
  · rw [compare_eq, ← compare_eq_lt_iff, Std.OrientedOrd.eq_swap, Ordering.swap_eq_gt]

/-- Ten bits in the middle of two bytes. -/
def straddling : BitString := (ofBytes #[0xAC, 0x50]).slice 3 10

/-- Eight of the ten bits are read, and five are cut out. The whole comes after a byte that has its
first bits. -/
theorem operations_on_bits_straddling :
    1 + 8 ≤ straddling.size ∧ (straddling.read 1 8).toNat = 0xC5 ∧
      2 + 5 ≤ straddling.size ∧ (straddling.slice 2 5).toList = [true, false, false, false, true] ∧
      compare straddling (ofBytes #[0x62]) = .gt := by
  obtain ⟨hread, hslice, -, -, hgt, -⟩ := operations_on_bits straddling (ofBytes #[0x62])
  refine ⟨by decide, (hread 1 8 (by decide) (by decide)).trans ?_, by decide,
    (hslice 2 5 (by decide)).2.trans ?_, hgt.2 ?_⟩
  · decide
  · decide
  · decide

end BitString

end ErlangMachine
