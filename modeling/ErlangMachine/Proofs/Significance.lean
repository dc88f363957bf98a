import Mathlib
import ErlangMachine.BitString.Segment

/-!
# The significance of a position

The positions of a segment and the significances of its bits are the same numbers in another order.
In big endian segments the order is reversed. In little endian ones it is reversed within each byte,
and the last byte may be short, so positions there are shifted. In both cases the reordering is its
own inverse, and `significance_permutes` puts together what follows from that. `significance?` works
it out without ever going below zero, and fails exactly for positions that the segment does not
have.
-/

namespace ErlangMachine

/-- Positions have significances below the size of the segment. -/
theorem significance_lt {s n : Nat} (h : s < n) (little : Bool) : significance s n little < n := by
  unfold significance
  cases little with
  | true => simp only [if_true]; omega
  | false => simp only [Bool.false_eq_true, if_false]; omega

/-- The significance of a position is the position of that significance. -/
theorem significance_significance {s n : Nat} (h : s < n) (little : Bool) :
    significance (significance s n little) n little = s := by
  unfold significance
  cases little with
  | true => simp only [if_true]; omega
  | false => simp only [Bool.false_eq_true, if_false]; omega

/-- A byte and a half in little endian: the positions of the short byte are shifted. -/
example : (List.range 12).map (significance · 12 true) =
    [7, 6, 5, 4, 3, 2, 1, 0, 11, 10, 9, 8] := by decide

/-- A search through the positions finds the one with a given significance. -/
theorem positionOf_eq {i n : Nat} (h : i < n) (little : Bool) :
    positionOf i n little = significance i n little := by
  have hfound : (List.range n).find? (fun s => significance s n little == i) =
      some (significance i n little) := by
    refine List.find?_range_eq_some.2 ⟨?_, List.mem_range.2 (significance_lt h _), fun s hs => ?_⟩
    · simp [significance_significance h]
    · have hne : significance s n little ≠ i := by
        rintro rfl
        have hlt : s < n := hs.trans (significance_lt h _)
        rw [significance_significance hlt] at hs
        exact Nat.lt_irrefl _ hs
      simp [hne]
  unfold positionOf
  rw [hfound, Option.getD_some]

/-! ## Checked subtraction -/

/-- A difference that is not below zero. -/
def difference? (a b : Nat) : Option Nat := if b ≤ a then some (a - b) else none

/-- The significance of a position, with every subtraction checked. -/
def significance? (s n : Nat) (little : Bool) : Option Nat :=
  if little then do
    let chunk ← difference? s (s % 8)
    let length := min 8 (← difference? n chunk)
    return chunk + (← difference? (← difference? length 1) (← difference? s chunk))
  else do difference? (← difference? n 1) s

/-- A difference, and what is done with it. -/
theorem difference?_bind (a b : Nat) (k : Nat → Option Nat) :
    (difference? a b >>= k) = if b ≤ a then k (a - b) else none := by
  unfold difference?
  split <;> rfl

/-- No subtraction goes below zero for a position of the segment. -/
theorem significance?_of_lt {s n : Nat} (h : s < n) (little : Bool) :
    significance? s n little = some (significance s n little) := by
  have hchunk : s % 8 ≤ s := Nat.mod_le s 8
  have hshort : s - (s - s % 8) < min 8 (n - (s - s % 8)) := by omega
  unfold significance? significance
  cases little with
  | false =>
    simp only [Bool.false_eq_true, if_false, difference?_bind]
    rw [if_pos (by omega), difference?, if_pos (by omega)]
  | true =>
    simp only [if_true, difference?_bind]
    rw [if_pos hchunk, if_pos (by omega), if_pos (by omega), if_pos (Nat.sub_le s _),
      if_pos (by omega)]
    rfl

/-- One does for every other position. -/
theorem significance?_of_le {s n : Nat} (h : n ≤ s) (little : Bool) :
    significance? s n little = none := by
  have hchunk : s % 8 ≤ s := Nat.mod_le s 8
  unfold significance?
  cases little with
  | false =>
    simp only [Bool.false_eq_true, if_false, difference?_bind]
    split
    · exact if_neg (by omega)
    · rfl
  | true =>
    simp only [if_true, difference?_bind]
    rw [if_pos hchunk]
    -- The last byte that the segment has ends before the position, if it begins before it at all.
    split
    · split
      · rw [if_pos (Nat.sub_le s _), if_neg (by omega)]
      · rfl
    · rfl

/-! ## The permutation -/

/-- Bit significance is a permutation of the positions of a segment, which no subtraction leaves:
every significance below the size of the segment belongs to exactly one position, a search through
the positions finds it, and the subtractions go below zero exactly if the position is none of the
segment. In little endian segments of whole bytes, bit `j` of byte `k`, counted from the most
significant one, has significance `8 * k + 7 - j`. -/
theorem significance_permutes (n : Nat) (little : Bool) :
    Set.BijOn (significance · n little) (Set.Iio n) (Set.Iio n) ∧
      Set.MapsTo (positionOf · n little) (Set.Iio n) (Set.Iio n) ∧
      Set.InvOn (positionOf · n little) (significance · n little) (Set.Iio n) (Set.Iio n) ∧
      (∀ s, significance? s n little = if s < n then some (significance s n little) else none) ∧
      (8 ∣ n → ∀ k j, k < n / 8 → j < 8 → significance (8 * k + j) n true = 8 * k + 7 - j) := by
  have hmaps : Set.MapsTo (significance · n little) (Set.Iio n) (Set.Iio n) :=
    fun _ hs => significance_lt hs little
  have hself : Set.InvOn (significance · n little) (significance · n little) (Set.Iio n)
      (Set.Iio n) :=
    ⟨fun _ hs => significance_significance hs little,
     fun _ hi => significance_significance hi little⟩
  have hsearch : Set.EqOn (positionOf · n little) (significance · n little) (Set.Iio n) :=
    fun _ hi => positionOf_eq hi little
  refine ⟨hself.bijOn hmaps hmaps, hsearch.mapsTo_iff.2 hmaps, ⟨?_, ?_⟩, fun s => ?_, ?_⟩
  · intro s hs
    exact (hsearch (hmaps hs)).trans (hself.1 hs)
  · intro i hi
    show significance (positionOf i n little) n little = i
    rw [positionOf_eq hi little]
    exact hself.2 hi
  · split
    · rename_i hs
      exact significance?_of_lt hs little
    · rename_i hs
      exact significance?_of_le (Nat.le_of_not_lt hs) little
  · rintro ⟨bytes, rfl⟩ k j hk hj
    simp only [significance, if_true]
    omega

/-- The first bit of the second byte of a little endian segment of two bytes. -/
theorem significance_permutes_sixteen :
    Set.BijOn (significance · 16 true) (Set.Iio 16) (Set.Iio 16) ∧
      8 ∣ 16 ∧ 1 < 16 / 8 ∧ 0 < 8 ∧ significance (8 * 1 + 0) 16 true = 8 * 1 + 7 - 0 :=
  ⟨(significance_permutes 16 true).1, by decide, by decide, by decide,
    (significance_permutes 16 true).2.2.2.2 (by decide) 1 0 (by decide) (by decide)⟩

end ErlangMachine
