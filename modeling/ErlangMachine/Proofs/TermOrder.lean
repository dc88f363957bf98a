import ErlangMachine.Proofs.BitOrder
import ErlangMachine.Term.Order

/-!
# Equality in the order of terms

Every term is equal to itself, in the order of terms and exactly. Floats do not spoil this: what is
not a number counts as equal to everything. Both facts follow the recursion of the comparison, with
one twin each for the elements of tuples and the environments of closures. Terms that are exactly
equal are of one kind (`rank_of_exactEq`).
-/

namespace ErlangMachine

namespace Term

/-- Two equal floats are neither before nor after each other, numbers or not. -/
theorem compareFloats_self (x : Binary64) : compareFloats x x = .eq := by
  unfold compareFloats Binary64.compare?
  split
  · rfl
  · exact Std.ReflOrd.compare_self (a := x.position)

/-- Atoms are compared as their names. -/
theorem compare_atom_self (a : Atom) : Ord.compare a a = .eq := by
  show Ord.compare a.name a.name = .eq
  exact Std.ReflCmp.compare_self

/-- Atoms are equal in their order if and only if they are equal. -/
theorem compare_atom_eq_iff (a b : Atom) : Ord.compare a b = .eq ↔ a = b := by
  constructor
  · intro h
    cases a
    cases b
    exact congrArg _ (Std.LawfulEqOrd.eq_of_compare h)
  · rintro rfl
    exact compare_atom_self a

mutual

/-- A term is equal to itself. -/
theorem compare_self : (t : Term) → t.compare t = .eq
  | integer a => by rw [compare]; exact Std.ReflCmp.compare_self
  | float x => by rw [compare]; exact compareFloats_self x
  | atom a => by rw [compare]; exact compare_atom_self a
  | reference n => by rw [compare]; exact Std.ReflCmp.compare_self
  | port n => by rw [compare]; exact Std.ReflCmp.compare_self
  | pid n => by rw [compare]; exact Std.ReflCmp.compare_self
  | closure code entry arity environment => by
    rw [compare, compare_atom_self, compareAll_self environment]
    simp only [Std.ReflCmp.compare_self, Ordering.then]
  | external f => by
    rw [compare, compareIds, compare_atom_self, compare_atom_self]
    simp only [Std.ReflCmp.compare_self, Ordering.then]
  | tuple elements => by
    rw [compare, compareAll_self elements]
    simp only [Std.ReflCmp.compare_self, Ordering.then]
  | cons head tail => by
    rw [compare, compare_self head, compare_self tail]
    rfl
  | bits b => by rw [compare]; exact Std.ReflCmp.compare_self
  | nil => by rfl
  | cursor _ => by rfl
  | catchTag _ _ => by rfl

/-- Elements are equal to themselves. -/
theorem compareAll_self : (ts : List Term) → compareAll ts ts = .eq
  | [] => rfl
  | t :: ts => by
    rw [compareAll, compare_self t, compareAll_self ts]
    rfl

end

mutual

/-- A term is exactly equal to itself. -/
theorem exactEq_self : (t : Term) → t.exactEq t = true
  | tuple elements => by rw [exactEq, exactEqAll_self elements, beq_self_eq_true]; rfl
  | cons head tail => by rw [exactEq, exactEq_self head, exactEq_self tail]; rfl
  | integer _ | float _ | atom _ | reference _ | port _ | pid _ | closure .. | external _ | bits _
  | nil | cursor _ | catchTag .. => by simp [exactEq, compare_self]

/-- Elements are exactly equal to themselves. -/
theorem exactEqAll_self : (ts : List Term) → exactEqAll ts ts = true
  | [] => rfl
  | t :: ts => by rw [exactEqAll, exactEq_self t, exactEqAll_self ts]; rfl

end

/-- Bit strings with the same bits are exactly equal. -/
theorem exactEq_bits {a b : BitString} (h : a.toList = b.toList) :
    (bits a).exactEq (bits b) = true := by
  have hcompare : Ord.compare a b = .eq := BitString.compare_eq_eq_iff.2 h
  simp [exactEq, compare, hcompare]

/-! ## Kinds -/

/-- Terms of different ranks compare as their ranks. -/
theorem compare_of_rank_ne {s t : Term} (h : s.rank ≠ t.rank) :
    s.compare t = Ord.compare s.rank t.rank := by
  cases s <;> cases t <;> first | exact absurd rfl h | rfl

/-- Terms of different kinds are not exactly equal. -/
theorem exactEq_of_rank_ne {a b : Term} (h : a.rank ≠ b.rank) : a.exactEq b = false := by
  have hcompare : (a.compare b == .eq) = false := by
    rw [compare_of_rank_ne h, beq_eq_false_iff_ne]
    exact fun heq => h (Std.LawfulEqOrd.eq_of_compare heq)
  cases a <;> cases b <;> first
    | exact absurd rfl h
    | exact hcompare

/-- Terms that are exactly equal are of one kind. -/
theorem rank_of_exactEq {a b : Term} (h : a.exactEq b = true) : a.rank = b.rank := by
  by_contra hab
  rw [exactEq_of_rank_ne hab] at h
  cases h

end Term

end ErlangMachine
