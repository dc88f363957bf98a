import ErlangMachine.Proofs.Subterms
import ErlangMachine.Proofs.TermOrder

/-!
# Comparing terms is a total preorder

Without floats, the order of terms is one that sorting can rely on: a term is equal to itself, two
terms compare the other way round when they change places, and the order passes from one pair of
terms to the next. It is a preorder and not an order, since terms can be equal that are not the
same: closures that differ in their arity only, cursors, catch tags. Floats have to be left out. An
integer is rounded when it is compared with one, so that two different integers can both be equal to
the same float.

What makes the comparison transitive is the same on all levels: a first comparison, and a second one
that counts only if the first finds no difference. `Composes` says of three results of comparisons
that they fit together, and `Composes.andThen` puts such comparisons together. The rank of terms is
the outermost of them.
-/

namespace ErlangMachine

/-! ## Results of comparisons that fit together -/

/-- Three results fit together as those of comparing a first thing with a second, the second with a
third and the first with the third. -/
def Composes (ab bc ac : Ordering) : Prop :=
  ab ≠ .gt → bc ≠ .gt → ac ≠ .gt ∧ (ac = .eq ↔ ab = .eq ∧ bc = .eq)

namespace Composes

/-- Comparisons of a transitive order fit together. -/
theorem of_transCmp {α : Type} (cmp : α → α → Ordering) [Std.TransCmp cmp] (a b c : α) :
    Composes (cmp a b) (cmp b c) (cmp a c) := by
  intro hab hbc
  have hab' := Ordering.isLE_iff_ne_gt.2 hab
  have hbc' := Ordering.isLE_iff_ne_gt.2 hbc
  refine ⟨Ordering.isLE_iff_ne_gt.1 (Std.TransCmp.isLE_trans hab' hbc'), fun hac => ?_,
    fun h => Std.TransCmp.eq_trans h.1 h.2⟩
  -- If there is no difference in the end, then the first step cannot be strict.
  cases h : cmp a b with
  | gt => exact absurd h hab
  | lt =>
    have hlt := Std.TransCmp.lt_of_lt_of_isLE h hbc'
    rw [hac] at hlt
    cases hlt
  | eq =>
    rw [Std.TransCmp.congr_left h] at hac
    exact ⟨rfl, hac⟩

/-- Nothing is asked if the first step goes down. -/
theorem gt_left (bc ac : Ordering) : Composes .gt bc ac := fun h => absurd rfl h

/-- Nothing is asked if the second step goes down. -/
theorem gt_right (ab ac : Ordering) : Composes ab .gt ac := fun _ h => absurd rfl h

/-- A first step up is one in the end. -/
theorem lt_left (bc : Ordering) : Composes .lt bc .lt := fun _ _ => by simp

/-- A second step up is one in the end. -/
theorem lt_right (ab : Ordering) : Composes ab .lt .lt := fun _ _ => by simp

theorem eq_left (bc : Ordering) : Composes .eq bc bc := fun _ h => by simp [h]

/-- Two steps that do not go down and of which one goes up lead up. -/
theorem eq_lt {ab bc ac : Ordering} (h : Composes ab bc ac) (hab : ab ≠ .gt) (hbc : bc ≠ .gt)
    (hne : ¬ (ab = .eq ∧ bc = .eq)) : ac = .lt := by
  obtain ⟨hgt, heq⟩ := h hab hbc
  cases ac with
  | lt => rfl
  | eq => exact absurd (heq.1 rfl) hne
  | gt => exact absurd rfl hgt

/-- A second comparison counts where the first finds no difference. -/
theorem andThen {ab bc ac ab' bc' ac' : Ordering} (h : Composes ab bc ac)
    (h' : ab = .eq → bc = .eq → Composes ab' bc' ac') :
    Composes (ab.then ab') (bc.then bc') (ac.then ac') := by
  cases ab with
  | gt => exact gt_left _ _
  | lt =>
    cases bc with
    | gt => exact gt_right _ _
    | lt | eq =>
      rw [h.eq_lt (by simp) (by simp) (by simp)]
      exact lt_left _
  | eq =>
    cases bc with
    | gt => exact gt_right _ _
    | lt =>
      rw [h.eq_lt (by simp) (by simp) (by simp)]
      exact lt_right _
    | eq =>
      rw [(h (by simp) (by simp)).2.2 ⟨rfl, rfl⟩]
      exact h' rfl rfl

end Composes

/-! ## Names and bits -/

/-- The order of atoms is transitive, as that of their names is. -/
theorem composes_compare_atom (a b c : Atom) :
    Composes (Ord.compare a b) (Ord.compare b c) (Ord.compare a c) :=
  Composes.of_transCmp (fun s t : String => Ord.compare s t) a.name b.name c.name

/-- Atoms that change places compare the other way round. -/
theorem compare_atom_swap (a b : Atom) : Ord.compare b a = (Ord.compare a b).swap := by
  show Ord.compare b.name a.name = (Ord.compare a.name b.name).swap
  exact Std.OrientedOrd.eq_swap

namespace Term

/-- A term with no float in it, also not in the environment of a closure. -/
def FloatFree (t : Term) : Prop := t.Every fun u => TypeTest.float.holds u = false

/-! ## Ranks -/

/-- The rank is compared first. -/
theorem compare_eq_rank_then (s t : Term) :
    s.compare t = (Ord.compare s.rank t.rank).then (s.compare t) := by
  by_cases h : s.rank = t.rank
  · rw [h, Std.ReflOrd.compare_self]
    rfl
  · rw [compare_of_rank_ne h]
    cases Ord.compare s.rank t.rank <;> rfl

/-- Comparisons of terms fit together if they do where all three have the same rank. -/
theorem composes_of_rank {a b c : Term} (h : a.rank = b.rank → b.rank = c.rank →
    Composes (a.compare b) (b.compare c) (a.compare c)) :
    Composes (a.compare b) (b.compare c) (a.compare c) := by
  rw [compare_eq_rank_then a b, compare_eq_rank_then b c, compare_eq_rank_then a c]
  refine (Composes.of_transCmp (fun m n : Nat => Ord.compare m n) _ _ _).andThen fun hab hbc => ?_
  exact h (Std.LawfulEqOrd.eq_of_compare hab) (Std.LawfulEqOrd.eq_of_compare hbc)

/-- Terms that change places compare the other way round if those of the same rank do. -/
theorem swap_of_rank {a b : Term} (h : a.rank = b.rank → b.compare a = (a.compare b).swap) :
    b.compare a = (a.compare b).swap := by
  by_cases hab : a.rank = b.rank
  · exact h hab
  · rw [compare_of_rank_ne hab, compare_of_rank_ne (Ne.symm hab), Nat.compare_swap]

/-! ## Functions known by name -/

/-- The order of functions known by name is transitive. -/
theorem composes_compareIds (f g h : FunctionId) :
    Composes (compareIds f g) (compareIds g h) (compareIds f h) := by
  refine (composes_compare_atom _ _ _).andThen fun _ _ => ?_
  refine (composes_compare_atom _ _ _).andThen fun _ _ => ?_
  exact Composes.of_transCmp (fun m n : Nat => Ord.compare m n) _ _ _

/-- Functions known by name that change places compare the other way round. -/
theorem compareIds_swap (f g : FunctionId) : compareIds g f = (compareIds f g).swap := by
  unfold compareIds
  rw [Ordering.swap_then, Ordering.swap_then, compare_atom_swap f.module,
    compare_atom_swap f.function, Nat.compare_swap]

/-- Floats that change places compare the other way round, numbers or not. -/
theorem compareFloats_swap (x y : Binary64) : compareFloats y x = (compareFloats x y).swap := by
  unfold compareFloats Binary64.compare?
  rw [Bool.or_comm]
  split
  · rfl
  · exact Std.OrientedOrd.eq_swap

/-! ## Terms -/

mutual

/-- Terms that change places compare the other way round. -/
theorem compare_swap : (a b : Term) → b.compare a = (a.compare b).swap
  | integer x, b => swap_of_rank fun hab => by
    -- Terms of different ranks are done; of one rank there are few forms.
    cases b <;> cases hab
    case integer y =>
      show Ord.compare y.toInt x.toInt = (Ord.compare x.toInt y.toInt).swap
      exact Std.OrientedOrd.eq_swap
    case float => exact compareFloats_swap _ _
  | float x, b => swap_of_rank fun hab => by
    cases b <;> cases hab
    · exact compareFloats_swap _ _
    · exact compareFloats_swap _ _
  | atom x, b => swap_of_rank fun hab => by
    cases b <;> cases hab
    exact compare_atom_swap _ _
  | reference m, b | port m, b | pid m, b => swap_of_rank fun hab => by
    cases b <;> cases hab
    exact (Nat.compare_swap _ _).symm
  | closure m e _ xs, b => swap_of_rank fun hab => by
    cases b <;> cases hab
    case closure n f _ ys =>
      simp only [compare, Ordering.swap_then, compare_atom_swap m.name n.name, Nat.compare_swap,
        compareAll_swap xs ys]
    case external => rfl
  | external f, b => swap_of_rank fun hab => by
    cases b <;> cases hab
    case closure => rfl
    case external g => exact compareIds_swap f g
  | tuple xs, b => swap_of_rank fun hab => by
    cases b <;> cases hab
    case tuple ys =>
      simp only [compare, Ordering.swap_then, Nat.compare_swap, compareAll_swap xs ys]
  | cons x xs, b => swap_of_rank fun hab => by
    cases b <;> cases hab
    case cons y ys =>
      rw [compare, compare, Ordering.swap_then, compare_swap x y, compare_swap xs ys]
  | bits x, b => swap_of_rank fun hab => by
    cases b <;> cases hab
    exact Std.OrientedOrd.eq_swap
  | nil, b | cursor _, b | catchTag _ _, b => swap_of_rank fun hab => by
    cases b <;> cases hab
    rfl

/-- Elements that change places compare the other way round. -/
theorem compareAll_swap : (as bs : List Term) → compareAll bs as = (compareAll as bs).swap
  | [], [] | [], _ :: _ | _ :: _, [] => rfl
  | a :: as, b :: bs => by
    rw [compareAll, compareAll, Ordering.swap_then, compare_swap a b, compareAll_swap as bs]

end

/-- Lists of terms are compared by their lengths first, so their elements need to fit together only
where all three are equally long. -/
theorem composes_sized {as bs cs : List Term} (h : as.length = bs.length → bs.length = cs.length →
    Composes (compareAll as bs) (compareAll bs cs) (compareAll as cs)) :
    Composes ((Ord.compare as.length bs.length).then (compareAll as bs))
      ((Ord.compare bs.length cs.length).then (compareAll bs cs))
      ((Ord.compare as.length cs.length).then (compareAll as cs)) := by
  refine (Composes.of_transCmp (fun m n : Nat => Ord.compare m n) _ _ _).andThen fun hab hbc => ?_
  exact h (Std.LawfulEqOrd.eq_of_compare hab) (Std.LawfulEqOrd.eq_of_compare hbc)

mutual

/-- The order of terms without floats is transitive. -/
theorem composes_compare : (a b c : Term) → a.FloatFree → b.FloatFree → c.FloatFree →
    Composes (a.compare b) (b.compare c) (a.compare c)
  | integer x, b, c, _, hb, hc => composes_of_rank fun hab hbc => by
    -- Floats have the rank of integers, and this is the only case that needs them left out.
    cases b <;> cases hab
    case float => cases hb
    case integer y =>
      cases c <;> cases hbc
      case float => cases hc
      case integer z => exact Composes.of_transCmp (fun m n : Int => Ord.compare m n) _ _ _
  | float x, _, _, ha, _, _ => by cases ha
  | atom x, b, c, _, _, _ => composes_of_rank fun hab hbc => by
    cases b <;> cases hab
    cases c <;> cases hbc
    exact composes_compare_atom _ _ _
  | reference m, b, c, _, _, _ | port m, b, c, _, _, _ | pid m, b, c, _, _, _ =>
    composes_of_rank fun hab hbc => by
    cases b <;> cases hab
    cases c <;> cases hbc
    exact Composes.of_transCmp (fun m n : Nat => Ord.compare m n) _ _ _
  | closure m e _ xs, b, c, ha, hb, hc => composes_of_rank fun hab hbc => by
    -- Functions known by name have the rank of closures and come after all of them.
    cases b <;> cases hab
    case closure n f _ ys =>
      cases c <;> cases hbc
      case closure o g _ zs =>
        refine (composes_compare_atom _ _ _).andThen fun _ _ => ?_
        refine (Composes.of_transCmp (fun m n : Nat => Ord.compare m n) _ _ _).andThen fun _ _ => ?_
        exact composes_sized fun hxy hyz => composes_compareAll xs ys zs hxy hyz ha.2 hb.2 hc.2
      case external => exact .lt_right _
    case external =>
      cases c <;> cases hbc
      case closure => exact .gt_right _ _
      case external => exact .lt_left _
  | external f, b, c, _, _, _ => composes_of_rank fun hab hbc => by
    cases b <;> cases hab
    case closure => exact .gt_left _ _
    case external =>
      cases c <;> cases hbc
      case closure => exact .gt_right _ _
      case external => exact composes_compareIds _ _ _
  | tuple xs, b, c, ha, hb, hc => composes_of_rank fun hab hbc => by
    cases b <;> cases hab
    case tuple ys =>
      cases c <;> cases hbc
      case tuple zs =>
        exact composes_sized fun hxy hyz => composes_compareAll xs ys zs hxy hyz ha.2 hb.2 hc.2
  | cons x xs, b, c, ha, hb, hc => composes_of_rank fun hab hbc => by
    cases b <;> cases hab
    case cons y ys =>
      cases c <;> cases hbc
      case cons z zs =>
        exact (composes_compare x y z ha.2.1 hb.2.1 hc.2.1).andThen fun _ _ =>
          composes_compare xs ys zs ha.2.2 hb.2.2 hc.2.2
  | bits x, b, c, _, _, _ => composes_of_rank fun hab hbc => by
    cases b <;> cases hab
    cases c <;> cases hbc
    exact Composes.of_transCmp (fun s t : BitString => Ord.compare s t) _ _ _
  | nil, b, c, _, _, _ | cursor _, b, c, _, _, _ | catchTag _ _, b, c, _, _, _ =>
    composes_of_rank fun hab hbc => by
    cases b <;> cases hab
    cases c <;> cases hbc
    exact .eq_left _

/-- The order of elements without floats is transitive. -/
theorem composes_compareAll : (as bs cs : List Term) → as.length = bs.length →
    bs.length = cs.length → EveryOf (fun u => TypeTest.float.holds u = false) as →
    EveryOf (fun u => TypeTest.float.holds u = false) bs →
    EveryOf (fun u => TypeTest.float.holds u = false) cs →
    Composes (compareAll as bs) (compareAll bs cs) (compareAll as cs)
  | [], [], [], _, _, _, _, _ => .eq_left _
  | a :: as, b :: bs, c :: cs, hab, hbc, ha, hb, hc =>
    (composes_compare a b c ha.1 hb.1 hc.1).andThen fun _ _ =>
      composes_compareAll as bs cs (Nat.succ.inj hab) (Nat.succ.inj hbc) ha.2 hb.2 hc.2

end

/-- Comparing terms without floats is a total preorder. -/
theorem compare_totalPreorder (a b c : Term) (ha : a.FloatFree) (hb : b.FloatFree)
    (hc : c.FloatFree) :
    a.compare a = .eq ∧ b.compare a = (a.compare b).swap ∧
      (a.compare b ≠ .gt → b.compare c ≠ .gt →
        a.compare c ≠ .gt ∧ (a.compare c = .eq ↔ a.compare b = .eq ∧ b.compare c = .eq)) :=
  ⟨compare_self a, compare_swap a b, composes_compare a b c ha hb hc⟩

/-- Two closures that differ in their arity are equal, and both come before a third one with a
longer list in its environment. -/
theorem compare_totalPreorder_closures :
    let a := closure ⟨"m", 0⟩ 4 1 [cons (integer 1) (atom "x"), bits (.ofBytes #[7])]
    let b := closure ⟨"m", 0⟩ 4 2 [cons (integer 1) (atom "x"), bits (.ofBytes #[7])]
    let c := closure ⟨"m", 0⟩ 4 1 [list [integer 1, nil], bits (.ofBytes #[])]
    a ≠ b ∧ a.compare b = .eq ∧ b.compare c = .lt ∧ b.compare a = .eq ∧ a.compare c = .lt := by
  intro a b c
  have hab : a.compare b = .eq := by decide +kernel
  have hbc : b.compare c = .lt := by decide +kernel
  have ha : a.FloatFree := by simp [a, FloatFree, Every, EveryOf, TypeTest.holds]
  have hb : b.FloatFree := by simp [b, FloatFree, Every, EveryOf, TypeTest.holds]
  have hc : c.FloatFree := by
    simp [c, FloatFree, Every, EveryOf, TypeTest.holds, list, listWithTail]
  obtain ⟨-, hswap, htrans⟩ := compare_totalPreorder a b c ha hb hc
  obtain ⟨hgt, heq⟩ := htrans (by simp [hab]) (by simp [hbc])
  refine ⟨by simp [a, b], hab, hbc, by rw [hswap, hab]; rfl, ?_⟩
  cases hac : a.compare c with
  | lt => rfl
  | eq => simp [hab, hbc, hac] at heq
  | gt => exact absurd hac hgt

end Term

end ErlangMachine
