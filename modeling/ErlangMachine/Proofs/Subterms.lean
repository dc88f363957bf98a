import ErlangMachine.Fault

/-!
# Properties of all parts of a term

`Term.Every p` says that `p` holds of a term and of all terms inside it: the parts of cells and
tuples and the environments of closures. The machine takes terms apart and puts them together, so a
property of this form survives most commands without a look at what the term is.
-/

namespace ErlangMachine

namespace Term

mutual

/-- `p` holds of a term and of every term inside it. -/
def Every (p : Term → Prop) : Term → Prop
  | cons head tail => p (cons head tail) ∧ head.Every p ∧ tail.Every p
  | tuple elements => p (tuple elements) ∧ EveryOf p elements
  | closure code entry arity environment =>
    p (closure code entry arity environment) ∧ EveryOf p environment
  | t => p t

/-- `p` holds of some terms and of every term inside them. -/
def EveryOf (p : Term → Prop) : List Term → Prop
  | [] => True
  | t :: ts => t.Every p ∧ EveryOf p ts

end

mutual

/-- Whether `p` holds of all parts can be computed if it can for each. -/
def decideEvery (p : Term → Prop) [DecidablePred p] : (t : Term) → Decidable (t.Every p)
  | cons head tail =>
    @instDecidableAnd _ _ inferInstance
      (@instDecidableAnd _ _ (decideEvery p head) (decideEvery p tail))
  | tuple elements => @instDecidableAnd _ _ inferInstance (decideEveryOf p elements)
  | closure _ _ _ environment =>
    @instDecidableAnd _ _ inferInstance (decideEveryOf p environment)
  | integer i => inferInstanceAs (Decidable (p (integer i)))
  | float x => inferInstanceAs (Decidable (p (float x)))
  | atom a => inferInstanceAs (Decidable (p (atom a)))
  | reference id => inferInstanceAs (Decidable (p (reference id)))
  | external id => inferInstanceAs (Decidable (p (external id)))
  | port id => inferInstanceAs (Decidable (p (port id)))
  | pid id => inferInstanceAs (Decidable (p (pid id)))
  | nil => inferInstanceAs (Decidable (p nil))
  | bits b => inferInstanceAs (Decidable (p (bits b)))
  | cursor c => inferInstanceAs (Decidable (p (cursor c)))
  | catchTag handler outer => inferInstanceAs (Decidable (p (catchTag handler outer)))

def decideEveryOf (p : Term → Prop) [DecidablePred p] : (ts : List Term) → Decidable (EveryOf p ts)
  | [] => isTrue trivial
  | t :: ts => @instDecidableAnd _ _ (decideEvery p t) (decideEveryOf p ts)

end

instance (p : Term → Prop) [DecidablePred p] (t : Term) : Decidable (t.Every p) := decideEvery p t

variable {p : Term → Prop}

/-- The list form says the same of each member. -/
theorem everyOf_iff {ts : List Term} : EveryOf p ts ↔ ∀ t ∈ ts, t.Every p := by
  induction ts with
  | nil => simp [EveryOf]
  | cons t ts ih => simp [EveryOf, ih]

/-- A term has what all of its parts have. -/
theorem Every.self {t : Term} (h : t.Every p) : p t := by
  cases t
  case closure => rw [Every] at h; exact h.1
  case tuple => rw [Every] at h; exact h.1
  case cons => rw [Every] at h; exact h.1
  all_goals exact h

mutual

/-- A property of all terms holds of every part. -/
theorem every_of_forall (h : ∀ t, p t) : (t : Term) → t.Every p
  | closure _ _ _ environment => ⟨h _, everyOf_of_forall h environment⟩
  | tuple elements => ⟨h _, everyOf_of_forall h elements⟩
  | cons head tail => ⟨h _, every_of_forall h head, every_of_forall h tail⟩
  | integer _ | float _ | atom _ | reference _ | external _ | port _ | pid _ | nil | bits _
  | cursor _ | catchTag _ _ => h _

/-- A property of all terms holds of every part of some terms. -/
theorem everyOf_of_forall (h : ∀ t, p t) : (ts : List Term) → EveryOf p ts
  | [] => trivial
  | t :: ts => ⟨every_of_forall h t, everyOf_of_forall h ts⟩

end

/-- The parts of a cell. -/
theorem Every.of_cons {head tail : Term} (h : (cons head tail).Every p) :
    head.Every p ∧ tail.Every p := by
  exact h.2

/-- The elements of a tuple. -/
theorem Every.of_tuple {elements : List Term} (h : (tuple elements).Every p) :
    ∀ t ∈ elements, t.Every p := by
  exact everyOf_iff.1 h.2

/-- The environment of a closure. -/
theorem Every.of_closure {code : ModuleRef} {entry arity : Nat} {environment : List Term}
    (h : (closure code entry arity environment).Every p) : ∀ t ∈ environment, t.Every p := by
  exact everyOf_iff.1 h.2

/-- A list has what its elements, the empty list and all cells have. -/
theorem every_list (hnil : p nil) (hcons : ∀ head tail, p (cons head tail)) {ts : List Term}
    (h : ∀ t ∈ ts, t.Every p) : (list ts).Every p := by
  induction ts with
  | nil => exact hnil
  | cons t ts ih =>
    have hts := ih fun u hu => h u (List.mem_cons_of_mem t hu)
    exact ⟨hcons _ _, h t List.mem_cons_self, hts⟩

/-- The elements that a list shows. -/
theorem every_of_list? {t : Term} {ts : List Term} (ht : t.Every p) (h : t.list? = some ts) :
    ∀ u ∈ ts, u.Every p := by
  fun_induction list? t generalizing ts with
  | case1 =>
    cases h
    intro u hu
    cases hu
  | case2 head tail ih =>
    obtain ⟨hhead, htail⟩ := ht.of_cons
    obtain ⟨us, hus, rfl⟩ := Option.map_eq_some_iff.1 h
    intro u hu
    rcases List.mem_cons.1 hu with rfl | hu
    · exact hhead
    · exact ih htail hus u hu
  | case3 => cases h

end Term

end ErlangMachine
