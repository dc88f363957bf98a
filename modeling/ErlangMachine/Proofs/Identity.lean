import ErlangMachine.Proofs.FiniteConstants
import ErlangMachine.Proofs.NumberOrder

/-!
# Exact equality and identity

`Same` lists when two terms are the same: the same number, name or identity, the same bits, parts
that are pairwise the same. It leaves open how strict it is about numbers, that is, whether an
integer may be the same as a float, and lets the values that closures captured be taken less
strictly than the rest. `Identical` is the strict reading at all depths. What `compare` takes for
equal are the terms that are the same by value (`compare_eq_iff`), and exact equality is strict
outside of closures and goes by value inside (`exactEq_iff`).

So the two differ in one place only: exact equality holds of terms that are not identical if and
only if, somewhere among captured values, an integer faces a float.
-/

namespace ErlangMachine

namespace Term

/-- How numbers of different kinds count. -/
inductive Strictness where
  /-- An integer is never the same as a float. -/
  | exact
  /-- An integer is the same as the float that it rounds to. -/
  | byValue

mutual

/-- Two terms are the same. Numbers are taken as strictly as the second argument says, and the first
one turns this into the strictness for what closures captured. Closures are known by their code and
not by their arity. Cursors and catch tags have no identity. -/
inductive Same (captured : Strictness → Strictness) : Strictness → Term → Term → Prop where
  | integer {s} (i : Int64) : Same captured s (integer i) (integer i)
  | float {s x y} (h : x.value = y.value) : Same captured s (float x) (float y)
  | integerFloat {i x} (h : (Binary64.ofInt i.toInt).value = x.value) :
    Same captured .byValue (integer i) (float x)
  | floatInteger {x i} (h : x.value = (Binary64.ofInt i.toInt).value) :
    Same captured .byValue (float x) (integer i)
  | atom {s} (a : Atom) : Same captured s (atom a) (atom a)
  | reference {s} (n : Nat) : Same captured s (reference n) (reference n)
  | port {s} (n : Nat) : Same captured s (port n) (port n)
  | pid {s} (n : Nat) : Same captured s (pid n) (pid n)
  | external {s} (f : FunctionId) : Same captured s (external f) (external f)
  | closure {s m n entry j k xs ys} (hname : m.name = n.name)
    (h : SameAll captured (captured s) xs ys) :
    Same captured s (closure m entry j xs) (closure n entry k ys)
  | tuple {s xs ys} (h : SameAll captured s xs ys) : Same captured s (tuple xs) (tuple ys)
  | nil {s} : Same captured s nil nil
  | cons {s x y xs ys} (hhead : Same captured s x y) (htail : Same captured s xs ys) :
    Same captured s (cons x xs) (cons y ys)
  | bits {s a b} (h : a.toList = b.toList) : Same captured s (bits a) (bits b)
  | cursor {s} (c d : BitString.Cursor) : Same captured s (cursor c) (cursor d)
  | catchTag {s} (h k : Handler) (hs ks : List Handler) :
    Same captured s (catchTag h hs) (catchTag k ks)

/-- As many terms on both sides, pairwise the same. -/
inductive SameAll (captured : Strictness → Strictness) :
    Strictness → List Term → List Term → Prop where
  | nil {s} : SameAll captured s [] []
  | cons {s x y xs ys} (hhead : Same captured s x y) (htail : SameAll captured s xs ys) :
    SameAll captured s (x :: xs) (y :: ys)

end

/-- Two terms have the same structure, and an integer is nowhere the same as a float. -/
def Identical (a b : Term) : Prop := Same id .exact a b

/-- One of two terms is an integer and the other a float. -/
inductive Mixes : Term → Term → Prop where
  | integerFloat (i : Int64) (x : Binary64) : Mixes (integer i) (float x)
  | floatInteger (x : Binary64) (i : Int64) : Mixes (float x) (integer i)

/-- `Facing inside a b u v` says that `u` and `v` stand at the same place in `a` and `b`, among the
values that closures captured if `inside` is set and in plain sight otherwise. -/
inductive Facing : Bool → Term → Term → Term → Term → Prop where
  | here (a b : Term) : Facing false a b a b
  | head {inside x y xs ys u v} (h : Facing inside x y u v) :
    Facing inside (cons x xs) (cons y ys) u v
  | tail {inside x y xs ys u v} (h : Facing inside xs ys u v) :
    Facing inside (cons x xs) (cons y ys) u v
  | element {inside x y xs ys u v} (hmem : (x, y) ∈ xs.zip ys) (h : Facing inside x y u v) :
    Facing inside (tuple xs) (tuple ys) u v
  | captured {inside m n e f j k x y xs ys u v} (hmem : (x, y) ∈ xs.zip ys)
    (h : Facing inside x y u v) : Facing true (closure m e j xs) (closure n f k ys) u v

variable {captured : Strictness → Strictness} {s : Strictness} {a b y : Term} {i : Int64}
  {x : Binary64} {xs ys : List Term}

/-! ## Terms of one kind -/

/-- Terms that are the same are of one kind. -/
theorem Same.rank_eq (h : Same captured s a b) : a.rank = b.rank := by
  cases h <;> rfl

/-- Integers are the same if they are equal. -/
theorem same_integer_iff {j : Int64} : Same captured s (integer i) (integer j) ↔ i = j := by
  constructor
  · rintro ⟨⟩
    rfl
  · rintro rfl
    exact .integer i

/-- Floats are the same if they have the same value. -/
theorem same_float_iff {y : Binary64} :
    Same captured s (float x) (float y) ↔ x.value = y.value := by
  constructor
  · rintro ⟨⟩
    assumption
  · exact .float

/-- An integer is the same as a float by value only. -/
theorem same_integer_float_iff : Same captured s (integer i) (float x) ↔
    s = .byValue ∧ (Binary64.ofInt i.toInt).value = x.value := by
  constructor
  · rintro ⟨⟩
    exact ⟨rfl, by assumption⟩
  · rintro ⟨rfl, h⟩
    exact .integerFloat h

/-- A float is the same as an integer by value only. -/
theorem same_float_integer_iff : Same captured s (float x) (integer i) ↔
    s = .byValue ∧ x.value = (Binary64.ofInt i.toInt).value := by
  constructor
  · rintro ⟨⟩
    exact ⟨rfl, by assumption⟩
  · rintro ⟨rfl, h⟩
    exact .floatInteger h

/-- Atoms, functions known by name, references, ports and process identities. -/
def isToken : Term → Bool
  | atom _ | external _ | reference _ | port _ | pid _ => true
  | _ => false

/-- A token is the same as itself only. -/
theorem same_iff_eq (ha : a.isToken = true) : Same captured s a b ↔ a = b := by
  constructor
  · intro h
    cases h <;> first | rfl | exact Bool.noConfusion ha
  · rintro rfl
    cases a <;> first | exact Bool.noConfusion ha | constructor

/-- Closures are the same if they run the same code on the same values. -/
theorem same_closure_iff {m n : ModuleRef} {e f j k : Nat} :
    Same captured s (closure m e j xs) (closure n f k ys) ↔
      m.name = n.name ∧ e = f ∧ SameAll captured (captured s) xs ys := by
  constructor
  · intro h
    cases h with
    | closure hname h => exact ⟨hname, rfl, h⟩
  · rintro ⟨hname, rfl, h⟩
    exact .closure hname h

/-- Tuples are the same if their elements are. -/
theorem same_tuple_iff : Same captured s (tuple xs) (tuple ys) ↔ SameAll captured s xs ys := by
  constructor
  · rintro ⟨⟩
    assumption
  · exact .tuple

/-- Cells are the same if both of their parts are. -/
theorem same_cons_iff {x xs ys : Term} :
    Same captured s (cons x xs) (cons y ys) ↔ Same captured s x y ∧ Same captured s xs ys := by
  constructor
  · intro h
    cases h with
    | cons hhead htail => exact ⟨hhead, htail⟩
  · rintro ⟨hhead, htail⟩
    exact .cons hhead htail

/-- Bit strings are the same if their bits are. -/
theorem same_bits_iff {a b : BitString} :
    Same captured s (bits a) (bits b) ↔ a.toList = b.toList := by
  constructor
  · rintro ⟨⟩
    assumption
  · exact .bits

/-- Members are the same if the first ones and the other ones are. -/
theorem sameAll_cons_iff {x : Term} :
    SameAll captured s (x :: xs) (y :: ys) ↔ Same captured s x y ∧ SameAll captured s xs ys := by
  constructor
  · intro h
    cases h with
    | cons hhead htail => exact ⟨hhead, htail⟩
  · rintro ⟨hhead, htail⟩
    exact .cons hhead htail

/-! ## Facing terms -/

/-- An integer is never strictly the same as a float. -/
theorem Same.not_mixes (h : Same captured .exact a b) : ¬ Mixes a b := by
  rintro (⟨i, x⟩ | ⟨x, i⟩) <;> cases h

/-- Members that face each other are the same if all are. -/
theorem SameAll.of_mem_zip {x : Term} :
    {xs ys : List Term} → SameAll captured s xs ys → (x, y) ∈ xs.zip ys → Same captured s x y
  | _, _, .nil, hmem => by cases hmem
  | _, _, .cons hhead htail, hmem => by
    rcases List.mem_cons.1 hmem with heq | hmem
    · cases heq
      exact hhead
    · exact htail.of_mem_zip hmem

theorem SameAll.length_eq : {xs ys : List Term} → SameAll captured s xs ys → xs.length = ys.length
  | _, _, .nil => rfl
  | _, _, .cons _ htail => congrArg (· + 1) htail.length_eq

/-- Terms that face each other are the same. In plain sight they are as strictly as the terms around
them, and everywhere if captured values are taken no less strictly than the rest. -/
theorem Facing.same {inside : Bool} {u v : Term} (hf : Facing inside a b u v)
    (h : Same captured s a b) :
    ∃ s', Same captured s' u v ∧ (inside = false → s' = s) ∧ (captured s = s → s' = s) := by
  induction hf generalizing s with
  | here a b => exact ⟨s, h, fun _ => rfl, fun _ => rfl⟩
  | head _ ih => cases h with | cons hhead htail => exact ih hhead
  | tail _ ih => cases h with | cons hhead htail => exact ih htail
  | element hmem _ ih => cases h with | tuple h => exact ih (h.of_mem_zip hmem)
  | captured hmem _ ih =>
    cases h with
    | closure hname h =>
      -- From here on the strictness is that for captured values.
      obtain ⟨s', hsame, -, hfixed⟩ := ih (h.of_mem_zip hmem)
      refine ⟨s', hsame, fun hinside => (by cases hinside), fun hs => ?_⟩
      rw [hs] at hfixed
      exact hfixed hs

mutual

/-- Where no integer faces a float, the strictness does not matter. -/
theorem Same.of_not_mixes {captured' : Strictness → Strictness} : {s s' : Strictness} →
    {a b : Term} → Same captured s a b →
    (∀ inside u v, Facing inside a b u v → ¬ Mixes u v) → Same captured' s' a b
  | _, _, _, _, .integer i, _ => .integer i
  | _, _, _, _, .float h, _ => .float h
  | _, _, _, _, .integerFloat _, hpure => absurd (.integerFloat _ _) (hpure _ _ _ (.here _ _))
  | _, _, _, _, .floatInteger _, hpure => absurd (.floatInteger _ _) (hpure _ _ _ (.here _ _))
  | _, _, _, _, .atom a, _ => .atom a
  | _, _, _, _, .reference n, _ => .reference n
  | _, _, _, _, .port n, _ => .port n
  | _, _, _, _, .pid n, _ => .pid n
  | _, _, _, _, .external f, _ => .external f
  | _, _, _, _, .closure hname h, hpure =>
    .closure hname (h.of_not_mixes fun _ _ hmem _ _ _ hf => hpure _ _ _ (.captured hmem hf))
  | _, _, _, _, .tuple h, hpure =>
    .tuple (h.of_not_mixes fun _ _ hmem _ _ _ hf => hpure _ _ _ (.element hmem hf))
  | _, _, _, _, .nil, _ => .nil
  | _, _, _, _, .cons hhead htail, hpure =>
    .cons (hhead.of_not_mixes fun _ _ _ hf => hpure _ _ _ (.head hf))
      (htail.of_not_mixes fun _ _ _ hf => hpure _ _ _ (.tail hf))
  | _, _, _, _, .bits h, _ => .bits h
  | _, _, _, _, .cursor c d, _ => .cursor c d
  | _, _, _, _, .catchTag h k hs ks, _ => .catchTag h k hs ks

theorem SameAll.of_not_mixes {captured' : Strictness → Strictness} : {s s' : Strictness} →
    {xs ys : List Term} → SameAll captured s xs ys →
    (∀ x y, (x, y) ∈ xs.zip ys → ∀ inside u v, Facing inside x y u v → ¬ Mixes u v) →
    SameAll captured' s' xs ys
  | _, _, _, _, .nil, _ => .nil
  | _, _, _, _, .cons hhead htail, hpure =>
    .cons (hhead.of_not_mixes (hpure _ _ (List.mem_cons_self ..)))
      (htail.of_not_mixes fun _ _ hmem => hpure _ _ (List.mem_cons_of_mem _ hmem))

end

/-- Terms are identical if and only if they are the same, however strictly, and no integer faces a
float. -/
theorem identical_iff :
    Identical a b ↔ Same captured s a b ∧ ∀ inside u v, Facing inside a b u v → ¬ Mixes u v := by
  constructor
  · intro h
    have hpure : ∀ inside u v, Facing inside a b u v → ¬ Mixes u v := by
      intro inside u v hf
      obtain ⟨s', hsame, -, hs⟩ := hf.same h
      rw [hs rfl] at hsame
      exact hsame.not_mixes
    exact ⟨Same.of_not_mixes h hpure, hpure⟩
  · rintro ⟨h, hpure⟩
    exact h.of_not_mixes hpure

/-! ## Equality in the order of terms -/

/-- Terms are compared within their kind. -/
theorem compare_iff_of_rank (h : a.rank = b.rank → (a.compare b = .eq ↔ Same captured s a b)) :
    a.compare b = .eq ↔ Same captured s a b := by
  by_cases hab : a.rank = b.rank
  · exact h hab
  · refine iff_of_false (fun heq => hab ?_) fun hsame => hab hsame.rank_eq
    rw [compare_of_rank_ne hab] at heq
    exact Std.LawfulEqOrd.eq_of_compare heq

/-- Functions known by name are equal in their order if and only if they are equal. -/
theorem compareIds_eq_iff (f g : FunctionId) : compareIds f g = .eq ↔ f = g := by
  unfold compareIds
  rw [Ordering.then_eq_eq, Ordering.then_eq_eq, compare_atom_eq_iff, compare_atom_eq_iff,
    Std.LawfulEqOrd.compare_eq_iff_eq]
  cases f
  cases g
  simp

/-- Lists of terms are compared by their lengths first, so their members need to be compared only
where there are as many on both sides. -/
theorem sized_eq_iff
    (h : xs.length = ys.length → (compareAll xs ys = .eq ↔ SameAll captured s xs ys)) :
    (Ord.compare xs.length ys.length).then (compareAll xs ys) = .eq ↔ SameAll captured s xs ys := by
  rw [Ordering.then_eq_eq, Std.LawfulEqOrd.compare_eq_iff_eq]
  constructor
  · rintro ⟨hlength, heq⟩
    exact (h hlength).1 heq
  · intro hsame
    exact ⟨hsame.length_eq, (h hsame.length_eq).2 hsame⟩

mutual

/-- Terms with finite floats are equal in their order if and only if they are the same by value. -/
theorem compare_eq_iff (hcaptured : captured .byValue = .byValue) : (a b : Term) → a.Finite →
    b.Finite → (a.compare b = .eq ↔ Same captured .byValue a b)
  | integer i, b, _, hb => compare_iff_of_rank fun hab => by
    cases b <;> cases hab
    case integer j =>
      rw [compare, Std.LawfulEqOrd.compare_eq_iff_eq, Int64.toInt_inj, same_integer_iff]
    case float y =>
      rw [compare, Binary64.compareFloats_eq (Binary64.isFinite_ofInt i) hb, compare_eq_iff_eq,
        same_integer_float_iff, eq_self, true_and]
  | float x, b, ha, hb => compare_iff_of_rank fun hab => by
    cases b <;> cases hab
    case integer j =>
      rw [compare, Binary64.compareFloats_eq ha (Binary64.isFinite_ofInt j), compare_eq_iff_eq,
        same_float_integer_iff, eq_self, true_and]
    case float y => rw [compare, Binary64.compareFloats_eq ha hb, compare_eq_iff_eq, same_float_iff]
  | atom a, b, _, _ => compare_iff_of_rank fun hab => by
    cases b <;> cases hab
    rw [compare, compare_atom_eq_iff, same_iff_eq rfl, atom.injEq]
  | reference n, b, _, _ => compare_iff_of_rank fun hab => by
    cases b <;> cases hab
    rw [compare, Std.LawfulEqOrd.compare_eq_iff_eq, same_iff_eq rfl, reference.injEq]
  | port n, b, _, _ => compare_iff_of_rank fun hab => by
    cases b <;> cases hab
    rw [compare, Std.LawfulEqOrd.compare_eq_iff_eq, same_iff_eq rfl, port.injEq]
  | pid n, b, _, _ => compare_iff_of_rank fun hab => by
    cases b <;> cases hab
    rw [compare, Std.LawfulEqOrd.compare_eq_iff_eq, same_iff_eq rfl, pid.injEq]
  | external f, b, _, _ => compare_iff_of_rank fun hab => by
    -- Closures have the rank of functions known by name, but none of them is one.
    cases b <;> cases hab
    case closure => exact iff_of_false (by simp [compare]) (by rintro ⟨⟩)
    case external g => rw [compare, compareIds_eq_iff, same_iff_eq rfl, external.injEq]
  | closure m e j xs, b, ha, hb => compare_iff_of_rank fun hab => by
    cases b <;> cases hab
    case closure n f k ys =>
      rw [compare, Ordering.then_eq_eq, Ordering.then_eq_eq, compare_atom_eq_iff,
        Std.LawfulEqOrd.compare_eq_iff_eq, same_closure_iff, hcaptured,
        sized_eq_iff (compareAll_eq_iff hcaptured xs ys ha.2 hb.2)]
    case external => exact iff_of_false (by simp [compare]) (by rintro ⟨⟩)
  | tuple xs, b, ha, hb => compare_iff_of_rank fun hab => by
    cases b <;> cases hab
    case tuple ys =>
      rw [compare, sized_eq_iff (compareAll_eq_iff hcaptured xs ys ha.2 hb.2), same_tuple_iff]
  | cons x xs, b, ha, hb => compare_iff_of_rank fun hab => by
    cases b <;> cases hab
    case cons y ys =>
      rw [compare, Ordering.then_eq_eq, compare_eq_iff hcaptured x y ha.2.1 hb.2.1,
        compare_eq_iff hcaptured xs ys ha.2.2 hb.2.2, same_cons_iff]
  | bits x, b, _, _ => compare_iff_of_rank fun hab => by
    cases b <;> cases hab
    rw [compare, same_bits_iff]
    exact BitString.compare_eq_eq_iff
  | nil, b, _, _ => compare_iff_of_rank fun hab => by
    cases b <;> cases hab
    exact iff_of_true rfl .nil
  | cursor _, b, _, _ => compare_iff_of_rank fun hab => by
    cases b <;> cases hab
    exact iff_of_true rfl (.cursor _ _)
  | catchTag _ _, b, _, _ => compare_iff_of_rank fun hab => by
    cases b <;> cases hab
    exact iff_of_true rfl (.catchTag _ _ _ _)

theorem compareAll_eq_iff (hcaptured : captured .byValue = .byValue) : (xs ys : List Term) →
    EveryOf IsFinite xs → EveryOf IsFinite ys → xs.length = ys.length →
    (compareAll xs ys = .eq ↔ SameAll captured .byValue xs ys)
  | [], [], _, _, _ => iff_of_true rfl .nil
  | x :: xs, y :: ys, hxs, hys, hlength => by
    rw [compareAll, Ordering.then_eq_eq, compare_eq_iff hcaptured x y hxs.1 hys.1,
      compareAll_eq_iff hcaptured xs ys hxs.2 hys.2 (Nat.succ.inj hlength), sameAll_cons_iff]

end

/-! ## Exact equality -/

/-- Tuples and cells, whose parts are compared exactly. -/
def isCompound : Term → Bool
  | tuple _ | cons .. => true
  | _ => false

/-- Terms are exactly equal within their kind. -/
theorem exactEq_iff_of_rank (h : a.rank = b.rank → (a.exactEq b = true ↔ Same captured s a b)) :
    a.exactEq b = true ↔ Same captured s a b := by
  by_cases hab : a.rank = b.rank
  · exact h hab
  · rw [exactEq_of_rank_ne hab]
    exact iff_of_false Bool.false_ne_true fun hsame => hab hsame.rank_eq

/-- Any other term is compared by order, unless an integer is compared with a float. -/
theorem exactEq_of_not_isCompound (ha : a.isCompound = false) (h : ¬ Mixes a b) :
    a.exactEq b = (a.compare b == .eq) := by
  cases a <;> cases b <;> first
    | rfl
    | exact Bool.noConfusion ha
    | exact (h (.integerFloat _ _)).elim
    | exact (h (.floatInteger _ _)).elim

/-- An integer and a float are not exactly equal. -/
theorem exactEq_of_mixes (h : Mixes a b) : a.exactEq b = false := by
  cases h <;> rw [exactEq]

/-- A term without parts is as strictly the same as it is by value, if captured values are taken by
value. -/
theorem same_exact_iff (ha : a.isCompound = false) (h : ¬ Mixes a b) :
    Same (fun _ => .byValue) .exact a b ↔ Same (fun _ => .byValue) .byValue a b := by
  constructor
  · intro hsame
    cases hsame <;> first
      | exact Bool.noConfusion ha
      | (constructor <;> assumption)
  · intro hsame
    cases hsame <;> first
      | exact Bool.noConfusion ha
      | exact (h (.integerFloat _ _)).elim
      | exact (h (.floatInteger _ _)).elim
      | (constructor <;> assumption)

/-- Exact equality of a term that is neither a tuple nor a cell. -/
theorem exactEq_iff_of_not_isCompound (hleaf : a.isCompound = false) (ha : a.Finite)
    (hb : b.Finite) : a.exactEq b = true ↔ Same (fun _ => .byValue) .exact a b := by
  by_cases h : Mixes a b
  · rw [exactEq_of_mixes h]
    exact iff_of_false Bool.false_ne_true fun hsame => hsame.not_mixes h
  · have hcompare : a.compare b = .eq ↔ Same (fun _ => .byValue) .byValue a b :=
      compare_eq_iff rfl a b ha hb
    rw [exactEq_of_not_isCompound hleaf h, beq_iff_eq, hcompare, same_exact_iff hleaf h]

mutual

/-- Terms with finite floats are exactly equal if and only if they are strictly the same, the values
that closures captured by value. -/
theorem exactEq_iff : (a b : Term) → a.Finite → b.Finite →
    (a.exactEq b = true ↔ Same (fun _ => .byValue) .exact a b)
  | tuple xs, b, ha, hb => exactEq_iff_of_rank fun hab => by
    cases b <;> cases hab
    case tuple ys =>
      rw [exactEq, Bool.and_eq_true, beq_iff_eq, same_tuple_iff]
      constructor
      · rintro ⟨hlength, heq⟩
        exact (exactEqAll_iff xs ys ha.2 hb.2 hlength).1 heq
      · intro hsame
        exact ⟨hsame.length_eq, (exactEqAll_iff xs ys ha.2 hb.2 hsame.length_eq).2 hsame⟩
  | cons x xs, b, ha, hb => exactEq_iff_of_rank fun hab => by
    cases b <;> cases hab
    case cons y ys =>
      rw [exactEq, Bool.and_eq_true, exactEq_iff x y ha.2.1 hb.2.1,
        exactEq_iff xs ys ha.2.2 hb.2.2, same_cons_iff]
  | integer _, b, ha, hb | float _, b, ha, hb | atom _, b, ha, hb | reference _, b, ha, hb
  | port _, b, ha, hb | pid _, b, ha, hb | closure .., b, ha, hb | external _, b, ha, hb
  | bits _, b, ha, hb | nil, b, ha, hb | cursor _, b, ha, hb | catchTag .., b, ha, hb =>
    exactEq_iff_of_not_isCompound rfl ha hb

theorem exactEqAll_iff : (xs ys : List Term) → EveryOf IsFinite xs → EveryOf IsFinite ys →
    xs.length = ys.length →
    (exactEqAll xs ys = true ↔ SameAll (fun _ => .byValue) .exact xs ys)
  | [], [], _, _, _ => iff_of_true rfl .nil
  | x :: xs, y :: ys, hxs, hys, hlength => by
    rw [exactEqAll, Bool.and_eq_true, exactEq_iff x y hxs.1 hys.1,
      exactEqAll_iff xs ys hxs.2 hys.2 (Nat.succ.inj hlength), sameAll_cons_iff]

end

/-- Exact equality of terms with finite floats is identity, except among the values that closures
captured, which are compared by value: it holds of all identical terms, and of others if and only if
an integer faces a float there. In plain sight an integer never faces a float. -/
theorem exactEq_iff_same (a b : Term) (ha : a.Finite) (hb : b.Finite) :
    (a.exactEq b = true ↔ Same (fun _ => .byValue) .exact a b) ∧
      (Identical a b ↔ a.exactEq b = true ∧ ∀ u v, Facing true a b u v → ¬ Mixes u v) ∧
      (a.exactEq b = true → ∀ u v, Facing false a b u v → ¬ Mixes u v) := by
  have hvisible : a.exactEq b = true → ∀ u v, Facing false a b u v → ¬ Mixes u v := by
    intro h u v hf
    obtain ⟨s, hsame, hs, -⟩ := hf.same ((exactEq_iff a b ha hb).1 h)
    rw [hs rfl] at hsame
    exact hsame.not_mixes
  refine ⟨exactEq_iff a b ha hb, ?_, hvisible⟩
  -- Identity asks for no mixed pair anywhere, and in plain sight there is none anyway.
  rw [identical_iff, ← exactEq_iff a b ha hb]
  constructor
  · rintro ⟨h, hpure⟩
    exact ⟨h, hpure true⟩
  · rintro ⟨h, hpure⟩
    refine ⟨h, fun inside => ?_⟩
    cases inside with
    | false => exact hvisible h
    | true => exact hpure

/-- Two closures from different loads of a module, one of which captured the negative zero. -/
theorem exactEq_iff_same_zeros :
    let a := closure ⟨"m", 0⟩ 4 1 [float (.zero false), tuple [integer 1, bits (.ofBytes #[7])]]
    let b := closure ⟨"m", 1⟩ 4 2 [float (.zero true), tuple [integer 1, bits (.ofBytes #[7])]]
    a.Finite ∧ b.Finite ∧ Identical a b ∧ a.exactEq b = true := by
  intro a b
  have ha : a.Finite := by decide +kernel
  have hb : b.Finite := by decide +kernel
  have hzero : (Binary64.zero false).value = (Binary64.zero true).value := by
    rw [Binary64.value_eq, Binary64.value_eq]
    exact congrArg Binary64.valueAt (by decide +kernel)
  have hidentical : Identical a b :=
    .closure rfl (.cons (.float hzero)
      (.cons (.tuple (.cons (.integer 1) (.cons (.bits rfl) .nil))) .nil))
  exact ⟨ha, hb, hidentical, ((exactEq_iff_same a b ha hb).2.1.1 hidentical).1⟩

/-- Two closures of the same code, one of which captured an integer and the other the float of the
same value, are exactly equal but not identical. -/
theorem exactEq_captured_integer :
    let a := closure ⟨"m", 0⟩ 4 0 [integer 1]
    let b := closure ⟨"m", 0⟩ 4 0 [float ⟨0x3FF0000000000000⟩]
    a.Finite ∧ b.Finite ∧ a.exactEq b = true ∧ ¬ Identical a b := by
  refine ⟨by decide +kernel, by decide +kernel, by decide +kernel, fun h => ?_⟩
  obtain ⟨-, -, hcaptured⟩ := same_closure_iff.1 h
  exact Same.not_mixes (sameAll_cons_iff.1 hcaptured).1 (.integerFloat _ _)

end Term

end ErlangMachine
