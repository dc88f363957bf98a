import ErlangMachine.Proofs.Coupling
import ErlangMachine.Proofs.Linking

/-!
# Where the terms of natives come from

The natives of `erlang` compute numbers, truth values and sizes, and they take terms apart and put
them together. None of them makes a closure or a catch tag. So a property of all parts of a term
that holds of everything else survives them: if the arguments and the messages have it, then the
result or the fault has it, and so do the messages afterwards. `Native.Keeps` is that statement
about a native, and `Native.IsErlang.keeps` proves it of all natives of `erlang`.
-/

namespace ErlangMachine.Native

variable {f : Native} {a : Term}

variable {p : Term → Prop} {α β : Type} {Q : α → Prop} {R : β → Prop}

/-- A value with some property, or a fault whose terms have `p` in all their parts. -/
def Gives (p : Term → Prop) (Q : α → Prop) : Except Fault α → Prop
  | .ok a => Q a
  | .error fault => ∀ t ∈ fault.terms, t.Every p

/-- A native makes nothing but terms whose parts have a property, given such terms. -/
def Keeps (p : Term → Prop) (f : Native) : Prop :=
  ∀ arguments w, (∀ t ∈ arguments, t.Every p) → (∀ t ∈ w.mailbox.messages, t.Every p) →
    Gives p (Term.Every p) (f arguments w).1 ∧
      ∀ t ∈ (f arguments w).2.mailbox.messages, t.Every p

/-- One result after another. -/
theorem Gives.bind {r : Except Fault α} {k : α → Except Fault β} (hr : Gives p Q r)
    (hk : ∀ a, Q a → Gives p R (k a)) : Gives p R (r >>= k) := by
  cases r with
  | ok a => exact hk a hr
  | error fault => exact hr

/-- A function applied to a result. -/
theorem Gives.map {r : Except Fault α} {f : α → β} (hr : Gives p Q r) (hf : ∀ a, Q a → R (f a)) :
    Gives p R (r.map f) := by
  cases r with
  | ok a => exact hf a hr
  | error fault => exact hr

/-- A native that looks at its arguments only. -/
theorem Keeps.ofPure {f : List Term → Except Fault Term}
    (h : ∀ arguments, (∀ t ∈ arguments, t.Every p) → Gives p (Term.Every p) (f arguments)) :
    (ofPure f).Keeps p :=
  fun arguments _ harguments hmessages => ⟨h arguments harguments, hmessages⟩

/-- What a property of terms must say of floats so that natives keep it. -/
structure FloatLaws (p : Term → Prop) : Prop where
  /-- Finite floats have it. -/
  finite : ∀ x : Binary64, x.isFinite → p (.float x)
  /-- Negation keeps it. -/
  neg : ∀ x : Binary64, p (.float x) → p (.float x.neg)
  /-- The absolute value keeps it. -/
  abs : ∀ x : Binary64, p (.float x) → p (.float x.abs)
  /-- Integers as floats have it. -/
  ofInt : ∀ i : Int64, p (.float (.ofInt i.toInt))

section Plain

variable (hplain : ∀ t : Term, t.IsPlain → p t)

include hplain

/-- A fault whose reason is an atom. -/
theorem gives_atom (a : Atom) : Gives p Q (.error (.error (.atom a))) := by
  intro t ht
  obtain rfl : t = .atom a := by simpa [Fault.terms, Fault.error] using ht
  exact hplain _ trivial

/-- A view that an argument must have. -/
theorem gives_argument {view : Option α} (h : ∀ a, view = some a → Q a) :
    Gives p Q (argument view) := by
  cases view with
  | some a => exact h a rfl
  | none => exact gives_atom hplain _

/-- A truth value has every such property. -/
theorem every_bool (b : Bool) : (Term.bool b).Every p := hplain _ trivial

/-- A native of one argument. -/
theorem Keeps.unary {f : Term → Except Fault Term}
    (h : ∀ a : Term, a.Every p → Gives p (Term.Every p) (f a)) : (unary f).Keeps p := by
  refine .ofPure fun arguments harguments => ?_
  match arguments with
  | [a] => exact h a (harguments a List.mem_cons_self)
  | [] | _ :: _ :: _ => exact gives_atom hplain _

/-- A native of two arguments. -/
theorem Keeps.binary {f : Term → Term → Except Fault Term}
    (h : ∀ a b : Term, a.Every p → b.Every p → Gives p (Term.Every p) (f a b)) :
    (binary f).Keeps p := by
  refine .ofPure fun arguments harguments => ?_
  match arguments with
  | [a, b] => exact h a b (harguments a (by simp)) (harguments b (by simp))
  | [] | [_] | _ :: _ :: _ :: _ => exact gives_atom hplain _

/-- A native of three arguments. -/
theorem Keeps.ternary {f : Term → Term → Term → Except Fault Term}
    (h : ∀ a b c : Term, a.Every p → b.Every p → c.Every p → Gives p (Term.Every p) (f a b c)) :
    (ternary f).Keeps p := by
  refine .ofPure fun arguments harguments => ?_
  match arguments with
  | [a, b, c] =>
    exact h a b c (harguments a (by simp)) (harguments b (by simp)) (harguments c (by simp))
  | [] | [_] | [_, _] | _ :: _ :: _ :: _ :: _ => exact gives_atom hplain _

/-- A native that checks the number of its arguments first. -/
theorem Keeps.ofArity (hf : f.Keeps p) (arity : Nat) : (f.ofArity arity).Keeps p := by
  intro arguments w harguments hmessages
  unfold Native.ofArity
  by_cases h : arguments.length = arity
  · rw [if_pos h]
    exact hf arguments w harguments hmessages
  · rw [if_neg h]
    exact ⟨gives_atom hplain _, hmessages⟩

/-! ## Numbers -/

theorem gives_badarith : Gives p Q (.error .badarith) := gives_atom hplain _

/-- An integer result. -/
theorem gives_integerOr {otherwise : Fault} (h : Gives p (Term.Every p) (.error otherwise))
    (result : Option Int64) : Gives p (Term.Every p) (integerOr otherwise result) := by
  cases result with
  | some i => exact hplain _ trivial
  | none => exact h

/-- An operand as a float. -/
theorem gives_number (t : Term) : Gives p (fun _ => True) (number t) := by
  unfold number Fault.require
  cases t.number? with
  | some x => trivial
  | none => exact gives_atom hplain _

/-- An operation on integers only. -/
theorem gives_onIntegers (f : Int64 → Int64 → Option Int64) (a b : Term) :
    Gives p (Term.Every p) (onIntegers f a b) := by
  unfold onIntegers
  split
  · exact gives_integerOr hplain (gives_badarith hplain) _
  · exact gives_atom hplain _

/-- A number as an integer. -/
theorem gives_toInteger (rounding : Binary64 → Int) (a : Term) :
    Gives p (Term.Every p) (toInteger rounding a) := by
  unfold toInteger
  split
  · exact hplain _ trivial
  · split
    · exact gives_integerOr hplain (gives_badarith hplain) _
    · exact gives_atom hplain _
  · exact gives_atom hplain _

variable (hfloats : FloatLaws p)

include hfloats

/-- A float result. -/
theorem gives_finite (x : Binary64) : Gives p (Term.Every p) (finite x) := by
  unfold finite
  split
  · rename_i hx
    exact hfloats.finite x hx
  · exact gives_atom hplain _

/-- Arithmetic on integers or floats. -/
theorem gives_arithmetic (f : Int64 → Int64 → Option Int64) (g : Binary64 → Binary64 → Binary64)
    (a b : Term) : Gives p (Term.Every p) (arithmetic f g a b) := by
  unfold arithmetic
  split
  · exact gives_integerOr hplain (gives_badarith hplain) _
  · refine (gives_number hplain a).bind fun x _ => ?_
    exact (gives_number hplain b).bind fun y _ => gives_finite hplain hfloats _

/-- The quotient. -/
theorem gives_divide (a b : Term) : Gives p (Term.Every p) (divide a b) := by
  refine (gives_number hplain b).bind fun divisor _ => ?_
  split
  · exact gives_atom hplain _
  · exact (gives_number hplain a).bind fun x _ => gives_finite hplain hfloats _

/-- The negation. -/
theorem gives_negate (ha : a.Every p) : Gives p (Term.Every p) (negate a) := by
  unfold negate
  split
  · exact gives_integerOr hplain (gives_badarith hplain) _
  · exact hfloats.neg _ ha
  · exact gives_atom hplain _

/-- The absolute value. -/
theorem gives_absolute (ha : a.Every p) : Gives p (Term.Every p) (absolute a) := by
  unfold absolute
  split
  · rename_i x
    generalize Integer.abs? x = result
    exact gives_integerOr hplain (gives_badarith hplain) result
  · exact hfloats.abs _ ha
  · exact gives_atom hplain _

/-- A number as a float. -/
theorem gives_toFloat (ha : a.Every p) : Gives p (Term.Every p) (toFloat a) := by
  cases a with
  | integer i => exact hfloats.ofInt i
  | float x => exact ha
  | _ => exact gives_atom hplain _

omit hfloats

/-! ## Data -/

/-- The connectives. -/
theorem gives_logic (f : Bool → Bool → Bool) (a b : Term) :
    Gives p (Term.Every p) (logic f a b) := by
  refine (gives_argument (Q := fun _ => True) hplain fun _ _ => trivial).bind fun x _ => ?_
  refine (gives_argument (Q := fun _ => True) hplain fun _ _ => trivial).bind fun y _ => ?_
  exact every_bool hplain _

/-- The elements that a tuple shows. -/
theorem gives_tuple? (ha : a.Every p) :
    Gives p (fun elements => ∀ t ∈ elements, Term.Every p t) (argument a.tuple?) := by
  refine gives_argument hplain fun elements h => ?_
  cases a with
  | tuple _ =>
    cases h
    exact ha.of_tuple
  | _ => cases h

theorem gives_list? (ha : a.Every p) :
    Gives p (fun elements => ∀ t ∈ elements, Term.Every p t) (argument a.list?) :=
  gives_argument hplain fun _ h => Term.every_of_list? ha h

theorem gives_size {view : Option α} (size : α → Nat) :
    Gives p (Term.Every p) (argument view >>= fun a => pure (ofSize (size a))) :=
  (gives_argument (Q := fun _ => True) hplain fun _ _ => trivial).bind fun _ _ => hplain _ trivial

/-- An element of a tuple. -/
theorem gives_element (n : Term) (ha : a.Every p) : Gives p (Term.Every p) (element n a) := by
  refine (gives_tuple? hplain ha).bind fun elements helements => ?_
  refine gives_argument hplain fun t ht => ?_
  obtain ⟨i, -, hi⟩ := Option.bind_eq_some_iff.1 ht
  exact helements t (List.mem_of_getElem? hi)

/-- A tuple with one element replaced. -/
theorem gives_setElement (n : Term) {value : Term} (ha : a.Every p) (hvalue : value.Every p) :
    Gives p (Term.Every p) (setElement n a value) := by
  refine (gives_tuple? hplain ha).bind fun elements helements => ?_
  refine (gives_argument (Q := fun _ => True) hplain fun _ _ => trivial).bind fun i _ => ?_
  refine ⟨hplain _ trivial, Term.everyOf_iff.2 fun t ht => ?_⟩
  rcases List.mem_or_eq_of_mem_set ht with ht | rfl
  · exact helements t ht
  · exact hvalue

/-- A fault given by its class, reason and trace. -/
theorem gives_raise (kind : Term) {reason trace : Term} (hreason : reason.Every p)
    (htrace : trace.Every p) : Gives p (Term.Every p) (raise kind reason trace) := by
  refine (gives_argument (Q := fun _ => True) hplain fun _ _ => trivial).bind fun kind _ => ?_
  refine (gives_list? hplain htrace).bind fun functions hfunctions => ?_
  intro t ht
  rcases List.mem_cons.1 ht with rfl | ht
  · exact hreason
  · exact hfunctions t ht

/-- A term sent to the process itself is one of its messages, so sending keeps the property. -/
theorem keeps_send : send.Keeps p := by
  intro arguments w harguments hmessages
  match arguments with
  | [receiver, message] =>
    have hmessage : message.Every p := harguments message (by simp)
    unfold send World.send
    cases receiver with
    | pid id =>
      dsimp only
      by_cases hself : id = w.self
      · rw [if_pos hself]
        refine ⟨hmessage, fun t ht => ?_⟩
        rcases List.mem_append.1 ht with ht | ht
        · exact hmessages t ht
        · exact List.mem_singleton.1 ht ▸ hmessage
      · rw [if_neg hself]
        exact ⟨hmessage, hmessages⟩
    | atom a => exact ⟨hmessage, hmessages⟩
    | _ => exact ⟨gives_atom hplain _, hmessages⟩
  | [] | [_] | _ :: _ :: _ :: _ => exact ⟨gives_atom hplain _, hmessages⟩

/-- The identity of the process is a plain term. -/
theorem keeps_self : self.Keeps p := fun _ _ _ hmessages => ⟨hplain _ trivial, hmessages⟩

include hfloats

/-- The natives of two arguments. -/
theorem gives_binaries {x y : Term} (hx : x.Every p) (hy : y.Every p) :
    ∀ b ∈ binaries, Gives p (Term.Every p) (b.2 x y) := by
  have hinteger := fun f => gives_onIntegers hplain f x y
  have harithmetic := fun f g => gives_arithmetic hplain hfloats f g x y
  have hbool : ∀ b, Gives p (Term.Every p) (.ok (.bool b)) := every_bool hplain
  have hlogic := fun f => gives_logic hplain f x y
  have hchoice : ∀ order, Gives p (Term.Every p) (.ok (if x.compare y = order then y else x)) := by
    intro order
    show Term.Every p _
    split
    · exact hy
    · exact hx
  unfold binaries
  simp only [List.forall_mem_cons, List.not_mem_nil, false_imp_iff, implies_true, and_true]
  exact ⟨harithmetic _ _, harithmetic _ _, harithmetic _ _, gives_divide hplain hfloats x y,
    hinteger _, hinteger _, hinteger _, hinteger _, hinteger _, hinteger _, hinteger _,
    hbool _, hbool _, hbool _, hbool _, hbool _, hbool _, hbool _, hbool _,
    hlogic _, hlogic _, hlogic _, gives_element hplain x hy, hchoice .lt, hchoice .gt⟩

/-- The natives of one argument. -/
theorem gives_unaries {x : Term} (hx : x.Every p) :
    ∀ u ∈ unaries, Gives p (Term.Every p) (u.2 x) := by
  have hnumber := gives_number hplain x
  have hinteger := fun rounding => gives_toInteger hplain rounding x
  have hnot : Gives p (Term.Every p) (negation x) :=
    (gives_argument (Q := fun _ => True) hplain fun _ _ => trivial).bind fun b _ =>
      every_bool hplain _
  have hraise : ∀ fault : Fault, fault.terms = [x] → Gives p (Term.Every p) (.error fault) := by
    intro fault hfault t ht
    rw [hfault, List.mem_singleton] at ht
    exact ht ▸ hx
  have hhead : Gives p (Term.Every p) (head x) := by
    unfold head
    split
    · exact hx.of_cons.1
    · exact gives_atom hplain _
  have htail : Gives p (Term.Every p) (tail x) := by
    unfold tail
    split
    · exact hx.of_cons.2
    · exact gives_atom hplain _
  -- One fact for each entry of the table, in its order.
  unfold unaries
  simp only [List.forall_mem_cons, List.not_mem_nil, false_imp_iff, implies_true, and_true]
  exact ⟨gives_negate hplain hfloats hx, hnumber.map fun _ _ => hx, hnot,
    gives_integerOr hplain (gives_atom hplain _) _, gives_absolute hplain hfloats hx,
    gives_toFloat hplain hfloats hx, hinteger _, hinteger _,
    gives_size hplain _, gives_size hplain _, gives_size hplain _, hhead, htail,
    gives_size hplain _,
    (gives_tuple? hplain hx).bind fun _ h =>
      Term.every_list (hplain _ trivial) (fun _ _ => hplain _ trivial) h,
    (gives_list? hplain hx).bind fun _ h => ⟨hplain _ trivial, Term.everyOf_iff.2 h⟩,
    hraise _ rfl, hraise _ rfl, hraise _ rfl⟩

/-- The natives of `erlang` keep every property of all parts of a term that holds of all terms other
than floats, closures and catch tags, and of the floats that arithmetic makes. -/
theorem IsErlang.keeps {id : FunctionId} (hf : IsErlang id f) : f.Keeps p := by
  have hmem := hf.2
  rcases List.mem_append.1 hmem with hmem | hmem
  · rcases List.mem_append.1 hmem with hmem | hmem
    · obtain ⟨b, hb, heq⟩ := List.mem_map.1 hmem
      obtain rfl : binary b.2 = f := congrArg Prod.snd heq
      exact .binary hplain fun x y hx hy => gives_binaries hplain hfloats hx hy b hb
    · obtain ⟨u, hu, heq⟩ := List.mem_map.1 hmem
      obtain rfl : unary u.2 = f := congrArg Prod.snd heq
      exact .unary hplain fun x hx => gives_unaries hplain hfloats hx u hu
  · simp only [List.mem_cons, Prod.mk.injEq, List.not_mem_nil, or_false] at hmem
    rcases hmem with ⟨-, rfl⟩ | ⟨-, rfl⟩ | ⟨-, rfl⟩ | ⟨-, rfl⟩ | ⟨-, rfl⟩
    · exact keeps_self hplain
    · exact .ternary hplain fun n a value _ ha hvalue => gives_setElement hplain n ha hvalue
    · exact .ternary hplain fun kind reason trace _ hreason htrace =>
        gives_raise hplain kind hreason htrace
    · exact keeps_send hplain
    · exact keeps_send hplain

end Plain

/-! ## Messages to others -/

/-- A native sends to others nothing but terms whose parts have a property, given such terms, and
leaves alone what others hold on to. -/
def Posts (p : Term → Prop) (f : Native) : Prop :=
  ∀ arguments w, (∀ t ∈ arguments, t.Every p) →
    (∀ m ∈ (f arguments w).2.sent, m ∈ w.sent ∨ m.1.Every p ∧ m.2.Every p) ∧
      (f arguments w).2.kept = w.kept

/-- A native that looks at its arguments only sends nothing. -/
theorem posts_ofPure (g : List Term → Except Fault Term) : (ofPure g).Posts p :=
  fun _ _ _ => ⟨fun _ hm => .inl hm, rfl⟩

/-- The native that sends. -/
theorem posts_send : send.Posts p := by
  intro arguments w harguments
  match arguments with
  | [receiver, message] =>
    have hboth : receiver.Every p ∧ message.Every p := by simpa using harguments
    have hout : ∀ m ∈ w.sent ++ [(receiver, message)],
        m ∈ w.sent ∨ m.1.Every p ∧ m.2.Every p := by
      intro m hm
      rcases List.mem_append.1 hm with hm | hm
      · exact .inl hm
      · exact .inr (List.mem_singleton.1 hm ▸ hboth)
    unfold send World.send
    cases receiver with
    | pid id =>
      dsimp only
      by_cases hself : id = w.self
      · rw [if_pos hself]
        exact ⟨fun _ hm => .inl hm, rfl⟩
      · rw [if_neg hself]
        exact ⟨hout, rfl⟩
    | atom a => exact ⟨hout, rfl⟩
    | _ => exact ⟨fun _ hm => .inl hm, rfl⟩
  | [] | [_] | _ :: _ :: _ :: _ => exact ⟨fun _ hm => .inl hm, rfl⟩

/-- A native that checks the number of its arguments first. -/
theorem Posts.ofArity (hf : f.Posts p) (arity : Nat) : (f.ofArity arity).Posts p := by
  intro arguments w harguments
  unfold Native.ofArity
  by_cases h : arguments.length = arity
  · rw [if_pos h]
    exact hf arguments w harguments
  · rw [if_neg h]
    exact ⟨fun _ hm => .inl hm, rfl⟩

/-- The natives of `erlang` send nothing else. -/
theorem IsErlang.posts {id : FunctionId} (hf : IsErlang id f) : f.Posts p := by
  obtain ⟨g, rfl⟩ | rfl | rfl := hf.kinds
  · exact posts_ofPure g
  · exact fun _ _ _ => ⟨fun _ hm => .inl hm, rfl⟩
  · exact posts_send

end ErlangMachine.Native
