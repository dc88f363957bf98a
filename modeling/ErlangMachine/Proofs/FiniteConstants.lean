import ErlangMachine.Proofs.Forms
import ErlangMachine.Proofs.Natives
import ErlangMachine.Proofs.Pooling
import ErlangMachine.Proofs.Rounding

/-!
# The floats of an assembled module

A float is finite if it is neither infinite nor a NaN. Arithmetic on single numbers keeps floats
finite (`Term.floatLaws_isFinite`), so the question is where a module gets its constants from. The
assembler pools nothing but what operands denote (`Listing.constants_of_toModule`), and what an
operand denotes is part of the form that it was read from (`Listing.finite_operand`). So the
constants of a module are finite if the floats that are written in its text are
(`Module.finite_constants`).
-/

namespace ErlangMachine

/-! ## Finite terms -/

namespace Term

/-- A term that is no float, or a finite one. -/
def IsFinite : Term → Prop
  | float x => x.isFinite
  | _ => True

instance : DecidablePred IsFinite := fun t =>
  match t with
  | float x => inferInstanceAs (Decidable (x.isFinite = true))
  | integer _ | atom _ | reference _ | closure .. | external _ | port _ | pid _ | tuple _ | nil
  | cons .. | bits _ | cursor _ | catchTag .. => isTrue trivial

/-- All floats in a term are finite. -/
def Finite (t : Term) : Prop := t.Every IsFinite

instance (t : Term) : Decidable t.Finite := inferInstanceAs (Decidable (t.Every IsFinite))

/-- Plain terms are no floats. -/
theorem isFinite_of_isPlain (t : Term) (h : t.IsPlain) : t.IsFinite := by
  cases t with
  | float x => exact h.elim
  | _ => trivial

/-- Arithmetic makes no other floats. -/
theorem floatLaws_isFinite : Native.FloatLaws IsFinite where
  finite _ h := h
  neg _ h := Binary64.isFinite_neg h
  abs _ h := Binary64.isFinite_abs h
  ofInt i := Binary64.isFinite_ofInt i

/-- A number in a finite term is finite as a float. -/
theorem finite_of_number? {t : Term} {x : Binary64} (h : t.Finite) (hx : t.number? = some x) :
    (float x).Finite := by
  cases t with
  | integer i =>
    cases hx
    exact Binary64.isFinite_ofInt i
  | float y =>
    cases hx
    exact h
  | _ => cases hx

end Term

/-! ## Operands -/

/-- The constant that an operand stands for, if it stands for one, has only finite floats. -/
def Operand.Finite (o : Operand) : Prop := ∀ t, o.constant? = some t → t.Finite

namespace Operand

/-- An operand that stands for no constant. -/
theorem finite_of_none {o : Operand} (h : o.constant? = none) : o.Finite := by
  intro t ht
  rw [h] at ht
  cases ht

/-- An operand that stands for a finite constant. -/
theorem finite_of_some {o : Operand} {t : Term} (h : o.constant? = some t) (ht : t.Finite) :
    o.Finite := by
  intro u hu
  rw [h] at hu
  exact Option.some.inj hu ▸ ht

end Operand

namespace Listing

/-- An operand with one part. -/
theorem finite_single? {tag : String} {part : Term} {o : Operand} (h : part.Finite)
    (ho : single? tag part = some o) : o.Finite := by
  unfold single? at ho
  split at ho
  -- Registers and slots.
  · obtain ⟨n, -, rfl⟩ := Option.map_eq_some_iff.1 ho
    exact Operand.finite_of_none rfl
  · obtain ⟨n, -, rfl⟩ := Option.map_eq_some_iff.1 ho
    exact Operand.finite_of_none rfl
  · obtain ⟨n, -, rfl⟩ := Option.map_eq_some_iff.1 ho
    exact Operand.finite_of_none rfl
  -- A label.
  · split at ho
    · cases ho
      exact Operand.finite_of_none rfl
    · cases ho
  -- An integer and an atom.
  · cases ho
    exact Operand.finite_of_some rfl trivial
  · cases ho
    exact Operand.finite_of_some rfl trivial
  -- A float, which may be written as an integer, and any literal.
  · obtain ⟨x, hx, rfl⟩ := Option.map_eq_some_iff.1 ho
    exact Operand.finite_of_some rfl (Term.finite_of_number? h hx)
  · cases ho
    exact Operand.finite_of_some rfl h
  -- A string and flags.
  · obtain ⟨bytes, -, rfl⟩ := Option.map_eq_some_iff.1 ho
    exact Operand.finite_of_some rfl trivial
  · obtain ⟨flags, -, rfl⟩ := Option.map_eq_some_iff.1 ho
    exact Operand.finite_of_some rfl trivial
  · cases ho

/-- A function of another module. -/
theorem finite_external? {module function arity : Term} {o : Operand}
    (ho : external? module function arity = some o) : o.Finite := by
  unfold external? at ho
  split at ho
  · split at ho
    · cases ho
      exact Operand.finite_of_none rfl
    · cases ho
  · cases ho

/-- What an operand denotes is finite if its term is. -/
theorem finite_operand (t : Term) (h : t.Finite) : (operand t).Finite := by
  have hread := operandRead t
  generalize operand t = o at hread
  induction hread with
  | literal t => exact Operand.finite_of_some rfl h
  | integer v | nil | nilAtom a | atom a => exact Operand.finite_of_some rfl trivial
  | list _ => exact Operand.finite_of_none rfl
  | single ho => exact finite_single? (h.of_tuple _ (by simp)) ho
  | typed _ ih => exact ih (h.of_tuple _ (by simp))
  | external ho => exact finite_external? ho

end Listing

/-! ## The constants of a module -/

/-- Noting exported functions leaves the pool alone. -/
theorem Assembler.constants_foldl_addExport (exports : List LocalName) (a : Assembler) :
    (exports.foldl addExport a).constants = a.constants := by
  induction exports generalizing a with
  | nil => rfl
  | cons f exports ih => exact ih (a.addExport f)

/-- Every constant of an assembled module is one that an operand of its listing denotes. -/
theorem Listing.constants_of_toModule {p : Term → Prop} {l : Listing} {m : Module}
    (h : l.toModule = .ok m)
    (hp : ∀ f ∈ l.functions, ∀ i ∈ f.body, ∀ k t,
      (Assembler.operand i k).constant? = some t → p t) :
    ∀ t ∈ m.constants, p t := by
  have hinterns : Assembler.Interns (assembleFunctions l.functions.toList)
      (l.functions.toList.flatMap fun f => f.body.toList.flatMap Instruction.constants) :=
    .forM fun f => Assembler.interns_function _ _ _
  unfold toModule at h
  cases hrun : (assembleFunctions l.functions.toList).run (.ofName l.name) with
  | error e a =>
    rw [hrun] at h
    cases h
  | ok _ a =>
    rw [hrun] at h
    obtain ⟨log, hlog, hinterned⟩ := (hinterns _).of_ok hrun
    have hpooled : Assembler.Pooled log a.constants := hinterned.pooled Assembler.pooled_empty
    intro t ht
    rw [(Assembler.finished_of_finish h).constants, ← Array.foldl_toList,
      Assembler.constants_foldl_addExport] at ht
    have hmem := hpooled.mem t ht
    rw [hlog] at hmem
    obtain ⟨f, hf, hmem⟩ := List.mem_flatMap.1 hmem
    obtain ⟨i, hi, hmem⟩ := List.mem_flatMap.1 hmem
    obtain ⟨k, hk⟩ := Instruction.exists_operand hmem
    exact hp f (Array.mem_toList_iff.1 hf) i (Array.mem_toList_iff.1 hi) k t hk

/-! ## Texts -/

/-- All floats that are written in a text are finite. -/
def Listing.FiniteText (text : String) : Prop :=
  ∃ forms, Listing.forms text.toList = .ok forms ∧ ∀ form ∈ forms, form.term.Finite

instance (text : String) : Decidable (Listing.FiniteText text) :=
  match h : Listing.forms text.toList with
  | .ok forms =>
    decidable_of_iff (∀ form ∈ forms, form.term.Finite)
      ⟨fun hforms => ⟨forms, h, hforms⟩, fun ⟨_, hforms, hfinite⟩ =>
        Except.ok.inj (h.symm.trans hforms) ▸ hfinite⟩
  | .error _ => isFalse fun ⟨_, hforms, _⟩ => by
    rw [h] at hforms
    cases hforms

/-- The operands of an instruction denote nothing but parts of its form. -/
theorem Listing.finite_of_instruction {form : Form} {i : Instruction} (hform : form.term.Finite)
    (h : Listing.instruction form = .ok i) (k : Nat) : (Assembler.operand i k).Finite := by
  obtain ⟨hoperands, -⟩ := operands_of_instruction h
  have hargs : ∀ t ∈ form.args, t.Finite := by
    unfold Form.args
    split
    · rename_i hterm
      rw [hterm] at hform
      exact fun t ht => hform.of_tuple t (List.mem_cons_of_mem _ ht)
    · exact fun t ht => by cases ht
  unfold Assembler.operand
  rw [hoperands, List.getD_eq_getElem?_getD, List.getElem?_map]
  cases hk : form.args[k]? with
  | none =>
    intro t ht
    exact Option.some.inj ht ▸ trivial
  | some t => exact finite_operand t (hargs t (List.mem_of_getElem? hk))

/-- The constants of a module are finite if the floats that are written in its text are. -/
theorem Module.finite_constants {text : String} {m : Module} (h : Module.parse text = .ok m)
    (htext : Listing.FiniteText text) : ∀ t ∈ m.constants, t.Finite := by
  obtain ⟨l, forms, hforms, hread, hmodule⟩ := Module.exists_listing h
  obtain ⟨forms', hforms', hfinite⟩ := htext
  obtain rfl := Except.ok.inj (hforms.symm.trans hforms')
  refine Listing.constants_of_toModule hmodule fun f hf i hi k t ht => ?_
  obtain ⟨form, hform, hinstruction⟩ := hread.exists_form (Array.mem_toList_iff.2 hf) hi
  exact Listing.finite_of_instruction (hfinite form hform) hinstruction k t ht

end ErlangMachine
