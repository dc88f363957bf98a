import ErlangMachine.Proofs.Lines
import ErlangMachine.Proofs.Sites

/-!
# Labels that are known

A label that an assembler has noted moves only if it is noted again, and the assembler does not
accept that: it notes the label at the end of the code, and then the function that declares it is
refused. `forM_relabelled` says this of the body of a function. Nothing but a label makes an
assembler fail with that error.

Code that is there stays as well, except for words that wait for labels or for a number of registers
(`Rests`, `Extends`). The labels of a body that was taken stand where the widths of its instructions
say (`lookup_of_mem_labelsFrom`), and at the entry label there is an opcode that stays
(`rests_of_forM`).
-/

namespace ErlangMachine

namespace Assembler

variable {a a' : Assembler} {n : UInt32} {offset : Nat} {entry : UInt32}

/-! ## What steps keep -/

/-- The word at an offset is `k` and stays so: it waits neither for a label nor for the number of
registers. -/
structure Rests (offset : Nat) (k : UInt16) (a : Assembler) : Prop where
  /-- The word. -/
  code : a.code[offset]? = some k
  /-- No label is filled in there. -/
  fixups : ∀ e ∈ a.fixups.toList, e.1 ≠ offset
  /-- The number of registers goes elsewhere. -/
  capacity : a.capacityAt ≠ some offset

/-- A word that rests is in the code. -/
theorem Rests.lt_size {k : UInt16} (h : Rests offset k a) : offset < a.code.size :=
  (Array.getElem?_eq_some_iff.1 h.code).1

/-- What is done for a function before its end: the code grows, and words that rest stay. -/
structure Extends (a a' : Assembler) : Prop where
  /-- The code does not shrink. -/
  size_le : a.code.size ≤ a'.code.size
  /-- No function is done. -/
  functions : a'.functions = a.functions
  /-- Words stay. -/
  rests : ∀ {offset : Nat} {k : UInt16}, Rests offset k a → Rests offset k a'

theorem Extends.refl (a : Assembler) : Extends a a := ⟨Nat.le_refl _, rfl, id⟩

theorem Extends.trans {a'' : Assembler} (h : Extends a a') (h' : Extends a' a'') : Extends a a'' :=
  ⟨Nat.le_trans h.size_le h'.size_le, h'.functions.trans h.functions,
    fun hrests => h'.rests (h.rests hrests)⟩

/-- Labels wait among the words that they are taken from. -/
theorem bounds_of_mem_pending {ws : List Word} {e : Nat × UInt32} (h : e ∈ pending offset ws) :
    offset ≤ e.1 ∧ e.1 < offset + ws.length := by
  induction ws generalizing offset with
  | nil => cases h
  | cons w ws ih =>
    rw [List.length_cons]
    cases w with
    | raw w =>
      have hbounds := ih h
      omega
    | label n =>
      rcases List.mem_cons.1 h with rfl | h
      · exact ⟨Nat.le_refl _, by show offset < _; omega⟩
      · have hbounds := ih h
        omega

/-- Words that are added come after those that rest. -/
theorem Moved.extends {ws : List Word} (h : Moved a ws a') : Extends a a' where
  size_le := by
    rw [h.size]
    omega
  functions := h.functions
  rests := by
    intro offset k hrests
    have hlt := hrests.lt_size
    refine ⟨?_, fun e he => ?_, by rw [h.capacityAt]; exact hrests.capacity⟩
    · rw [← Array.getElem?_toList, h.code, List.getElem?_append_left (by simpa using hlt),
        Array.getElem?_toList]
      exact hrests.code
    · rw [h.fixups] at he
      rcases List.mem_append.1 he with he | he
      · exact hrests.fixups e he
      · have hbounds := bounds_of_mem_pending he
        omega

theorem extends_bound (n : UInt32) (a : Assembler) : Extends a (a.bound n) :=
  ⟨Nat.le_refl _, rfl, fun h => ⟨h.code, h.fixups, h.capacity⟩⟩

/-- The entry of a function. -/
theorem extends_entered (k : UInt16) (a : Assembler) : Extends a (a.entered k) where
  size_le := by
    show a.code.size ≤ ((a.code.push k).push 0).size
    rw [Array.size_push, Array.size_push]
    omega
  functions := rfl
  rests := by
    intro offset w hrests
    have hlt := hrests.lt_size
    refine ⟨?_, hrests.fixups, ?_⟩
    · show ((a.code.push k).push 0)[offset]? = some w
      rw [Array.getElem?_push_lt (by rw [Array.size_push]; omega), Array.getElem_push_lt hlt,
        ← Array.getElem?_eq_getElem hlt]
      exact hrests.code
    · show some (a.code.push k).size ≠ some offset
      rw [Array.size_push]
      intro heq
      have := Option.some.inj heq
      omega

/-- The instructions of a body, up to its end or to the one that is refused. -/
theorem runs_forM_extends (body : List Instruction) (a : Assembler) :
    Runs (body.forM instruction) a (fun _ => Extends a) fun _ => Extends a := by
  refine .forM (fun i b hb => ?_) body (.refl a)
  exact runs_instruction_keeps hb (fun n => hb.trans (extends_bound n b))
    (fun n k _ => hb.trans ((extends_bound n b).trans (extends_entered k _)))
    (fun _ hmoved => hb.trans hmoved.extends) fun _ _ _ hadded => hb.trans hadded.moved.extends

/-! ## The labels of a body -/

/-- The labels of a body that begins at an offset, each with the offset at which it stands. The
widths of the instructions before it tell where that is. -/
def labelsFrom (entry : UInt32) : Nat → List Instruction → List (UInt32 × Nat)
  | _, [] => []
  | offset, i :: body =>
    (i.label?.map (·, offset)).toList ++ labelsFrom entry (offset + i.width entry) body

/-- What an instruction that is taken does: it takes as many words as its width says, and the label
that it declares, if any, was not known and stands before these words. -/
theorem Emitted.taken {i : Instruction} (h : Emitted i a a') (hentry : a.entryLabel = some entry) :
    a'.code.size = a.code.size + i.width entry ∧ a'.entryLabel = some entry ∧
      a'.labels = (i.label?.map (·, a.code.size)).toList ++ a.labels ∧
      ∀ n, i.label? = some n → a.labels.lookup n = none := by
  cases h with
  | remark hremark =>
    obtain ⟨hshape, hne⟩ := Listing.shape?_of_isAnnotation hremark
    rw [Instruction.width_of_none entry hshape, Instruction.label?_of_ne hne]
    exact ⟨rfl, hentry, rfl, by simp⟩
  | @label n hop hn hfresh hne =>
    have hlabel : i.label? = some n := (Instruction.label?_of_eq hop).trans hn
    rw [Instruction.width_of_none entry (by rw [hop]; rfl), hlabel,
      if_neg fun heq => hne (hentry.trans heq.symm)]
    exact ⟨rfl, hentry, rfl, fun _ heq => Option.some.inj heq ▸ hfresh⟩
  | @entry n k hop hn hfresh heq hk =>
    have hlabel : i.label? = some n := (Instruction.label?_of_eq hop).trans hn
    rw [Instruction.width_of_none entry (by rw [hop]; rfl), hlabel, if_pos (heq.symm.trans hentry)]
    refine ⟨?_, hentry, rfl, fun _ heq => Option.some.inj heq ▸ hfresh⟩
    show ((a.code.push k).push 0).size = _
    rw [Array.size_push, Array.size_push]
  | @block shape block _ hadded hsize =>
    have hshape := hadded.shape_eq
    have hlabel : i.label? = none := by
      refine Instruction.label?_of_ne fun hop => ?_
      rw [hop] at hshape
      cases hshape
    rw [hadded.moved.size, hadded.coded.length_eq, Instruction.width_of_some entry hshape, hlabel]
    exact ⟨rfl, hadded.moved.entryLabel.trans hentry, hadded.moved.labels, by simp⟩

/-- Where a known label stands after a step, given by its outcome: noted again at the end of the
code if the step failed for this label, and otherwise where it was. -/
def Relabelled {α : Type} (n : UInt32) (a : Assembler)
    (outcome : EStateM.Result Error Assembler α) : Prop :=
  match outcome with
  | .ok _ a' => a'.labels.lookup n = a.labels.lookup n
  | .error e a' =>
    (e = .duplicateLabel n → a'.labels.lookup n = some a'.code.size) ∧
      (e ≠ .duplicateLabel n → a'.labels.lookup n = a.labels.lookup n)

/-- A step that failed for something else and noted no label. -/
theorem relabelled_error {α : Type} {e : Error} (he : e ≠ .duplicateLabel n)
    (h : a'.labels.lookup n = a.labels.lookup n) :
    Relabelled n a (.error e a' : EStateM.Result Error Assembler α) :=
  ⟨fun heq => absurd heq he, fun _ => h⟩

/-- The place of a label after one was noted. -/
theorem lookup_bound (n m : UInt32) (a : Assembler) :
    (a.bound m).labels.lookup n = if n = m then some a.code.size else a.labels.lookup n := by
  show List.lookup n ((m, a.code.size) :: a.labels) = _
  rw [List.lookup_cons]
  by_cases h : n = m
  · rw [if_pos h, beq_iff_eq.2 h]
  · rw [if_neg h, beq_false_of_ne h]

/-- An instruction moves a known label only by failing for it. -/
theorem instruction_relabelled (hknown : (a.labels.lookup n).isSome) (i : Instruction) :
    Relabelled n a (instruction i a) := by
  have hother : ∀ {m}, a.labels.lookup m = none →
      (a.bound m).labels.lookup n = a.labels.lookup n := by
    intro m hfresh
    rw [lookup_bound, if_neg]
    rintro rfl
    rw [hfresh] at hknown
    cases hknown
  cases hrun : instruction i a with
  | ok x a' =>
    cases (runs_emitted_or_refused i a).of_ok hrun with
    | remark => exact rfl
    | label _ _ hfresh | entry _ _ hfresh => exact hother hfresh
    | block hadded => exact congrArg (List.lookup n) hadded.moved.labels
  | error e a' =>
    cases (runs_emitted_or_refused i a).of_error hrun with
    | objection h hmoved =>
      refine relabelled_error ?_ (congrArg (List.lookup n) hmoved.labels)
      rcases h.error_eq with ⟨_, rfl⟩ | ⟨_, _, _, rfl⟩ | ⟨_, _, rfl⟩ | ⟨_, rfl⟩ <;> nofun
    | label => exact relabelled_error nofun rfl
    | size hadded => exact relabelled_error nofun (congrArg (List.lookup n) hadded.moved.labels)
    -- A label that is bound twice has moved when the error is told. It may be another one.
    | @known m =>
      constructor
      · intro heq
        obtain rfl : m = n := Error.duplicateLabel.inj heq
        rw [lookup_bound, if_pos rfl]
        rfl
      · intro hne
        rw [lookup_bound, if_neg]
        rintro rfl
        exact hne rfl

/-- The instructions of a body treat a known label as one of them does. -/
theorem forM_relabelled (hknown : (a.labels.lookup n).isSome) (body : List Instruction) :
    Relabelled n a (body.forM instruction a) := by
  induction body generalizing a with
  | nil => exact rfl
  | cons i body ih =>
    have hfirst := instruction_relabelled hknown i
    show Relabelled n a (EStateM.bind (instruction i) (fun _ => body.forM instruction) a)
    unfold EStateM.bind
    cases hrun : instruction i a with
    | error e b =>
      rw [hrun] at hfirst
      exact hfirst
    | ok x b =>
      rw [hrun] at hfirst
      have hlookup : b.labels.lookup n = a.labels.lookup n := hfirst
      have hrest := ih (hlookup ▸ hknown)
      unfold Relabelled at hrest ⊢
      rw [hlookup] at hrest
      exact hrest

/-- The labels of a body that was taken stand where the widths say. -/
theorem lookup_of_mem_labelsFrom {body : List Instruction} (hentry : a.entryLabel = some entry)
    (hrun : body.forM instruction a = .ok () a')
    (hn : (n, offset) ∈ labelsFrom entry a.code.size body) :
    a'.labels.lookup n = some offset ∧ offset ≤ a'.code.size := by
  induction body generalizing a with
  | nil => cases hn
  | cons i body ih =>
    obtain ⟨⟨⟩, b, hfirst, hrest⟩ := bind_eq_ok hrun
    obtain ⟨hsize, hentry', hlabels, -⟩ := ((runs_emitted_or_refused i a).of_ok hfirst).taken hentry
    rcases List.mem_append.1 hn with hn | hn
    · -- The label stands before this instruction, and it is known to the rest.
      obtain ⟨m, hm, heq⟩ := Option.map_eq_some_iff.1 (Option.mem_toList.1 hn)
      obtain ⟨rfl, rfl⟩ := Prod.mk.inj heq
      have hlookup : b.labels.lookup m = some a.code.size := by
        rw [hlabels, hm]
        exact List.lookup_cons_self
      have hkept := forM_relabelled (n := m) (by rw [hlookup]; rfl) body
      rw [hrest] at hkept
      have hle := ((runs_forM_extends body b).of_ok hrest).size_le
      exact ⟨Eq.trans hkept hlookup, by omega⟩
    · rw [← hsize] at hn
      exact ih hentry' hrest hn

/-- The opcode at the entry of a function rests. -/
theorem rests_entered (h : a.InLines) (k : UInt16) : Rests a.code.size k (a.entered k) := by
  obtain ⟨lines, hlined⟩ := h
  refine ⟨?_, fun e he => ?_, ?_⟩
  · show ((a.code.push k).push 0)[a.code.size]? = some k
    rw [Array.getElem?_push_lt (by rw [Array.size_push]; omega), Array.getElem_push_eq]
  · -- The labels that wait do so in the code that was there.
    have he : e ∈ pending 0 lines.flatten := hlined.fixups ▸ he
    have hbounds := bounds_of_mem_pending he
    have hsize := hlined.size_eq
    omega
  · show some (a.code.push k).size ≠ some a.code.size
    rw [Array.size_push]
    intro heq
    have := Option.some.inj heq
    omega

/-- The entry label of a body that was taken stands before an opcode that rests. -/
theorem rests_of_forM {body : List Instruction} {place : Nat} (h : a.InLines)
    (hentry : a.entryLabel = some entry) (hnone : a.capacityAt = none)
    (hrun : body.forM instruction a = .ok () a') (hplace : a'.capacityAt = some place) :
    ∃ offset k, (entry, offset) ∈ labelsFrom entry a.code.size body ∧ Rests offset k a' ∧
      Opcode.ofWord? k = some ⟨.ensureCapacity, []⟩ := by
  induction body generalizing a with
  | nil =>
    cases hrun
    cases hnone.symm.trans hplace
  | cons i body ih =>
    obtain ⟨⟨⟩, b, hfirst, hrest⟩ := bind_eq_ok hrun
    have hlines := (runs_instruction_inLines h).of_ok hfirst
    have hemitted := (runs_emitted_or_refused i a).of_ok hfirst
    obtain ⟨hsize, hentry', -, -⟩ := hemitted.taken hentry
    -- Where the entry label is not met here it is met later.
    have hlater : b.capacityAt = none → ∃ offset k,
        (entry, offset) ∈ labelsFrom entry a.code.size (i :: body) ∧ Rests offset k a' ∧
          Opcode.ofWord? k = some ⟨.ensureCapacity, []⟩ := by
      intro hb
      obtain ⟨offset, k, hmem, hrests⟩ := ih hlines hentry' hb hrest
      refine ⟨offset, k, List.mem_append_right _ ?_, hrests⟩
      rwa [← hsize]
    cases hemitted with
    | remark | label => exact hlater hnone
    | block hadded => exact hlater (hadded.moved.capacityAt.trans hnone)
    | @entry n k hop hn _ heq hk =>
      obtain rfl : n = entry := Option.some.inj (heq.symm.trans hentry)
      have hlabel : i.label? = some n := (Instruction.label?_of_eq hop).trans hn
      obtain ⟨lines, hlined⟩ := h
      have hrests : Rests a.code.size k ((a.bound n).entered k) :=
        rests_entered ⟨lines, hlined.bound n⟩ k
      refine ⟨a.code.size, k, List.mem_append_left _ ?_,
        ((runs_forM_extends body _).of_ok hrest).rests hrests, hk⟩
      rw [hlabel]
      exact .head _

end Assembler

end ErlangMachine
