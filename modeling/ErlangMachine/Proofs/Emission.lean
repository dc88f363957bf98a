import ErlangMachine.Proofs.Assembly

/-!
# Instructions taken and refused

An instruction is taken as a whole or refused, whatever the assembler has done before
(`instruction_emitted_or_refused`). There is always an opcode, since the fields of an operation give
as many variants, and of the kinds, as its family has slots for them (`Operation.lawful`), and there
are never more than two sources (`Operation.countP_isSource_le`). Where an instruction is refused
for anything but the size of the code, no code was added.
-/

namespace ErlangMachine

namespace Assembler

variable {i : Instruction} {a a' : Assembler} {e : Error}

/-- An instruction keeps, taken or refused, what labels and blocks keep. -/
theorem runs_instruction_keeps {keeps : Assembler → Prop} (ha : keeps a)
    (hbound : ∀ n, keeps (a.bound n))
    (hentered : ∀ n k, Opcode.ofWord? k = some ⟨.ensureCapacity, []⟩ →
      keeps ((a.bound n).entered k))
    (hmoved : ∀ a', Moved a [] a' → keeps a')
    (hadded : ∀ shape block a', Added i shape block a a' → keeps a') :
    Runs (instruction i) a (fun _ => keeps) fun _ => keeps := by
  refine (runs_emitted_or_refused i a).mono (fun _ _ h => ?_) fun _ _ h => ?_
  · cases h with
    | remark => exact ha
    | label => exact hbound _
    | entry _ _ _ _ hk => exact hentered _ _ hk
    | block h _ => exact hadded _ _ _ h
  · cases h with
    | objection _ h => exact hmoved _ h
    | label => exact ha
    | known => exact hbound _
    | size h _ => exact hadded _ _ _ h

/-- There is always an opcode. -/
theorem Refused.ne_noOpcode (h : Refused i a e a') (o : Opcode) : e ≠ .noOpcode o := by
  cases h with
  | objection h =>
    rcases h.error_eq with ⟨_, rfl⟩ | ⟨_, _, _, rfl⟩ | ⟨_, _, rfl⟩ | ⟨_, rfl⟩ <;> nofun
  | label | known | size => nofun

/-- There are never too many sources. -/
theorem Refused.ne_tooManySources (h : Refused i a e a') (op : Operation) :
    e ≠ .tooManySources op := by
  cases h with
  | objection h =>
    rcases h.error_eq with ⟨_, rfl⟩ | ⟨_, _, _, rfl⟩ | ⟨_, _, rfl⟩ | ⟨_, rfl⟩ <;> nofun
  | label | known | size => nofun

/-- Where no words are added the code stays as it is. -/
theorem Moved.code_eq (h : Moved a [] a') : a'.code = a.code ∧ a'.fixups = a.fixups := by
  have hcode := h.code
  have hfixups := h.fixups
  rw [List.map_nil, List.append_nil] at hcode
  rw [pending, List.append_nil] at hfixups
  exact ⟨Array.toList_inj.1 hcode, Array.toList_inj.1 hfixups⟩

/-- An instruction that is refused for anything but the size of the code adds nothing. -/
theorem Refused.code_eq (h : Refused i a e a') (hsize : e ≠ .codeTooLarge) :
    a'.code = a.code ∧ a'.fixups = a.fixups := by
  cases h with
  | objection _ hmoved => exact hmoved.code_eq
  | label => exact ⟨rfl, rfl⟩
  | known => exact ⟨rfl, rfl⟩
  | size => exact absurd rfl hsize

/-- Whatever an assembler has done before, and whatever the operands of an instruction are, the
assembler takes it as a whole or refuses it, for its operands, for a table that is full or for the
size of the code. It never lacks an opcode and never finds too many sources. Where it refuses the
instruction for anything but the size of the code, the code and the words in it that wait for labels
are as before. -/
theorem instruction_emitted_or_refused (i : Instruction) (a : Assembler) :
    (∃ a', instruction i a = .ok () a' ∧ Emitted i a a') ∨
      ∃ e a', instruction i a = .error e a' ∧ Refused i a e a' ∧
        (∀ o, e ≠ .noOpcode o) ∧ (∀ op, e ≠ .tooManySources op) ∧
        (e ≠ .codeTooLarge → a'.code = a.code ∧ a'.fixups = a.fixups) := by
  have hruns := runs_emitted_or_refused i a
  cases hrun : instruction i a with
  | ok x a' => exact .inl ⟨a', rfl, hruns.of_ok hrun⟩
  | error e a' =>
    have hrefused := hruns.of_error hrun
    exact .inr ⟨e, a', rfl, hrefused, hrefused.ne_noOpcode, hrefused.ne_tooManySources,
      hrefused.code_eq⟩

end Assembler

end ErlangMachine
