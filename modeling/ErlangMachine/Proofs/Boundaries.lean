import ErlangMachine.Proofs.FunctionTables
import ErlangMachine.Proofs.JumpTables
import ErlangMachine.Proofs.Lines

/-!
# Where code may go on

A scan of a module's code from its first word on, from each opcode to the one after its operands,
comes by all places at which an instruction begins, and in the end to where the code ends: these are
the boundaries of the module. In a module that an assembler has finished each boundary but the last
is the beginning of a complete instruction, whose words lead to boundaries and to entries that the
module's tables have (`Module.Sound.line`). What jump tables and exports lead to are boundaries,
too. `Assembler.sound_of_finish` proves this from the lines of the assembler: the boundaries are
exactly the offsets between them.
-/

namespace ErlangMachine

namespace Module

/-- Where an instruction of a module begins or its code ends, as a scan from the beginning finds. -/
inductive Boundary (m : Module) : Nat → Prop where
  /-- The code begins. -/
  | start : Boundary m 0
  /-- An instruction ends. -/
  | next {pc : Nat} {word : UInt16} {opcode : Opcode} : Boundary m pc → m.code[pc]? = some word →
    Opcode.ofWord? word = some opcode → Boundary m (pc + 1 + opcode.family.layout.length)

/-- What words of a module may denote: labels are boundaries, and indices are places that the tables
have. -/
def bounds (m : Module) : Reading UInt16 where
  number w n := w = n
  label w _ := w = noLabel ∨ m.Boundary w.toNat
  constant n _ := n.toNat < m.constants.size
  imported n _ := n.toNat < m.imports.size
  values n _ := n.toNat < m.valueTables.size
  arities n _ := n.toNat < m.arityTables.size

/-- A module all of whose words, tables and exports lead to boundaries and to entries that there
are. -/
structure Sound (m : Module) : Prop where
  /-- A boundary is the end of the code or the beginning of a complete instruction. -/
  line : ∀ pc, m.Boundary pc → pc = m.code.size ∨ ∃ word opcode, m.code[pc]? = some word ∧
    Opcode.ofWord? word = some opcode ∧ WordsFit m.bounds opcode.family.layout opcode.variants
      (m.code.extract (pc + 1) (pc + 1 + opcode.family.layout.length)).toList
  /-- Value tables lead to boundaries. -/
  valueTables : ∀ (i : Nat) (table : ValueTable) (value : Term) (target : Nat),
    m.valueTables[i]? = some table → table.lookup value = some target → m.Boundary target
  /-- Arity tables lead to boundaries. -/
  arityTables : ∀ (i : Nat) (table : ArityTable) (arity target : Nat),
    m.arityTables[i]? = some table → table.lookup arity = some target → m.Boundary target
  /-- Exported functions are entered at boundaries. -/
  exports : ∀ f entry, m.exportEntry? f = some entry → m.Boundary entry

/-! ## Boundaries and lines -/

section Lines

variable {m : Module} {labels : List (UInt32 × Nat)} {lines : List (List UInt16)}
  (hcode : m.code.toList = lines.flatten)
  (hlines : ∀ line ∈ lines, LineCoded (m.reading labels) line)

include hcode hlines

/-- The word at the beginning of a line is its opcode, and the words after it are its operands. -/
theorem words_of_line {before after : List (List UInt16)} {line : List UInt16}
    (hsplit : lines = before ++ line :: after) :
    ∃ word opcode ws, line = word :: ws ∧ m.code[before.flatten.length]? = some word ∧
      Opcode.ofWord? word = some opcode ∧
      WordsFit (m.reading labels) opcode.family.layout opcode.variants ws ∧
      (m.code.extract (before.flatten.length + 1)
        (before.flatten.length + 1 + opcode.family.layout.length)).toList = ws := by
  have hline := hlines line (hsplit ▸ List.mem_append_right _ (.head _))
  obtain @⟨word, _, opcode, ws, rfl, hopcode, hfit⟩ := hline
  have hwords : m.code.toList = before.flatten ++ word :: (ws ++ after.flatten) := by
    rw [hcode, hsplit, List.flatten_append, List.flatten_cons, List.cons_append]
  refine ⟨word, opcode, ws, rfl, ?_, hopcode, hfit, ?_⟩
  · rw [← Array.getElem?_toList, hwords, List.getElem?_append_right (Nat.le_refl _), Nat.sub_self]
    rfl
  · have hdrop : m.code.toList.drop (before.flatten.length + 1) = ws ++ after.flatten := by
      rw [hwords, List.drop_append, List.drop_eq_nil_of_le (Nat.le_succ _), Nat.add_sub_cancel_left]
      rfl
    rw [Array.toList_extract, List.extract_eq_take_drop, hdrop, Nat.add_sub_cancel_left,
      ← hfit.length_eq, List.take_left]

/-- The scan goes on from line to line. -/
theorem boundary_append {done before after : List (List UInt16)}
    (hsplit : lines = done ++ (before ++ after)) (hdone : m.Boundary done.flatten.length) :
    m.Boundary (done ++ before).flatten.length := by
  induction before generalizing done with
  | nil => rwa [List.append_nil]
  | cons line before ih =>
    obtain ⟨word, opcode, ws, rfl, hword, hopcode, hfit, -⟩ := words_of_line hcode hlines hsplit
    have hnext := Boundary.next hdone hword hopcode
    have hlength : (done ++ [word :: ws]).flatten.length =
        done.flatten.length + 1 + opcode.family.layout.length := by
      rw [List.flatten_append, List.flatten_singleton, List.length_append, List.length_cons,
        hfit.length_eq]
      omega
    have hrest : lines = (done ++ [word :: ws]) ++ (before ++ after) := by
      rw [hsplit, List.append_assoc]
      rfl
    have hall := ih hrest (hlength ▸ hnext)
    rwa [List.append_assoc] at hall

/-- The boundaries are the offsets between lines. -/
theorem boundary_iff {pc : Nat} : m.Boundary pc ↔
    ∃ before after, lines = before ++ after ∧ before.flatten.length = pc := by
  constructor
  · intro h
    induction h with
    | start => exact ⟨[], lines, rfl, rfl⟩
    | @next pc word opcode _ hword hopcode ih =>
      obtain ⟨before, after, hsplit, rfl⟩ := ih
      cases after with
      | nil =>
        -- After the last line there is no word.
        have hsize : m.code.size = before.flatten.length := by
          rw [← Array.length_toList, hcode, hsplit, List.append_nil]
        rw [Array.getElem?_eq_none (Nat.le_of_eq hsize)] at hword
        cases hword
      | cons line after =>
        obtain ⟨word', opcode', ws, rfl, hword', hopcode', hfit, -⟩ :=
          words_of_line hcode hlines hsplit
        obtain rfl := Option.some.inj (hword.symm.trans hword')
        obtain rfl := Option.some.inj (hopcode.symm.trans hopcode')
        refine ⟨before ++ [word :: ws], after, ?_, ?_⟩
        · rw [hsplit, List.append_assoc]
          rfl
        · rw [List.flatten_append, List.flatten_singleton, List.length_append, List.length_cons,
            hfit.length_eq]
          omega
  · rintro ⟨before, after, hsplit, rfl⟩
    have hstart : m.Boundary (([] : List (List UInt16)).flatten.length) := .start
    exact boundary_append hcode hlines hsplit hstart

end Lines

end Module

/-! ## Tables -/

namespace Assembler

variable {a : Assembler} {m : Module}

/-- What a jump table leads to is where a label stands. -/
theorem mem_labels_of_resolveTable {α : Type} {table : List (α × UInt32)}
    {resolved : List (α × Nat)} (h : a.resolveTable table = .ok resolved) {e : α × Nat}
    (he : e ∈ resolved) : ∃ n, (n, e.2) ∈ a.labels := by
  obtain ⟨e', -, -, hlookup⟩ := exists_of_forall₂ (forall₂_of_resolveTable h) he
  exact ⟨e'.2, mem_of_lookup hlookup⟩

/-- What every step of a fold keeps holds at its end. -/
theorem foldlM_keeps {α β ε : Type} {step : β → α → Except ε β} (p : β → Prop)
    (hstep : ∀ b x b', step b x = .ok b' → p b → p b') {l : List α} {b b' : β}
    (h : l.foldlM step b = .ok b') (hb : p b) : p b' := by
  induction l generalizing b with
  | nil =>
    cases h
    exact hb
  | cons x l ih =>
    obtain ⟨b₁, hfirst, hrest⟩ := except_bind_eq_ok h
    exact ih hrest (hstep b x b₁ hfirst hb)

/-- Functions are entered where labels stand. -/
theorem mem_labels_of_functionTable {table : FunctionTable} (h : a.functionTable = .ok table)
    {f : LocalName} {entry : Nat} (hentry : table.entry? f = some entry) :
    ∃ n, (n, entry) ∈ a.labels := by
  unfold functionTable at h
  rw [← Array.foldlM_toList] at h
  refine foldlM_keeps
    (fun t : FunctionTable => ∀ f entry, t.entry? f = some entry → ∃ n, (n, entry) ∈ a.labels)
    ?_ h (fun f entry hnone => by cases hnone) f entry hentry
  rintro t ⟨f, start, label⟩ t' hstep ht g entry' hg
  obtain ⟨entry, hentry, hstep⟩ := except_bind_eq_ok hstep
  split at hstep
  case h_2 => cases hstep
  case h_1 inserted hinsert =>
    cases hstep
    rw [FunctionTable.entry?_insert? hinsert] at hg
    split at hg
    · cases hg
      exact ⟨label, mem_of_lookup (lookup_of_resolve hentry)⟩
    · exact ht g entry' hg

/-- Exported functions are entered where labels stand. -/
theorem Finished.mem_labels_of_exportEntry? (h : Finished a m) {f : LocalName} {entry : Nat}
    (hentry : m.exportEntry? f = some entry) : ∃ n, (n, entry) ∈ a.labels := by
  obtain ⟨e, he, rfl⟩ := Option.map_eq_some_iff.1 hentry
  obtain ⟨g, -, hg⟩ := exists_of_forall₂ h.exports (List.mem_of_find?_eq_some he)
  unfold resolveExport at hg
  split at hg
  case h_2 => cases hg
  case h_1 entry hfound =>
    cases hg
    exact mem_labels_of_functionTable h.functions hfound

/-- What the words of a finished module denote is within its bounds. -/
theorem hom_bounds (m : Module) (labels : List (UInt32 × Nat)) :
    (m.reading labels).Hom id m.bounds where
  number := id
  constant := by
    rintro n t ⟨c, hc, -⟩
    exact (Array.getElem?_eq_some_iff.1 hc).1
  imported := by
    intro n i hi
    exact (Array.getElem?_eq_some_iff.1 hi).1
  values := by
    rintro n table ⟨resolved, -, htable⟩
    exact (Array.getElem?_eq_some_iff.1 htable).1
  arities := by
    rintro n table ⟨resolved, -, htable⟩
    exact (Array.getElem?_eq_some_iff.1 htable).1

/-- A finished module is sound, whatever its assembler has taken and refused. -/
theorem sound_of_finish (h : a.InLines) (hfinish : a.finish = .ok m) : m.Sound := by
  obtain ⟨lines, hlined⟩ := h
  have hfinished := finished_of_finish hfinish
  have hlabels : a.labels = a.labels.reverse.reverse := (List.reverse_reverse _).symm
  obtain ⟨hwords, hplaces⟩ := hfinished.code_eq hlined.code hlined.fixups
  -- The finished code is made of the same lines, with the labels replaced by their offsets.
  have hcode : m.code.toList = (lines.map (List.map (Word.value a.place))).flatten := by
    rw [hwords, List.map_flatten]
  have hlines : ∀ line ∈ lines.map (List.map (Word.value a.place)),
      LineCoded (m.reading a.labels.reverse) line := by
    intro placed hplaced
    obtain ⟨line, hline, rfl⟩ := List.mem_map.1 hplaced
    refine (hlined.coded line hline).map (hfinished.hom hlabels) fun w hw => ?_
    exact label_of_places m hlabels hplaces w (List.mem_flatten.2 ⟨line, hline, hw⟩)
  -- A label is bound between two lines, so its offset is a boundary.
  have hlabel : ∀ n offset, (n, offset) ∈ a.labels → m.Boundary offset := by
    intro n offset hn
    obtain ⟨before, after, rfl, rfl⟩ := hlined.labels n offset hn
    refine (Module.boundary_iff hcode hlines).2 ⟨_, _, List.map_append, ?_⟩
    rw [← List.map_flatten, List.length_map]
  refine ⟨?_, ?_, ?_, ?_⟩
  · -- At a boundary the code ends, or another line stands there whole.
    intro pc hpc
    obtain ⟨before, after, hsplit, rfl⟩ := (Module.boundary_iff hcode hlines).1 hpc
    cases after with
    | nil =>
      left
      rw [← Array.length_toList, hcode, hsplit, List.append_nil]
    | cons line after =>
      right
      obtain ⟨word, opcode, ws, -, hword, hopcode, hfit, hoperands⟩ :=
        Module.words_of_line hcode hlines hsplit
      refine ⟨word, opcode, hword, hopcode, ?_⟩
      have hbounds := hfit.map (hom_bounds m _) fun w _ n hw => ?_
      · rw [List.map_id] at hbounds
        rwa [hoperands]
      · change if n = 0 then _ else _ at hw
        split at hw
        · exact .inl hw
        · exact .inr (hlabel n _ (List.mem_reverse.1 hw.2))
  · -- Jump tables and exports lead to the offsets of labels.
    intro i table value target htable htarget
    obtain ⟨_, -, resolved, hresolved, rfl⟩ :=
      exists_of_forall₂ hfinished.valueTables
        (Array.mem_toList_iff.2 (Array.mem_of_getElem? htable))
    obtain ⟨key, hkey⟩ := ValueTable.exists_mem_of_lookup htarget
    obtain ⟨n, hn⟩ := mem_labels_of_resolveTable hresolved hkey
    exact hlabel n target hn
  · intro i table arity target htable htarget
    obtain ⟨_, -, resolved, hresolved, rfl⟩ :=
      exists_of_forall₂ hfinished.arityTables
        (Array.mem_toList_iff.2 (Array.mem_of_getElem? htable))
    obtain ⟨key, hkey⟩ := ArityTable.exists_mem_of_lookup htarget
    obtain ⟨n, hn⟩ := mem_labels_of_resolveTable hresolved hkey
    exact hlabel n target hn
  · intro f entry hentry
    obtain ⟨n, hn⟩ := hfinished.mem_labels_of_exportEntry? hentry
    exact hlabel n entry hn

end Assembler

end ErlangMachine
