import ErlangMachine.Proofs.Emission
import ErlangMachine.Proofs.Faithfulness

/-!
# Code by lines

Whatever an assembler was given, and whatever it refused, its code consists of lines: an opcode word
and then as many words as its family takes, each of which is what its slot asks for. A refused
function may leave lines behind, even half an instruction's worth of them, since a fetch of sources
is a line of its own; but it never leaves half a line. All labels stand at the beginning of a line
or at the end of the code, and the one word that is written later, the number of registers that a
function uses, is the operand of a line that takes a number.

`Assembler.Lined` is this invariant. A step keeps it whether it ends well or fails
(`runs_instruction_inLines`), so every assembler has it, whatever it has been given
(`Reached.inLines`). What becomes of the lines when the module is finished is the subject of
`Boundaries`.
-/

namespace ErlangMachine

/-! ## Lines -/

section Lines

variable {ω : Type} {r : Reading ω}

/-- An opcode word and the words of its family. -/
inductive LineCoded (r : Reading ω) : List ω → Prop where
  | intro {head : ω} {k : UInt16} {opcode : Opcode} {ws : List ω} : r.number head k →
    Opcode.ofWord? k = some opcode → WordsFit r opcode.family.layout opcode.variants ws →
    LineCoded r (head :: ws)

/-- A line carries over if the labels in it do. -/
theorem LineCoded.map {ω' : Type} {f : ω → ω'} {r' : Reading ω'} (h : r.Hom f r') {line : List ω}
    (hline : LineCoded r line) (hlabel : ∀ w ∈ line, ∀ n, r.label w n → r'.label (f w) n) :
    LineCoded r' (line.map f) := by
  obtain ⟨hhead, hopcode, hfit⟩ := hline
  exact .intro (h.number hhead) hopcode (hfit.map h fun w hw => hlabel w (.tail _ hw))

/-- The fetch of sources is a line, if it is there. -/
theorem FetchCoded.lines {ss : List (Variant × UInt16)} {ws : List ω} (h : FetchCoded r ss ws)
    (hsources : ∀ s ∈ ss, s.1 ∈ Slot.source.variants ∧ (s.1 = .c → ∃ t, r.constant s.2 t)) :
    ∃ lines : List (List ω), ws = lines.flatten ∧ ∀ line ∈ lines, LineCoded r line := by
  cases h with
  | none => exact ⟨[], rfl, nofun⟩
  | @one s k head w hhead hopcode hw =>
    obtain ⟨hv, hc⟩ := hsources s (.head _)
    have hline : LineCoded r [head, w] := .intro hhead hopcode (.choice hv hw hc .nil)
    exact ⟨[[head, w]], rfl, fun line hl => List.mem_singleton.1 hl ▸ hline⟩
  | @two s t k head w w' hhead hopcode hw hw' =>
    obtain ⟨hv, hc⟩ := hsources s (.head _)
    obtain ⟨hv', hc'⟩ := hsources t (.tail _ (.head _))
    have hline : LineCoded r [head, w, w'] :=
      .intro hhead hopcode (.choice hv hw hc (.choice hv' hw' hc' .nil))
    exact ⟨[[head, w, w']], rfl, fun line hl => List.mem_singleton.1 hl ▸ hline⟩

/-- A block is made of lines. -/
theorem BlockCoded.lines {i : Instruction} {p : Nat} {shape : Shape} {block : List ω}
    (h : BlockCoded r i p shape block) {op : Operation} (hlawful : shape.Lawful op) :
    ∃ lines : List (List ω), block = lines.flatten ∧ ∀ line ∈ lines, LineCoded r line := by
  obtain ⟨hfields, hfetch, hhead, hopcode, -⟩ := h
  obtain ⟨lines, rfl, hlines⟩ := hfetch.lines hfields.sources
  have hfit := hfields.wordsFit
  rw [hlawful.slots] at hfit
  refine ⟨lines ++ [_], by rw [List.flatten_append, List.flatten_singleton], fun line hl => ?_⟩
  rcases List.mem_append.1 hl with hl | hl
  · exact hlines line hl
  · exact List.mem_singleton.1 hl ▸ .intro hhead hopcode hfit

end Lines

namespace Assembler

/-! ## The assembler -/

/-- The code of an assembler is made of some lines. -/
structure Lined (lines : List (List Word)) (a : Assembler) : Prop where
  /-- The code words, with zero for labels. -/
  code : a.code.toList = lines.flatten.map (Word.value fun _ => 0)
  /-- The places that wait for labels. -/
  fixups : a.fixups.toList = pending 0 lines.flatten
  /-- The lines are lines. -/
  coded : ∀ line ∈ lines, LineCoded a.reading line
  /-- Labels stand between lines. -/
  labels : ∀ n offset, (n, offset) ∈ a.labels →
    ∃ before after, lines = before ++ after ∧ before.flatten.length = offset
  /-- The number of registers goes to a line that takes a number. -/
  capacity : ∀ place, a.capacityAt = some place → ∃ before k w after,
    lines = before ++ [.raw k, .raw w] :: after ∧
      Opcode.ofWord? k = some ⟨.ensureCapacity, []⟩ ∧ before.flatten.length + 1 = place
  /-- The tables have room. -/
  roomy : a.Roomy

/-- An assembler that has seen nothing has no lines. -/
theorem lined_ofName (name : Atom) : Lined [] (ofName name) where
  code := rfl
  fixups := rfl
  coded := nofun
  labels := nofun
  capacity := nofun
  roomy := ⟨Nat.zero_le _, Nat.zero_le _, Nat.zero_le _, Nat.zero_le _⟩

/-- Lines of the same lengths can be divided at the same offsets. -/
theorem split_of_lengths {lines lines' before after : List (List Word)}
    (h : lines'.map List.length = lines.map List.length) (hsplit : lines = before ++ after) :
    ∃ before' after', lines' = before' ++ after' ∧
      before'.flatten.length = before.flatten.length := by
  refine ⟨lines'.take before.length, lines'.drop before.length,
    (List.take_append_drop _ _).symm, ?_⟩
  rw [List.length_flatten, List.length_flatten, List.map_take, h, hsplit, ← List.map_take,
    List.take_left]

namespace Lined

variable {lines : List (List Word)} {a : Assembler} (h : Lined lines a)

include h

theorem size_eq : a.code.size = lines.flatten.length := by
  rw [← Array.length_toList, h.code, List.length_map]

/-- More lines. -/
theorem moved {block : List Word} {a' : Assembler} (hmoved : Moved a block a')
    {more : List (List Word)} (hblock : block = more.flatten)
    (hcoded : ∀ line ∈ more, LineCoded a'.reading line) : Lined (lines ++ more) a' where
  code := by rw [hmoved.code, h.code, List.flatten_append, List.map_append, hblock]
  fixups := by
    rw [hmoved.fixups, h.fixups, h.size_eq, List.flatten_append, pending_append, hblock,
      Nat.zero_add]
  coded := by
    intro line hline
    rcases List.mem_append.1 hline with hline | hline
    · have hkept := (h.coded line hline).map hmoved.hom fun _ _ _ => id
      rwa [List.map_id] at hkept
    · exact hcoded line hline
  labels := by
    intro n offset hn
    rw [hmoved.labels] at hn
    obtain ⟨before, after, rfl, hoffset⟩ := h.labels n offset hn
    exact ⟨before, after ++ more, List.append_assoc _ _ _, hoffset⟩
  capacity := by
    intro place hplace
    rw [hmoved.capacityAt] at hplace
    obtain ⟨before, k, w, after, rfl, hk, hlength⟩ := h.capacity place hplace
    exact ⟨before, k, w, after ++ more, by rw [List.append_assoc, List.cons_append], hk, hlength⟩
  roomy := hmoved.roomy h.roomy

theorem moved_nil {a' : Assembler} (hmoved : Moved a [] a') : Lined lines a' := by
  have hlined : Lined (lines ++ []) a' := h.moved hmoved rfl nofun
  rwa [List.append_nil] at hlined

/-- A label at the end of the code. -/
theorem bound (n : UInt32) : Lined lines (a.bound n) where
  code := h.code
  fixups := h.fixups
  coded := h.coded
  labels := by
    intro n' offset hn
    rcases List.mem_cons.1 hn with heq | hn
    · obtain ⟨-, rfl⟩ := Prod.mk.inj heq
      exact ⟨lines, [], (List.append_nil _).symm, h.size_eq.symm⟩
    · exact h.labels n' offset hn
  capacity := h.capacity
  roomy := ⟨h.roomy.1, h.roomy.2, h.roomy.3, h.roomy.4⟩

/-- The line at the entry of a function. -/
theorem entered {k : UInt16} (hk : Opcode.ofWord? k = some ⟨.ensureCapacity, []⟩) :
    Lined (lines ++ [[.raw k, .raw 0]]) (a.entered k) where
  code := by
    rw [List.flatten_append, List.map_append, ← h.code]
    show ((a.code.push k).push 0).toList = _
    rw [Array.toList_push, Array.toList_push, List.append_assoc]
    rfl
  fixups := by
    rw [List.flatten_append, pending_append, ← h.fixups]
    exact (List.append_nil _).symm
  coded := by
    intro line hline
    rcases List.mem_append.1 hline with hline | hline
    · exact h.coded line hline
    · obtain rfl := List.mem_singleton.1 hline
      exact .intro rfl hk (.plain nofun rfl rfl trivial .nil)
  labels := by
    intro n offset hn
    obtain ⟨before, after, rfl, hoffset⟩ := h.labels n offset hn
    exact ⟨before, after ++ [[.raw k, .raw 0]], List.append_assoc _ _ _, hoffset⟩
  capacity := by
    intro place hplace
    refine ⟨lines, k, 0, [], rfl, hk, ?_⟩
    rw [← h.size_eq, ← Array.size_push k]
    exact Option.some.inj hplace
  roomy := ⟨h.roomy.1, h.roomy.2, h.roomy.3, h.roomy.4⟩

/-- A function begins. -/
theorem opened (f : LocalName) (entry : UInt32) : Lined lines (a.opened f entry) where
  code := h.code
  fixups := h.fixups
  coded := h.coded
  labels := h.labels
  capacity := nofun
  roomy := ⟨h.roomy.1, h.roomy.2, h.roomy.3, h.roomy.4⟩

theorem addExport (f : LocalName) : Lined lines (a.addExport f) :=
  { h with roomy := ⟨h.roomy.1, h.roomy.2, h.roomy.3, h.roomy.4⟩ }

/-- A function ends, and the number of its registers is filled in. -/
theorem closed (f : LocalName) (start : Nat) (entry : UInt32) {place : Nat}
    (hplace : a.capacityAt = some place) :
    ∃ lines', Lined lines' (a.closed f start entry place) := by
  obtain ⟨before, k, w, after, rfl, hk, rfl⟩ := h.capacity place hplace
  -- Only one word of one line changes, so no line changes its length and no label moves.
  have hlengths : ∀ c, (before ++ [.raw k, .raw c] :: after).map List.length =
      (before ++ [.raw k, .raw w] :: after).map List.length := by
    intro c
    rw [List.map_append, List.map_append]
    rfl
  have hflatten : ∀ c, (before ++ [.raw k, .raw c] :: after).flatten =
      (before.flatten ++ [.raw k]) ++ (.raw c :: after.flatten) := by
    intro c
    rw [List.flatten_append, List.append_assoc]
    rfl
  refine ⟨before ++ [.raw k, .raw (UInt16.ofNat a.registers)] :: after, ?_⟩
  refine { h with code := ?_, fixups := ?_, coded := ?_, labels := ?_, capacity := ?_, roomy := ?_ }
  · have hcode := h.code
    rw [hflatten, List.map_append] at hcode
    rw [hflatten, List.map_append]
    show (a.code.setIfInBounds _ _).toList = _
    have hlength : before.flatten.length + 1 =
        ((before.flatten ++ [Word.raw k]).map (Word.value fun _ => 0)).length := by
      rw [List.length_map, List.length_append]
      rfl
    rw [hlength, Array.toList_setIfInBounds, hcode, List.set_append_right _ _ (Nat.le_refl _),
      Nat.sub_self]
    rfl
  · have hfixups := h.fixups
    rw [hflatten, pending_append] at hfixups
    rw [hflatten, pending_append]
    exact hfixups
  · intro line hline
    rcases List.mem_append.1 hline with hline | hline
    · exact h.coded line (List.mem_append_left _ hline)
    · rcases List.mem_cons.1 hline with rfl | hline
      · exact .intro rfl hk (.plain nofun rfl rfl trivial .nil)
      · exact h.coded line (List.mem_append_right _ (.tail _ hline))
  · intro n offset hn
    obtain ⟨before', after', hsplit, rfl⟩ := h.labels n offset hn
    exact split_of_lengths (hlengths _) hsplit
  · intro place' hplace'
    obtain rfl := Option.some.inj (hplace.symm.trans hplace')
    exact ⟨before, k, _, after, rfl, hk, rfl⟩
  · exact ⟨h.roomy.1, h.roomy.2, h.roomy.3, h.roomy.4⟩

end Lined

/-- The code of an assembler is made of lines. -/
def InLines (a : Assembler) : Prop := ∃ lines, Lined lines a

/-- An instruction leaves the code in lines, also if it is refused. -/
theorem runs_instruction_inLines {i : Instruction} {a : Assembler} (h : a.InLines) :
    Runs (instruction i) a (fun _ => InLines) fun _ => InLines := by
  obtain ⟨lines, hlined⟩ := h
  refine runs_instruction_keeps ⟨lines, hlined⟩ (fun n => ⟨_, hlined.bound n⟩)
    (fun n k hk => ⟨_, (hlined.bound n).entered hk⟩)
    (fun a' hmoved => ⟨lines, hlined.moved_nil hmoved⟩) fun shape block a' hadded => ?_
  obtain ⟨more, hblock, hmore⟩ :=
    (hadded.coded_of_roomy hlined.roomy).lines (Operation.lawful hadded.shape_eq)
  exact ⟨lines ++ more, hlined.moved hadded.moved hblock hmore⟩

/-- A function leaves the code in lines, also if it is refused. -/
theorem runs_function_inLines {f : LocalName} {entry : UInt32} {body : List Instruction}
    {a : Assembler} (h : a.InLines) :
    Runs (function f entry body) a (fun _ => InLines) fun _ => InLines := by
  obtain ⟨lines, hlined⟩ := h
  have hbody :
      Runs (body.forM instruction) (a.opened f entry) (fun _ => InLines) fun _ => InLines :=
    .forM (fun _ _ => runs_instruction_inLines) body ⟨lines, hlined.opened f entry⟩
  refine runs_function InLines (hbody.mono ?_ fun _ _ => id)
  rintro - b ⟨lines', hlined'⟩
  exact ⟨⟨lines', hlined'⟩, fun place hplace => hlined'.closed f _ entry hplace⟩

/-- The assembler has been given some functions, of which it may have refused some, and has noted
exported ones. -/
inductive Reached : Assembler → Prop where
  /-- It has seen nothing. -/
  | start (name : Atom) : Reached (ofName name)
  /-- It has taken a function. -/
  | taken {f : LocalName} {entry : UInt32} {body : List Instruction} {a a' : Assembler} :
    Reached a → function f entry body a = .ok () a' → Reached a'
  /-- It has refused a function. -/
  | refused {f : LocalName} {entry : UInt32} {body : List Instruction} {a a' : Assembler}
      {e : Error} : Reached a → function f entry body a = .error e a' → Reached a'
  /-- It has noted an exported function. -/
  | addExport {a : Assembler} (f : LocalName) : Reached a → Reached (a.addExport f)

/-- Whatever an assembler has taken or refused, its code is made of lines. -/
theorem Reached.inLines {a : Assembler} (h : Reached a) : a.InLines := by
  induction h with
  | start name => exact ⟨[], lined_ofName name⟩
  | taken _ hrun ih => exact (runs_function_inLines ih).of_ok hrun
  | refused _ hrun ih => exact (runs_function_inLines ih).of_error hrun
  | addExport f _ ih =>
    obtain ⟨lines, hlined⟩ := ih
    exact ⟨lines, hlined.addExport f⟩

end Assembler

end ErlangMachine
