import ErlangMachine.Proofs.Fields

/-!
# What instructions become

What was laid out for the fields of an instruction is added to the code as one block
(`emitLayout_run`). Opcodes never lack: the variants that fields give are among those that the table
of opcodes is made of. A label is noted where the code ends, also if it is known already
(`bindLabel_run`).

An instruction is taken or refused (`runs_emitted_or_refused`). `Emitted` says what one that is
taken leaves behind: nothing for an annotation, a note for a label, and otherwise a block that
stands for it. `Refused` says why another is refused: for its operands, for a table that is full,
for a label that is known, or because the code has become too large with its block.
-/

namespace ErlangMachine

/-! ## Opcodes by number -/

namespace Opcode

/-- The opcodes are few. -/
theorem length_table : table.length = 193 := by decide +kernel

/-- An opcode's number gives it back. -/
theorem ofWord?_of_number? {o : Opcode} {n : Nat} (h : o.number? = some n) :
    ofWord? (UInt16.ofNat n) = some o := by
  obtain ⟨hn, hequal, -⟩ := List.idxOf?_eq_some_iff.1 h
  have hlength := length_table
  show table.toArray[(UInt16.ofNat n).toNat]? = some o
  rw [UInt16.toNat_ofNat', Nat.mod_eq_of_lt (by omega), List.getElem?_toArray,
    List.getElem?_eq_getElem hn, hequal]

/-- Every combination of variants that a family allows has a number. -/
theorem exists_number? {o : Opcode} (h : o.variants ∈ combinations o.family.choices) :
    ∃ n, o.number? = some n := by
  have hfamily : o.family ∈ Family.all := by
    cases o.family <;> decide
  have hmem : o ∈ table := List.mem_flatMap.2 ⟨o.family, hfamily, List.mem_map_of_mem h⟩
  exact Option.isSome_iff_exists.1 (List.isSome_idxOf?.2 hmem)

end Opcode

namespace Assembler

variable {a : Assembler} {i : Instruction}

/-! ## Adding code -/

/-- A step that cannot fail adds the words `ws`. -/
def Emits (step : Step Unit) (ws : List Word) : Prop :=
  ∀ a, ∃ a', step a = .ok () a' ∧ Moved a ws a' ∧ a'.tuplePosition = a.tuplePosition

/-- Adding words and then more. -/
theorem Emits.seq {step step' : Step Unit} {ws ws' : List Word} (h : Emits step ws)
    (h' : Emits step' ws') : Emits (step >>= fun _ => step') (ws ++ ws') := by
  intro a
  obtain ⟨b, hrun, hmoved, hposition⟩ := h a
  obtain ⟨c, hrun', hmoved', hposition'⟩ := h' b
  refine ⟨c, ?_, hmoved.trans hmoved', hposition'.trans hposition⟩
  show EStateM.bind step (fun _ => step') a = .ok () c
  rw [EStateM.bind, hrun]
  exact hrun'

/-- A number. -/
theorem emits_emit (w : UInt16) : Emits (emit w) [.raw w] := by
  intro a
  refine ⟨{ a with code := a.code.push w }, rfl,
    { Moved.refl a with code := ?_, fixups := ?_, roomy := ?_ }, rfl⟩
  · exact Array.toList_push
  · exact (List.append_nil _).symm
  · exact fun h => ⟨h.1, h.2, h.3, h.4⟩

/-- A word, noted if it is a label. -/
theorem emits_emitWord (w : Word) : Emits (emitWord w) [w] := by
  cases w with
  | raw w => exact emits_emit w
  | label n =>
    intro a
    refine ⟨_, rfl, { Moved.refl a with code := ?_, fixups := ?_, roomy := ?_ }, rfl⟩
    · exact Array.toList_push
    · exact Array.toList_push
    · exact fun h => ⟨h.1, h.2, h.3, h.4⟩

/-- Some words. -/
theorem emits_forM {α : Type} {step : α → Step Unit} (word : α → Word)
    (h : ∀ x, Emits (step x) [word x]) (xs : List α) : Emits (xs.forM step) (xs.map word) := by
  induction xs with
  | nil => exact fun a => ⟨a, rfl, Moved.refl a, rfl⟩
  | cons x xs ih =>
    exact (h x).seq ih

/-- An opcode whose variants its family has. -/
theorem emits_opcode {o : Opcode} (h : o.variants ∈ Opcode.combinations o.family.choices) :
    ∃ k, Opcode.ofWord? k = some o ∧ Emits (opcodeWord o >>= emit) [.raw k] := by
  obtain ⟨n, hn⟩ := Opcode.exists_number? h
  refine ⟨UInt16.ofNat n, Opcode.ofWord?_of_number? hn, ?_⟩
  have hstep : (opcodeWord o >>= emit) = emit (UInt16.ofNat n) := by
    unfold opcodeWord
    rw [hn]
    rfl
  rw [hstep]
  exact emits_emit _

/-- The sources of an instruction, at most two. -/
theorem emits_emitSources {ss : List (Variant × UInt16)} (htwo : ss.length ≤ 2)
    (hvariants : ∀ s ∈ ss, s.1 ∈ Slot.source.variants) :
    ∃ fetch, (∀ a : Assembler, FetchCoded a.reading ss fetch) ∧ Emits (emitSources ss) fetch := by
  match ss, htwo with
  | [], _ => exact ⟨[], fun _ => .none, fun a => ⟨a, rfl, Moved.refl a, rfl⟩⟩
  | [s], _ =>
    obtain ⟨k, hk, hopcode⟩ := emits_opcode (o := ⟨.fetchOne, [s.1]⟩) (by
      show [s.1] ∈ Opcode.combinations [Slot.source.variants]
      exact List.mem_flatMap.2 ⟨s.1, hvariants s (.head _), .head _⟩)
    refine ⟨[.raw k, .raw s.2], fun _ => .one rfl hk rfl, ?_⟩
    have hseq := hopcode.seq (emits_forM (fun s => .raw s.2) (fun s => emits_emit s.2) [s])
    rw [bind_assoc] at hseq
    exact hseq
  | [s, t], _ =>
    obtain ⟨k, hk, hopcode⟩ := emits_opcode (o := ⟨.fetchTwo, [s.1, t.1]⟩) (by
      show [s.1, t.1] ∈ Opcode.combinations [Slot.source.variants, Slot.source.variants]
      refine List.mem_flatMap.2 ⟨s.1, hvariants s (.head _), List.mem_map_of_mem ?_⟩
      exact List.mem_flatMap.2 ⟨t.1, hvariants t (.tail _ (.head _)), .head _⟩)
    refine ⟨[.raw k, .raw s.2, .raw t.2], fun _ => .two rfl hk rfl rfl, ?_⟩
    have hseq := hopcode.seq (emits_forM (fun s => .raw s.2) (fun s => emits_emit s.2) [s, t])
    rw [bind_assoc] at hseq
    exact hseq

/-- What was laid out is added as a fetch of its sources, an opcode and its words. Afterwards the
code may turn out too large. -/
theorem emitLayout_run (family : Family) {l : Layout} (htwo : l.sources.length ≤ 2)
    (hsources : ∀ s ∈ l.sources, s.1 ∈ Slot.source.variants)
    (hvariants : l.variants ∈ Opcode.combinations family.choices) (a : Assembler) :
    ∃ fetch k a', (∀ b : Assembler, FetchCoded b.reading l.sources fetch) ∧
      Opcode.ofWord? k = some ⟨family, l.variants⟩ ∧ Moved a (fetch ++ .raw k :: l.words) a' ∧
      a'.tuplePosition = a.tuplePosition ∧
      emitLayout family l a =
        if codeLimit ≤ a'.code.size then .error .codeTooLarge a' else .ok () a' := by
  obtain ⟨fetch, hfetch, hemitFetch⟩ := emits_emitSources htwo hsources
  obtain ⟨k, hk, hemitOpcode⟩ := emits_opcode (o := ⟨family, l.variants⟩) hvariants
  have hemitWords := emits_forM id emits_emitWord l.words
  rw [List.map_id] at hemitWords
  obtain ⟨a', hrun, hmoved, hposition⟩ := (hemitFetch.seq (hemitOpcode.seq hemitWords)) a
  refine ⟨fetch, k, a', hfetch, hk, hmoved, hposition, ?_⟩
  have hsplit : emitLayout family l = ((emitSources l.sources >>= fun _ =>
      (opcodeWord ⟨family, l.variants⟩ >>= emit) >>= fun _ => l.words.forM emitWord) >>= fun _ => do
        if codeLimit ≤ (← get).code.size then throw .codeTooLarge) := by
    simp only [bind_assoc]
    rfl
  rw [hsplit]
  show EStateM.bind _ _ a = _
  rw [EStateM.bind, hrun]
  show (if codeLimit ≤ a'.code.size then throw .codeTooLarge else pure () : Step Unit) a' = _
  split <;> rfl

/-! ## Labels -/

/-- The assembler after a label was noted where the code ends. -/
def bound (n : UInt32) (a : Assembler) : Assembler :=
  { a with labels := (n, a.code.size) :: a.labels }

/-- The assembler after a function was entered, which leaves room for the number of its
registers. -/
def entered (k : UInt16) (a : Assembler) : Assembler :=
  { a with code := (a.code.push k).push 0, capacityAt := some (a.code.push k).size }

/-- A label is noted even if it is known already, which is an error. -/
theorem bindLabel_run (n : UInt32) (a : Assembler) :
    ∃ k, Opcode.ofWord? k = some ⟨.ensureCapacity, []⟩ ∧
      bindLabel n a =
        if (a.labels.lookup n).isSome then .error (.duplicateLabel n) (a.bound n)
        else if a.entryLabel = some n then .ok () ((a.bound n).entered k)
        else .ok () (a.bound n) := by
  obtain ⟨k, hk⟩ := Opcode.exists_number? (o := ⟨.ensureCapacity, []⟩) (.head _)
  refine ⟨UInt16.ofNat k, Opcode.ofWord?_of_number? hk, ?_⟩
  have hopcode : opcodeWord ⟨.ensureCapacity, []⟩ = pure (UInt16.ofNat k) := by
    unfold opcodeWord
    rw [hk]
  show (ite _ _ _ : Step Unit) (a.bound n) = _
  rw [hopcode]
  split
  case isTrue => rfl
  case isFalse =>
    show (if a.entryLabel = some n then _ else _ : Step Unit) (a.bound n) = _
    split
    case isTrue => rfl
    case isFalse => rfl

/-! ## Instructions -/

/-- An instruction has been added as a block. -/
structure Added (i : Instruction) (shape : Shape) (block : List Word) (a a' : Assembler) :
    Prop where
  /-- It has a shape. -/
  shape_eq : i.operation.shape? = some shape
  /-- It has as many operands as its operation takes. -/
  arity : i.operands.length = i.operation.arity
  /-- The block is all that is added. -/
  moved : Moved a block a'
  /-- The block stands for the instruction, if the tables had room. -/
  coded : BlockCoded (a'.reading.given a.Roomy) i (i.operation.startsAt a.tuplePosition) shape block
  /-- The position in the tuple under construction has moved on. -/
  position : a'.tuplePosition = shape.advance (i.operation.startsAt a.tuplePosition)
  /-- It has moved on by less than the size of the block. -/
  position_lt : a'.tuplePosition < i.operation.startsAt a.tuplePosition + block.length

/-- The assembler at the first field of an operation. -/
def starting (op : Operation) (a : Assembler) : Assembler :=
  { a with tuplePosition := op.startsAt a.tuplePosition }

/-- A step that begins at the first field of an operation. -/
theorem runs_starting {α : Type} {op : Operation} {next : Step α} {ok : α → Assembler → Prop}
    {bad : Error → Assembler → Prop} (h : Runs next (a.starting op) ok bad) :
    Runs (do
      if op = .putTuple then modify fun a => { a with tuplePosition := 0 }
      next) a ok bad := by
  unfold starting Operation.startsAt at h
  by_cases hput : op = .putTuple
  · rw [if_pos hput] at h ⊢
    exact h
  · rw [if_neg hput] at h ⊢
    exact h

/-- Going to the first field adds nothing. -/
theorem moved_starting (op : Operation) (a : Assembler) : Moved a [] (a.starting op) :=
  { Moved.refl a with roomy := fun h => ⟨h.1, h.2, h.3, h.4⟩ }

/-- If the tables had room the condition can be left out. -/
theorem Added.coded_of_roomy {shape : Shape} {block : List Word} {a' : Assembler}
    (h : Added i shape block a a') (hroomy : a.Roomy) :
    BlockCoded a'.reading i (i.operation.startsAt a.tuplePosition) shape block := by
  have hcoded := h.coded.map (a'.reading.given_hom hroomy) fun _ _ _ => id
  rwa [List.map_id] at hcoded

/-- An instruction with a shape fails before it adds anything, because a field of it is refused, or
is added as a block, after which the code may turn out too large. -/
theorem runs_shape {shape : Shape} (hshape : i.operation.shape? = some shape)
    (harity : i.operands.length = i.operation.arity) :
    Runs (do
        let l ← shape.fields.foldlM (field i) .empty
        emitLayout shape.family l) (a.starting i.operation)
      (fun _ a' => a'.code.size < codeLimit ∧ ∃ block, Added i shape block a a')
      (fun e a' => (Moved a [] a' ∧ ∃ use ∈ shape.fields, Unfit i use e a') ∨
        e = .codeTooLarge ∧ codeLimit ≤ a'.code.size ∧ ∃ block, Added i shape block a a') := by
  have hstart := moved_starting i.operation a
  have hlawful := Operation.lawful hshape
  have htwo := Operation.countP_isSource_le hshape
  -- First the fields are laid out, and nothing is added while one may still be refused.
  refine Runs.bind (pools_fields hstart.roomy .empty shape.fields ?_) ?_ ?_
  · rwa [show Layout.empty.sources.length = 0 from rfl, Nat.zero_add]
  · exact fun e a' ⟨hmoved, hunfit⟩ => .inl ⟨hstart.trans hmoved, hunfit⟩
  rintro l b ⟨hmoved, ss, vs, ws, rfl, hcoded, hposition⟩
  have hfit := hcoded.wordsFit
  rw [hlawful.slots] at hfit
  -- Then the layout is emitted. There is an opcode for every layout that fits the slots.
  obtain ⟨fetch, k, a', hfetch, hk, hmoved', hposition', hrun⟩ :=
    emitLayout_run (l := ⟨ss, vs, ws⟩) shape.family (hcoded.length_sources.trans_le htwo)
      (fun s hs => (hcoded.sources s hs).1) hfit.mem_combinations b
  have hadded : Added i shape (fetch ++ .raw k :: ws) a a' := by
    have hcoded' := hcoded.map (hmoved'.hom.given a.Roomy) fun _ _ _ => id
    have hfetch' := (hfetch a').map (a'.reading.hom_given a.Roomy)
    rw [List.map_id] at hcoded' hfetch'
    refine ⟨hshape, harity, hstart.trans (hmoved.trans hmoved'), ?_, hposition'.trans hposition, ?_⟩
    · exact .intro hcoded' hfetch' (.intro rfl hk hfit.length_eq)
    · have hle := hcoded.advance_le
      have hstarts : (a.starting i.operation).tuplePosition =
        i.operation.startsAt a.tuplePosition := rfl
      rw [hposition', hposition, List.length_append, List.length_cons]
      omega
  show Runs (emitLayout shape.family ⟨ss, vs, ws⟩) b _ _
  unfold Runs
  rw [hrun]
  -- The size is looked at last, when the block is there.
  by_cases hlarge : codeLimit ≤ a'.code.size
  · rw [if_pos hlarge]
    exact .inr ⟨rfl, hlarge, _, hadded⟩
  · rw [if_neg hlarge]
    exact ⟨Nat.lt_of_not_le hlarge, _, hadded⟩

/-- An operation with neither a shape nor a label is an annotation. -/
theorem isAnnotation_of_shape? {op : Operation} (hlabel : op ≠ .label) (hshape : op.shape? = none) :
    op.isAnnotation ∧ op ≠ .putTuple := by
  cases op
  case label => exact absurd rfl hlabel
  case line => exact ⟨rfl, nofun⟩
  case intCodeEnd => exact ⟨rfl, nofun⟩
  case testHeap => exact ⟨rfl, nofun⟩
  case fclearerror => exact ⟨rfl, nofun⟩
  case fcheckerror => exact ⟨rfl, nofun⟩
  all_goals cases hshape

/-- What is wrong with an instruction that is not a label. -/
inductive Objection (i : Instruction) : Error → Assembler → Prop
  /-- It has too few or too many operands. -/
  | arity {a : Assembler} : i.operands.length ≠ i.operation.arity →
    Objection i (.wrongArity i.operation i.operands.length) a
  /-- A field of it is refused. -/
  | field {shape : Shape} {use : OperandUse} {e : Error} {a : Assembler} :
    i.operation.shape? = some shape → use ∈ shape.fields → Unfit i use e a → Objection i e a

/-- There are four kinds of such errors. -/
theorem Objection.error_eq {e : Error} (h : Objection i e a) :
    (∃ found, e = .wrongArity i.operation found) ∨
      (∃ k expected found, e = .unexpectedOperand i.operation k expected found) ∨
      (∃ k v, e = .outOfRange i.operation k v) ∨ ∃ table, e = .tableOverflow table := by
  cases h with
  | arity => exact .inl ⟨_, rfl⟩
  | field _ _ hunfit =>
    cases hunfit with
    | operand => exact .inr (.inl ⟨_, _, _, rfl⟩)
    | range => exact .inr (.inr (.inl ⟨_, _, rfl⟩))
    | full _ hfull =>
      cases hfull
      exact .inr (.inr (.inr ⟨_, rfl⟩))

/-- What an instruction that is taken leaves behind. -/
inductive Emitted (i : Instruction) (a : Assembler) : Assembler → Prop
  /-- An annotation leaves nothing. -/
  | remark : i.operation.isAnnotation → Emitted i a a
  /-- A label is noted where the code ends. -/
  | label {n : UInt32} : i.operation = .label → labelNumber? (operand i 0) = some n →
    a.labels.lookup n = none → a.entryLabel ≠ some n → Emitted i a (a.bound n)
  /-- At the entry label the function says as well how many registers it uses. -/
  | entry {n : UInt32} {k : UInt16} : i.operation = .label →
    labelNumber? (operand i 0) = some n → a.labels.lookup n = none → a.entryLabel = some n →
    Opcode.ofWord? k = some ⟨.ensureCapacity, []⟩ → Emitted i a ((a.bound n).entered k)
  /-- Any other instruction leaves a block that stands for it. -/
  | block {shape : Shape} {block : List Word} {a' : Assembler} :
    Added i shape block a a' → a'.code.size < codeLimit → Emitted i a a'

/-- Why an instruction is refused, and what it leaves behind. -/
inductive Refused (i : Instruction) (a : Assembler) : Error → Assembler → Prop
  /-- It has not as many operands as its operation takes, nothing can stand for one of its operands,
  or there is no room for what one refers to. -/
  | objection {e : Error} {a' : Assembler} : Objection i e a' → Moved a [] a' → Refused i a e a'
  /-- Its operand is not the number of a label. -/
  | label : i.operation = .label → labelNumber? (operand i 0) = none →
    Refused i a (.unexpectedOperand i.operation 0 .labelNumber (operand i 0)) a
  /-- Its operand is a label that stands elsewhere already. -/
  | known {n : UInt32} : i.operation = .label → labelNumber? (operand i 0) = some n →
    (a.labels.lookup n).isSome → Refused i a (.duplicateLabel n) (a.bound n)
  /-- The code has become too large with its block. -/
  | size {shape : Shape} {block : List Word} {a' : Assembler} :
    Added i shape block a a' → codeLimit ≤ a'.code.size → Refused i a .codeTooLarge a'

/-- A label that is not known yet is noted where the code ends, and the entry label opens the
function. A label that is known is noted again, and refused. -/
theorem runs_bindLabel {n : UInt32} (hop : i.operation = .label)
    (hn : labelNumber? (operand i 0) = some n) :
    Runs (bindLabel n) a (fun _ => Emitted i a) (Refused i a) := by
  obtain ⟨k, hk, hrun⟩ := bindLabel_run n a
  unfold Runs
  rw [hrun]
  by_cases hknown : (a.labels.lookup n).isSome
  · rw [if_pos hknown]
    exact .known hop hn hknown
  have hfresh : a.labels.lookup n = none := by
    rwa [Option.not_isSome_iff_eq_none] at hknown
  rw [if_neg hknown]
  by_cases hentry : a.entryLabel = some n
  · rw [if_pos hentry]
    exact .entry hop hn hfresh hentry hk
  · rw [if_neg hentry]
    exact .label hop hn hfresh hentry

/-- An instruction is taken or refused. -/
theorem runs_emitted_or_refused (i : Instruction) (a : Assembler) :
    Runs (instruction i) a (fun _ => Emitted i a) (Refused i a) := by
  unfold instruction
  by_cases harity : i.operands.length = i.operation.arity
  case neg =>
    rw [if_pos harity]
    exact .objection (.arity harity) (.refl a)
  rw [if_neg (not_not_intro harity)]
  by_cases hop : i.operation = .label
  · rw [if_pos hop]
    cases hn : labelNumber? (operand i 0) with
    | none => exact .label hop hn
    | some n => exact runs_bindLabel hop hn
  rw [if_neg hop]
  cases hshape : i.operation.shape? with
  | none =>
    obtain ⟨hremark, hput⟩ := isAnnotation_of_shape? hop hshape
    rw [if_neg hput]
    exact .remark hremark
  | some shape =>
    refine runs_starting (Runs.mono (runs_shape hshape harity) ?_ ?_)
    · exact fun _ a' ⟨hsize, block, hadded⟩ => .block hadded hsize
    · rintro e a' (⟨hmoved, use, huse, hunfit⟩ | ⟨rfl, hlarge, block, hadded⟩)
      · exact .objection (.field hshape huse hunfit) hmoved
      · exact .size hadded hlarge

/-! ## Functions -/

/-- The assembler at the first instruction of a function. -/
def opened (f : LocalName) (entry : UInt32) (a : Assembler) : Assembler :=
  { a with
    entryLabel := some entry, capacityAt := none, registers := f.arity, tuplePosition := 0 }

/-- The assembler after a function that begins at `start` and says at `place` how many registers it
uses. -/
def closed (f : LocalName) (start : Nat) (entry : UInt32) (place : Nat) (a : Assembler) :
    Assembler :=
  { a with
    code := a.code.setIfInBounds place (UInt16.ofNat a.registers)
    entryLabel := none
    functions := a.functions.push (f, start, entry) }

/-- A function is its body and then, if its entry label was met, the number of its registers. -/
theorem runs_function {f : LocalName} {entry : UInt32} {body : List Instruction}
    (ok : Assembler → Prop) {bad : Assembler → Prop}
    (hbody : Runs (body.forM instruction) (a.opened f entry)
      (fun _ b => bad b ∧ ∀ place, b.capacityAt = some place →
        ok (b.closed f a.code.size entry place)) fun _ => bad) :
    Runs (function f entry body) a (fun _ => ok) fun _ => bad := by
  refine runs_get (runs_modify (Runs.bind hbody (fun _ _ => id) ?_))
  rintro - b ⟨hbad, hok⟩
  refine runs_get ?_
  cases hplace : b.capacityAt with
  | none => exact hbad
  | some place =>
    dsimp only
    split
    case isTrue => exact hok place hplace
    case isFalse => exact hbad

end Assembler

end ErlangMachine
