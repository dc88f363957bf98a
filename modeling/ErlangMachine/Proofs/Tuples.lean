import ErlangMachine.Proofs.Constancy
import ErlangMachine.Proofs.Extents
import ErlangMachine.Proofs.FiniteConstants
import ErlangMachine.Proofs.Sessions

/-!
# Building tuples in code

A tuple is opened with its size and its place, and then each of its elements is added by an
instruction of its own, which is assembled into a command that fetches a source and one that stores
it. The assembler counts the elements and writes the position of each into the code; the machine
counts them again and gives up if the positions differ. The place is written when the last element
has been added, so that what it held before can be an element.

The first half of this module follows the instructions into the code of a module (`holds_putTuple`),
and the second half follows the commands through the machine (`puts_proceed`).
-/

namespace ErlangMachine

open Machine

variable {m : Module} {labels : List (UInt32 × Nat)} {code : LoadedModule}

/-! ## Operands -/

/-- The place that an operand names. -/
def Operand.place? : Operand → Option Place
  | x n => some (.x n.toNat)
  | y n => some (.y n.toNat)
  | _ => none

/-- A constant of a listing: some operand stands for it. -/
def Listing.HasConstant (l : Listing) (t : Term) : Prop :=
  ∃ f ∈ l.functions, ∃ i ∈ f.body, ∃ k, (Assembler.operand i k).constant? = some t

/-- What a source operand of a listing stands for in a state: what its place holds, or a constant of
the listing that is exactly equal to the one that is written there. -/
inductive Operand.Reads (l : Listing) (s : State) : Operand → Term → Prop where
  /-- A register or a stack slot. -/
  | place {o : Operand} {place : Place} {t : Term} :
    o.place? = some place → s.at? place = some t → Reads l s o t
  /-- A constant. -/
  | constant {o : Operand} {t c : Term} :
    o.constant? = some t → l.HasConstant c → c.exactEq t = true → Reads l s o c

/-- The source that a variant and a number stand for. -/
def Variant.source : Variant → Nat → Source
  | x, n => .place (.x n)
  | y, n => .place (.y n)
  | c, n => .constant n
  | f, n => .float n

/-- The word for a source operand, with its variant, stands for a source. -/
def SourceCoded (r : Reading UInt16) (o : Operand) (source : Source) : Prop :=
  ∃ v n, v ∈ Slot.source.variants ∧ OperandCoded r o v n ∧ source = v.source n.toNat

/-- The place that a variant and a number stand for. -/
def Variant.place : Variant → Nat → Place
  | y, n => .y n
  | _, n => .x n

/-- The word for a source operand stands for what the operand stands for, if there is a slot for
it. -/
theorem Operand.exists_reads {l : Listing} (hmodule : l.toModule = .ok m) {o : Operand}
    {v : Variant} {n : UInt16} (hv : v ∈ Slot.source.variants)
    (ho : OperandCoded (m.reading labels) o v n) (hcode : code.module = m) {s : State}
    (hslot : ∀ place, o.place? = some place → (s.at? place).isSome) :
    ∃ t, s.term? code (v.source n.toNat) = some t ∧ o.Reads l s t := by
  cases v with
  | x =>
    obtain rfl : o = .x n := ho
    exact ⟨_, rfl, .place rfl rfl⟩
  | y =>
    obtain rfl : o = .y n := ho
    obtain ⟨t, ht⟩ := Option.isSome_iff_exists.1 (hslot _ rfl)
    exact ⟨t, ht, .place rfl ht⟩
  | c =>
    obtain ⟨t, ht, c, hc, hequal⟩ := ho
    have hmem := Listing.constants_of_toModule hmodule (p := l.HasConstant)
      (fun f hf i hi k t ht => ⟨f, hf, i, hi, k, ht⟩) c (Array.mem_of_getElem? hc)
    rw [← hcode] at hc
    exact ⟨c, hc, .constant ht hmem hequal⟩
  | f => simp [Slot.variants] at hv

/-- The words for some source operands stand for what these stand for. -/
theorem Operand.exists_values {l : Listing} (hmodule : l.toModule = .ok m)
    (hcode : code.module = m) {s : State} {operands : List Operand} {sources : List Source}
    (hsources : List.Forall₂ (SourceCoded (m.reading labels)) operands sources)
    (hslots : ∀ o ∈ operands, ∀ place, o.place? = some place → (s.at? place).isSome) :
    ∃ values, List.Forall₂ (Operand.Reads l s) operands values ∧
      List.Forall₂ (fun source value => s.term? code source = some value) sources values := by
  induction hsources with
  | nil => exact ⟨[], .nil, .nil⟩
  | @cons o source operands sources ho _ ih =>
    obtain ⟨v, n, hv, hcoded, rfl⟩ := ho
    obtain ⟨t, ht, hreads⟩ :=
      Operand.exists_reads hmodule hv hcoded hcode (hslots o List.mem_cons_self)
    obtain ⟨values, hall, hvalues⟩ := ih fun o ho => hslots o (List.mem_cons_of_mem _ ho)
    exact ⟨t :: values, .cons hreads hall, .cons ht hvalues⟩

/-! ## Code -/

/-- The instruction that opens a tuple. -/
def Instruction.putTuple (n : Int64) (dest : Operand) : Instruction := ⟨.putTuple, [.int n, dest]⟩

/-- The instruction that adds an element. -/
def Instruction.put (o : Operand) : Instruction := ⟨.put, [o]⟩

/-- Words behind others stand further on. -/
theorem prefix_drop {α : Type} {xs ys l : List α} {k : Nat} (h : xs ++ ys <+: l.drop k) :
    ys <+: l.drop (k + xs.length) := by
  obtain ⟨tail, htail⟩ := h
  refine ⟨tail, ?_⟩
  rw [← List.drop_drop, ← htail, List.append_assoc, List.drop_left]

/-- A command that is read from the words at an offset, and others behind it. -/
theorem LoadedModule.Holds.words {pc last : Nat} {word : UInt16} {args : List UInt16}
    {opcode : Opcode} {command : Command} {rest : Operands} {commands : List Command}
    (hwords : word :: args <+: code.module.code.toList.drop pc)
    (hopcode : Opcode.ofWord? word = some opcode)
    (hlength : args.length = opcode.family.layout.length)
    (hdecode : args <+: (code.operandsAt pc opcode).words →
      Command.decode opcode.family (code.operandsAt pc opcode) = .ok (command, rest))
    (hrest : code.Holds (pc + 1 + args.length) commands last) :
    code.Holds pc (command :: commands) last := by
  have hword : code.module.code[pc]? = some word := by
    obtain ⟨tail, htail⟩ := hwords
    rw [← Array.getElem?_toList, ← Nat.add_zero pc, ← List.getElem?_drop, ← htail]
    rfl
  rw [hlength] at hrest
  have hcons : [word] ++ args <+: code.module.code.toList.drop pc := hwords
  exact .cons hword hopcode (hdecode (prefix_drop hcons)) hrest

section Decode

variable {code : Array UInt16} {pc size : Nat} {v : Variant} {n k : UInt16} {vs : List Variant}

/-- The command that fetches one value. -/
theorem decode_fetchOne (h : [n] <+: (⟨code, pc, [v]⟩ : Operands).words) :
    Command.decode .fetchOne ⟨code, pc, [v]⟩ =
      .ok (.fetch (v.source n.toNat) none, ⟨code, pc + 1, []⟩) := by
  have hsource : Decode.source ⟨code, pc, [v]⟩ = .ok _ := Decode.choice_eq _ h
  show (do let (source, o) ← Decode.source ⟨code, pc, [v]⟩; .ok (Command.fetch source none, o)) = _
  rw [hsource]
  cases v <;> rfl

/-- The command that adds an element. -/
theorem decode_put (hn : n.toNat = size) (h : [n] <+: (⟨code, pc, vs⟩ : Operands).words) :
    Command.decode .put ⟨code, pc, vs⟩ = .ok (.putElement size, ⟨code, pc + 1, vs⟩) := by
  show (do let (n, o) ← Decode.number ⟨code, pc, vs⟩; .ok (Command.putElement n, o)) = _
  rw [Decode.number_eq h, hn]
  rfl

/-- The command that opens a tuple. -/
theorem decode_putTuple (hn : n.toNat = size) (hv : v ∈ Slot.dest.variants)
    (h : [n, k] <+: (⟨code, pc, [v]⟩ : Operands).words) :
    Command.decode .putTuple ⟨code, pc, [v]⟩ =
      .ok (.beginTuple size (v.place k.toNat), ⟨code, pc + 1 + 1, []⟩) := by
  have hplace : Decode.place ⟨code, pc + 1, [v]⟩ = .ok _ :=
    Decode.choice_eq _ (Operands.prefix_next h)
  show (do
    let (n, o) ← Decode.number ⟨code, pc, [v]⟩
    let (place, o) ← Decode.place o
    .ok (Command.beginTuple n place, o)) = _
  rw [Decode.number_eq h, hn]
  show (do
    let (place, o) ← Decode.place ⟨code, pc + 1, [v]⟩
    .ok (Command.beginTuple size place, o)) = _
  rw [hplace]
  cases v with
  | x | y => rfl
  | c | f => simp [Slot.variants] at hv

end Decode

/-- The commands that add elements, the first of them behind a position. -/
def putCommands : Nat → List Source → List Command
  | _, [] => []
  | p, source :: sources => .fetch source none :: .putElement (p + 1) :: putCommands (p + 1) sources

section Blocks

variable {m : Module} {labels : List (UInt32 × Nat)} {p : Nat}

/-- The words of an instruction that adds an element. -/
theorem words_of_put {o : Operand} {block : List UInt16}
    (h : BlockCoded (m.reading labels) (.put o) p ⟨.put, [.source 0, .position]⟩ block) :
    ∃ v n fetch put, block = [fetch, n, put, UInt16.ofNat (p + 1)] ∧
      v ∈ Slot.source.variants ∧ OperandCoded (m.reading labels) o v n ∧
      Opcode.ofWord? fetch = some ⟨.fetchOne, [v]⟩ ∧ Opcode.ofWord? put = some ⟨.put, []⟩ := by
  obtain ⟨hfields, hfetch, hmain⟩ := h
  cases hfields with
  | choice huse => cases huse
  | number _ hn => exact hn.elim
  | unused huse => exact huse.elim
  | source hv ho hfields =>
    cases hfields with
    | choice huse => cases huse
    | unused huse => exact huse.elim
    | number hw hn hnil =>
      cases hnil with
      | nil =>
        cases hfetch with
        | one hhead hfetchcode hword =>
          cases hmain with
          | intro hput hputcode _ =>
            cases hhead
            cases hword
            cases hput
            cases hw
            cases hn
            exact ⟨_, _, _, _, rfl, hv, ho, hfetchcode, hputcode⟩

/-- The words of an instruction that opens a tuple. -/
theorem words_of_putTuple {n : Int64} {dst : Operand} {block : List UInt16}
    (h : BlockCoded (m.reading labels) (.putTuple n dst) p ⟨.putTuple, [.number 0, .dest 1]⟩
      block) :
    ∃ v k arity begin, block = [begin, arity, k] ∧ v ∈ Slot.dest.variants ∧
      OperandCoded (m.reading labels) dst v k ∧ n.toInt = arity.toNat ∧
      Opcode.ofWord? begin = some ⟨.putTuple, [v]⟩ := by
  obtain ⟨hfields, hfetch, hmain⟩ := h
  cases hfields with
  | choice huse => cases huse
  | unused huse => exact huse.elim
  | number hw hn hfields =>
    obtain ⟨_, hoperand, harity⟩ := hn
    cases hoperand
    cases hfields with
    | number _ hn => exact hn.elim
    | unused huse => exact huse.elim
    | choice huse hv hword ho hnil =>
      cases huse
      cases hnil with
      | nil =>
        cases hfetch with
        | none =>
          cases hmain with
          | intro hbegin hbegincode _ =>
            cases hbegin
            cases hw
            cases hword
            exact ⟨_, _, _, _, rfl, hv, ho, harity, hbegincode⟩

end Blocks

/-- Instructions that add elements become commands that fetch what the operands stand for and add it
at the positions behind the first. -/
theorem holds_puts {entry : UInt32} {capacity : UInt16} (hcode : code.module = m)
    {operands : List Operand} {back : List Instruction} {p offset : Nat}
    {labels' : List (UInt32 × Nat)} {ws : List UInt16}
    (h : BodyCoded (m.reading labels) entry capacity p offset
      (operands.map Instruction.put ++ back) labels' ws)
    (hwords : ws <+: m.code.toList.drop offset) :
    ∃ sources, List.Forall₂ (SourceCoded (m.reading labels)) operands sources ∧
      code.Holds offset (putCommands p sources)
        (offset + bodyWidth entry (operands.map Instruction.put)) := by
  induction operands generalizing p offset labels' ws with
  | nil => exact ⟨[], .nil, .nil⟩
  | cons o operands ih =>
    cases h with
    | label hop => cases hop
    | entry hop => cases hop
    | remark hop => cases hop
    | instruction hshape _ _ hblock hposition hrest =>
      cases hshape
      obtain ⟨v, n, fetch, put, rfl, hv, ho, hfetch, hput⟩ := words_of_put hblock
      obtain ⟨sources, hsources, hholds⟩ := ih hrest (prefix_drop hwords)
      have hwidth : bodyWidth entry ((o :: operands).map Instruction.put) =
          4 + bodyWidth entry (operands.map Instruction.put) := rfl
      have hnext : (UInt16.ofNat (p + 1)).toNat = p + 1 := UInt16.toNat_ofNat_of_lt hposition
      rw [← hcode] at hwords
      -- Two words fetch the operand, and the two behind them put it.
      have hfirst : [fetch, n] <+: code.module.code.toList.drop offset :=
        List.IsPrefix.trans ⟨_, rfl⟩ hwords
      have hbehind : put :: UInt16.ofNat (p + 1) :: _ <+:
          code.module.code.toList.drop (offset + [fetch, n].length) := prefix_drop hwords
      have hsecond : [put, UInt16.ofNat (p + 1)] <+: code.module.code.toList.drop (offset + 2) :=
        List.IsPrefix.trans ⟨_, rfl⟩ hbehind
      refine ⟨v.source n.toNat :: sources, .cons ⟨v, n, hv, ho, rfl⟩ hsources, ?_⟩
      rw [hwidth, ← Nat.add_assoc]
      exact .words hfirst hfetch rfl decode_fetchOne
        (.words hsecond hput rfl (decode_put hnext) hholds)

/-- The instruction that opens a tuple, and those that add its elements, become commands. -/
theorem holds_putTuple {entry : UInt32} {capacity : UInt16} (hcode : code.module = m) {n : Int64}
    {dst : Operand} {operands : List Operand} {back : List Instruction} {p offset : Nat}
    {labels' : List (UInt32 × Nat)} {ws : List UInt16}
    (h : BodyCoded (m.reading labels) entry capacity p offset
      (.putTuple n dst :: (operands.map Instruction.put ++ back)) labels' ws)
    (hwords : ws <+: m.code.toList.drop offset) (hn : n.toInt = operands.length) :
    ∃ dest sources, dst.place? = some dest ∧
      List.Forall₂ (SourceCoded (m.reading labels)) operands sources ∧
      code.Holds offset (.beginTuple operands.length dest :: putCommands 0 sources)
        (offset + bodyWidth entry (.putTuple n dst :: operands.map Instruction.put)) := by
  cases h with
  | label hop => cases hop
  | entry hop => cases hop
  | remark hop => cases hop
  | instruction hshape _ _ hblock hposition hrest =>
    cases hshape
    obtain ⟨v, k, arity, begin, rfl, hv, ho, harity, hbegin⟩ := words_of_putTuple hblock
    obtain ⟨sources, hsources, hholds⟩ := holds_puts hcode hrest (prefix_drop hwords)
    have hlength : arity.toNat = operands.length := by omega
    have hwidth : bodyWidth entry (.putTuple n dst :: operands.map Instruction.put) =
        3 + bodyWidth entry (operands.map Instruction.put) := rfl
    have hplace : dst.place? = some (v.place k.toNat) := by
      cases v with
      | x => rw [show dst = .x k from ho]; rfl
      | y => rw [show dst = .y k from ho]; rfl
      | c | f => simp [Slot.variants] at hv
    rw [← hcode] at hwords
    have hfirst : [begin, arity, k] <+: code.module.code.toList.drop offset :=
      List.IsPrefix.trans ⟨_, rfl⟩ hwords
    refine ⟨v.place k.toNat, sources, hplace, hsources, ?_⟩
    rw [hwidth, ← Nat.add_assoc]
    exact .words hfirst hbegin rfl (decode_putTuple hlength hv) hholds

/-! ## Running it -/

namespace Machine

variable {draft : TupleDraft} {value : Term}

/-- The state with a tuple under construction, or with none. -/
def State.drafting (s : State) (tuple : Option TupleDraft) : State :=
  { s with frame := { s.frame with tuple } }

/-- The same tuple under construction in states that are the same. -/
theorem State.Untouched.drafting {s u : State} {old : Option TupleDraft}
    (h : (s.drafting old).Untouched u) (tuple : Option TupleDraft) :
    (s.drafting tuple).Untouched (u.drafting tuple) := by
  obtain ⟨pc, lastPc, fetched, hframe⟩ := h.frame
  refine ⟨h.host, pc, lastPc, fetched, ?_⟩
  show { u.frame with tuple } = _
  rw [hframe]
  rfl

/-- Writing has nothing to do with the tuple under construction. -/
theorem drafting_put (s : State) (place : Place) (t : Term) (tuple : Option TupleDraft) :
    (s.put place t).drafting tuple = (s.drafting tuple).put place t := by
  cases place <;> rfl

/-- The same term at a place of states that are the same. -/
theorem State.Untouched.put {s u : State} (h : s.Untouched u) (place : Place) (t : Term) :
    (s.put place t).Untouched (u.put place t) := by
  have hprocess : u.process = s.process := congrArg Host.process h.host
  have hworld : u.world = s.world := congrArg Host.world h.host
  cases place with
  | x n | y n =>
    unfold State.put
    refine ⟨?_, h.frame⟩
    rw [hprocess, hworld]

section Run

variable (linker : Linker) {code : LoadedModule} (callers : List Caller) (recent : Nat) {s : State}

/-- A tuple with elements is opened. -/
theorem beginTuple_run {arity : Nat} (h : arity ≠ 0) (dest : Place) :
    ((Command.beginTuple arity dest).run linker code callers).run s =
      .ok .next (s.drafting (some ⟨dest, arity, #[]⟩)) := by
  unfold Command.run
  dsimp only
  rw [if_neg h]
  rfl

/-- Goes on with a tuple that has one element more. -/
def TupleDraft.store (draft : TupleDraft) (value : Term) : Exec Flow := do
  if (draft.elements.push value).size = draft.arity then
    Exec.modifyFrame fun f => { f with tuple := none }
    Exec.write draft.dest (.tuple (draft.elements.push value).toList)
  else
    Exec.modifyFrame fun f =>
      { f with tuple := some { draft with elements := draft.elements.push value } }
  return .next

/-- The source is stored if the position is the next one. -/
theorem putElement_run (hdraft : s.frame.tuple = some draft) :
    ((Command.putElement (draft.elements.size + 1)).run linker code callers).run s =
      (draft.store s.frame.fetched.1).run (s.fetching (.nil, s.frame.fetched.2)) := by
  have hfirst : Exec.takeFirst.run s =
      .ok s.frame.fetched.1 (s.fetching (.nil, s.frame.fetched.2)) := rfl
  have hframe : Exec.frame.run (s.fetching (.nil, s.frame.fetched.2)) =
      .ok (s.fetching (.nil, s.frame.fetched.2)).frame (s.fetching (.nil, s.frame.fetched.2)) := rfl
  have htuple : (s.fetching (.nil, s.frame.fetched.2)).frame.tuple = some draft := hdraft
  unfold Command.run
  rw [run_bind_ok hfirst, run_bind_ok hframe, htuple]
  dsimp only
  rw [if_neg (not_not.2 rfl)]
  rfl

/-- The machine gives up unless there is a tuple and the position is the next one. -/
theorem exists_draft {position : Nat} {flow : Flow} {t : State}
    (h : ((Command.putElement position).run linker code callers).run s = .ok flow t) :
    ∃ draft, s.frame.tuple = some draft ∧ position = draft.elements.size + 1 := by
  have hfirst : Exec.takeFirst.run s =
      .ok s.frame.fetched.1 (s.fetching (.nil, s.frame.fetched.2)) := rfl
  have hframe : Exec.frame.run (s.fetching (.nil, s.frame.fetched.2)) =
      .ok (s.fetching (.nil, s.frame.fetched.2)).frame (s.fetching (.nil, s.frame.fetched.2)) := rfl
  unfold Command.run at h
  rw [run_bind_ok hfirst, run_bind_ok hframe] at h
  cases hdraft : s.frame.tuple with
  | none =>
    have htuple : (s.fetching (.nil, s.frame.fetched.2)).frame.tuple = none := hdraft
    rw [htuple] at h
    cases h
  | some draft =>
    have htuple : (s.fetching (.nil, s.frame.fetched.2)).frame.tuple = some draft := hdraft
    refine ⟨draft, rfl, ?_⟩
    by_contra hne
    rw [htuple] at h
    dsimp only at h
    rw [if_pos hne] at h
    cases h

/-- An element that is not the last one. -/
theorem store_run (s : State) (h : draft.elements.size + 1 ≠ draft.arity) :
    (draft.store value).run s =
      .ok .next (s.drafting (some { draft with elements := draft.elements.push value })) := by
  unfold TupleDraft.store
  rw [if_neg (by rwa [Array.size_push])]
  rfl

/-- The last element. The tuple goes to its place, if there is one. -/
theorem store_run_last (s : State) (h : draft.elements.size + 1 = draft.arity) :
    (draft.store value).run s =
      (Exec.write draft.dest (.tuple (draft.elements.push value).toList) >>=
        fun _ => pure Flow.next).run (s.drafting none) := by
  unfold TupleDraft.store
  rw [if_pos (by rwa [Array.size_push])]
  rfl

/-- What is stored stands behind the elements that there were. -/
theorem tuple_of_store {flow : Flow} {t : State} (h : (draft.store value).run s = .ok flow t) :
    t.frame.tuple = some { draft with elements := draft.elements.push value } ∨
      draft.elements.size + 1 = draft.arity ∧
        t.at? draft.dest = some (.tuple (draft.elements.push value).toList) := by
  by_cases hlast : draft.elements.size + 1 = draft.arity
  · refine .inr ⟨hlast, ?_⟩
    rw [store_run_last s hlast] at h
    by_cases hdest : ((s.drafting none).at? draft.dest).isSome
    · rw [run_bind_ok (write_run hdest)] at h
      cases h
      exact at?_put hdest
    · obtain ⟨e, hwrite⟩ := Exec.write_run_none hdest (.tuple (draft.elements.push value).toList)
      rw [EStateM.run_bind, hwrite] at h
      cases h
  · rw [store_run s hlast] at h
    cases h
    exact .inl rfl

/-- One element: its source is fetched and stored. -/
theorem put_proceeds {source : Source} {last : Nat} {commands : List Command} {u : State}
    (hu : (s.drafting (some draft)).Untouched u) (hget : linker.get? s.frame.code = some code)
    (hholds : code.Holds u.frame.pc
      (.fetch source none :: .putElement (draft.elements.size + 1) :: commands) last)
    (hvalue : s.term? code source = some value) (hdest : (s.at? draft.dest).isSome) :
    ∃ t, Chain.Proceeds linker 2 ⟨u, callers, recent⟩ ⟨t, callers, recent⟩ ∧
      code.Holds t.frame.pc commands last ∧
      (draft.elements.size + 1 ≠ draft.arity →
        (s.drafting (some { draft with elements := draft.elements.push value })).Untouched t) ∧
      (draft.elements.size + 1 = draft.arity →
        ((s.put draft.dest (.tuple (draft.elements.push value).toList)).drafting none).Untouched
          t) := by
  have hcode : ∀ t, (s.drafting (some draft)).Untouched t →
      linker.get? t.frame.code = some code := by
    intro t ht
    obtain ⟨pc, lastPc, fetched, hframe⟩ := ht.frame
    rw [hframe]
    exact hget
  -- The source is fetched. It stands for what it stood for before the tuple was opened.
  obtain ⟨middle, hrest, hrun⟩ := execute_of_holds hholds rfl linker callers
  have hterm : (u.advance middle).term? code source = some value := by
    rw [((State.Untouched.advance u middle).term? code), hu.term? code]
    exact hvalue
  have hnone : ∀ other ∈ (none : Option Source), (u.advance middle).term? code other = some .nil :=
    fun _ hmem => by cases hmem
  obtain ⟨fetched, hfetch, hfirst, -⟩ := fetch_run linker callers hterm hnone
  rw [hfetch] at hrun
  have hu₁ : (s.drafting (some draft)).Untouched ((u.advance middle).fetching fetched) :=
    (hu.trans (.advance u middle)).trans (.fetching _ fetched)
  -- It is stored.
  obtain ⟨next, hrest', hrun'⟩ := execute_of_holds
    (s := (u.advance middle).fetching fetched) hrest rfl linker callers
  have hu₂ := hu₁.trans (.advance _ next)
  generalize hstate : ((u.advance middle).fetching fetched).advance next = w at hrun' hu₂
  have hpc : w.frame.pc = next := by rw [← hstate]; rfl
  have hfetched : w.frame.fetched.1 = value := by rw [← hstate]; exact hfirst
  have htuple : w.frame.tuple = some draft := by
    obtain ⟨pc, lastPc, fetched, hframe⟩ := hu₂.frame
    rw [hframe]
    rfl
  have hsteps : ∀ t, (draft.store value).run (w.fetching (.nil, w.frame.fetched.2)) = .ok .next t →
      Chain.Proceeds linker 2 ⟨u, callers, recent⟩ ⟨t, callers, recent⟩ := by
    intro t ht
    rw [putElement_run linker callers htuple, hfetched, ht] at hrun'
    exact .step (hcode u hu) hrun (.step (hcode _ hu₁) hrun' .refl)
  have hw := hu₂.trans (.fetching w (.nil, w.frame.fetched.2))
  by_cases hlast : draft.elements.size + 1 = draft.arity
  · have hat : (((w.fetching (.nil, w.frame.fetched.2)).drafting none).at? draft.dest).isSome := by
      have hsame := (hw.drafting none).at?
      rw [hsame]
      exact hdest
    refine ⟨_, hsteps _ ((store_run_last _ hlast).trans (run_bind_ok (write_run hat))), ?_,
      fun hne => absurd hlast hne, fun _ => ?_⟩
    · rw [frame_put]
      show code.Holds w.frame.pc commands last
      rwa [hpc]
    · rw [drafting_put]
      exact (hw.drafting none).put draft.dest _
  · refine ⟨_, hsteps _ (store_run _ hlast), ?_, fun _ => hw.drafting _, fun h => absurd h hlast⟩
    show code.Holds w.frame.pc commands last
    rwa [hpc]

/-- All elements that are missing, one after the other. -/
theorem puts_proceed {dest : Place} {arity last : Nat} {sources : List Source} {values : List Term}
    (hvalues : List.Forall₂ (fun source value => s.term? code source = some value) sources values)
    (hget : linker.get? s.frame.code = some code) (hdest : (s.at? dest).isSome)
    (hmissing : sources ≠ []) {elements : Array Term}
    (harity : elements.size + sources.length = arity) {u : State}
    (hu : (s.drafting (some ⟨dest, arity, elements⟩)).Untouched u)
    (hholds : code.Holds u.frame.pc (putCommands elements.size sources) last) :
    ∃ t, Chain.Proceeds linker (2 * sources.length) ⟨u, callers, recent⟩ ⟨t, callers, recent⟩ ∧
      t.frame.pc = last ∧
      ((s.put dest (.tuple (elements.toList ++ values))).drafting none).Untouched t := by
  -- Along the sources. The elements so far are carried along in the tuple under construction.
  induction hvalues generalizing elements u with
  | nil => exact absurd rfl hmissing
  | @cons source value sources values hvalue hvalues ih =>
    rw [List.length_cons] at harity
    obtain ⟨t, hproceeds, hrest, hmore, hdone⟩ :=
      put_proceeds linker callers recent hu hget hholds hvalue hdest
    by_cases hlast : sources = []
    · subst hlast
      cases hvalues
      cases hrest
      refine ⟨t, hproceeds, rfl, ?_⟩
      have htuple := hdone harity
      rwa [Array.toList_push] at htuple
    · have hpositive : 0 < sources.length := List.length_pos_iff.2 hlast
      have hmissing' : elements.size + 1 ≠ arity := by omega
      have harity' : (elements.push value).size + sources.length = arity := by
        rw [Array.size_push]
        omega
      rw [← Array.size_push value] at hrest
      obtain ⟨t', hproceeds', hpc, htuple⟩ := ih hlast harity' (hmore hmissing') hrest
      refine ⟨t', ?_, hpc, ?_⟩
      · rw [List.length_cons, Nat.mul_add, Nat.add_comm]
        exact hproceeds.trans hproceeds'
      · rw [Array.toList_push, List.append_assoc] at htuple
        exact htuple

end Run

/-- Building a tuple in code. In the code of a module, the words of an instruction that opens a
tuple and of as many that add an element are run from a state whose slots exist, at their offset. In
the end the place holds the tuple of what the operands stood for in the first state, also if the
place is one of them, and nothing else has changed but the prefetched sources and the program
counter, which is behind these words. A constant may have given way to another one of the listing,
but only to one that is exactly equal to it. In whatever state and code, an element is only ever
added behind the elements that there are. -/
theorem puts_build_tuple {l : Listing} {m : Module} (hmodule : l.toModule = .ok m)
    {before after : List FunctionListing} {f : FunctionListing}
    (hfunctions : l.functions.toList = before ++ f :: after) {front back : List Instruction}
    {n : Int64} {dst : Operand} {operands : List Operand}
    (hbody : f.body.toList = front ++ (.putTuple n dst :: (operands.map Instruction.put ++ back)))
    (hn : n.toInt = operands.length) (hpositive : operands ≠ []) {linker : Linker}
    {code : LoadedModule} {c : Chain} (hget : linker.get? c.state.frame.code = some code)
    (hcode : code.module = m)
    (hpc : c.state.frame.pc = codeWidth before + bodyWidth f.entry front)
    (hslots : ∀ o ∈ dst :: operands, ∀ place, o.place? = some place →
      (c.state.at? place).isSome) :
    (∃ dest values built, dst.place? = some dest ∧
      List.Forall₂ (Operand.Reads l c.state) operands values ∧
      c.Proceeds linker (1 + 2 * operands.length) built ∧
      built.callers = c.callers ∧
      built.state.frame.pc = c.state.frame.pc +
        bodyWidth f.entry (.putTuple n dst :: operands.map Instruction.put) ∧
      ((c.state.put dest (.tuple values)).drafting none).Untouched built.state) ∧
    ∀ position callers (s t : State) flow,
      ((Command.putElement position).run linker code callers).run s = .ok flow t →
      ∃ draft, s.frame.tuple = some draft ∧ position = draft.elements.size + 1 ∧
        (t.frame.tuple = some { draft with elements := draft.elements.push s.frame.fetched.1 } ∨
          draft.elements.size + 1 = draft.arity ∧
            t.at? draft.dest = some (.tuple (draft.elements.push s.frame.fetched.1).toList)) := by
  constructor
  · -- Find the words in the code, and what their operands stand for in the first state.
    obtain ⟨labels, capacity, p, labels', ws, hcoded, hwords⟩ :=
      Listing.coded_body hmodule hfunctions hbody
    obtain ⟨dest, sources, hdst, hsources, hholds⟩ := holds_putTuple hcode hcoded hwords hn
    rw [← hpc] at hholds
    obtain ⟨values, hreads, hvalues⟩ := Operand.exists_values hmodule hcode hsources fun o ho =>
      hslots o (List.mem_cons_of_mem _ ho)
    have hdest : (c.state.at? dest).isSome := hslots dst List.mem_cons_self dest hdst
    have hlength : sources.length = operands.length := hsources.length_eq.symm
    -- The first instruction opens the draft.
    obtain ⟨next, hrest, hrun⟩ := execute_of_holds hholds rfl linker c.callers
    rw [beginTuple_run linker c.callers (List.length_pos_iff.2 hpositive).ne'] at hrun
    have hmissing : sources ≠ [] := by
      rintro rfl
      exact hpositive (List.length_eq_zero_iff.1 hlength.symm)
    have harity : (#[] : Array Term).size + sources.length = operands.length := by
      rw [hlength]
      exact Nat.zero_add _
    have hopened : (c.state.drafting (some ⟨dest, operands.length, #[]⟩)).Untouched
        ((c.state.advance next).drafting (some ⟨dest, operands.length, #[]⟩)) :=
      ⟨rfl, next, _, _, rfl⟩
    -- The others complete it, each in two steps.
    obtain ⟨t, hproceeds, hlast, hbuilt⟩ :=
      puts_proceed linker c.callers c.recent hvalues hget hdest hmissing harity hopened hrest
    refine ⟨dest, values, ⟨t, c.callers, c.recent⟩, hdst, hreads, ?_, rfl, hlast, hbuilt⟩
    rw [Nat.add_comm, ← hlength]
    exact .step hget hrun hproceeds
  · intro position callers s t flow hrun
    obtain ⟨draft, hdraft, rfl⟩ := exists_draft linker callers hrun
    rw [putElement_run linker callers hdraft] at hrun
    exact ⟨draft, hdraft, rfl, tuple_of_store hrun⟩

/-! ## Swapping two terms -/

/-- A function that makes a tuple of its arguments, the last one first. -/
def swapping : FunctionListing := ⟨⟨"swap", 2⟩, 2, #[
  ⟨.label, [.int 1]⟩,
  ⟨.funcInfo, [.atom "m", .atom "swap", .int 2]⟩,
  ⟨.label, [.int 2]⟩,
  .putTuple 2 (.x 0),
  .put (.x 1),
  .put (.x 0),
  ⟨.ret, []⟩]⟩

/-- The listing of the function. -/
def swappingListing : Listing where
  name := "m"
  exports := #[⟨"swap", 2⟩]
  functions := #[swapping]

/-- The module of the listing. -/
def swappingModule : Module where
  name := "m"
  code := #[5, 0, 1, 2, 192, 2, 26, 2, 0, 180, 1, 28, 1, 180, 0, 28, 2, 0]
  constants := #[.atom "m", .atom "swap"]
  functions := ⟨⟨[(⟨"swap", 2⟩, 4)]⟩, #[(0, ⟨"swap", 2⟩)]⟩
  exports := [⟨⟨"swap", 2⟩, 4⟩]

/-- The tuple has what the registers held before, although it takes the place of one of them. -/
theorem puts_build_tuple_swapping : swappingListing.toModule = .ok swappingModule ∧
    ∃ built, (Chain.start ⟨"m", 0⟩ 6 [.integer 1, .integer 2] {}).Proceeds
        (Linker.withErlang.load swappingModule) 5 built ∧ built.state.frame.pc = 17 ∧
      built.state.at? (.x 0) = some (.tuple [.integer 2, .integer 1]) ∧
      built.state.at? (.x 1) = some (.integer 2) := by
  have hmodule : swappingListing.toModule = .ok swappingModule :=
    eq_ok_of_toOption (by decide +kernel)
  have hfunctions : swappingListing.functions.toList = [] ++ swapping :: [] := rfl
  have hbody : swapping.body.toList = swapping.body.toList.take 3 ++ (.putTuple 2 (.x 0) ::
      ([.x 1, .x 0].map Instruction.put ++ [⟨.ret, []⟩])) := rfl
  have hget : (Linker.withErlang.load swappingModule).get?
      (Chain.start ⟨"m", 0⟩ 6 [.integer 1, .integer 2] {}).state.frame.code =
        some (.ofModule swappingModule) := rfl
  have hslots : ∀ o ∈ [Operand.x 0, .x 1, .x 0], ∀ place, o.place? = some place →
      ((Chain.start ⟨"m", 0⟩ 6 [.integer 1, .integer 2] {}).state.at? place).isSome := by
    intro o ho place hplace
    simp only [List.mem_cons, List.not_mem_nil, or_false] at ho
    rcases ho with rfl | rfl | rfl <;> cases hplace <;> rfl
  obtain ⟨⟨dest, values, built, hdest, hvalues, hproceeds, -, hpc, hbuilt⟩, -⟩ :=
    puts_build_tuple hmodule hfunctions hbody rfl (List.cons_ne_nil _ _) hget rfl rfl hslots
  cases hdest
  -- The values are those of the registers.
  have hx : ∀ n t, Operand.Reads swappingListing
      (Chain.start ⟨"m", 0⟩ 6 [.integer 1, .integer 2] {}).state (.x n) t →
        some t = (Chain.start ⟨"m", 0⟩ 6 [.integer 1, .integer 2] {}).state.at? (.x n.toNat) := by
    intro n t ht
    cases ht with
    | place hplace hat =>
      cases hplace
      exact hat.symm
    | constant hconstant => cases hconstant
  cases hvalues with
  | cons hfirst hvalues =>
    cases hvalues with
    | cons hsecond hvalues =>
      cases hvalues
      obtain rfl := Option.some.inj (hx _ _ hfirst)
      obtain rfl := Option.some.inj (hx _ _ hsecond)
      refine ⟨hmodule, built, hproceeds, hpc, ?_, ?_⟩
      · rw [hbuilt.at?]
        rfl
      · rw [hbuilt.at?]
        rfl

/-! ## Zeros -/

/-- A function that makes a tuple of two zeros of different sign. -/
def zerosListing : Listing where
  name := "m"
  exports := #[⟨"t", 0⟩]
  functions := #[⟨⟨"t", 0⟩, 2, #[
    ⟨.label, [.int 1]⟩,
    ⟨.funcInfo, [.atom "m", .atom "t", .int 0]⟩,
    ⟨.label, [.int 2]⟩,
    .putTuple 2 (.x 0),
    .put (.literal (.float (.zero false))),
    .put (.literal (.float (.zero true))),
    ⟨.ret, []⟩]⟩]

/-- The second element is not the constant of its operand: the two zeros are exactly equal, so they
share the place of the first one. -/
theorem second_zero_lost : (zerosListing.toModule.toOption.bind fun m =>
    (callExport (Linker.withErlang.load m) 20 "m" "t" [] {}).map Halt.outcome) =
      some (.returned (.tuple [.float (.zero false), .float (.zero false)])) ∧
    (Term.tuple [.float (.zero false), .float (.zero true)]).text ≠
      (Term.tuple [.float (.zero false), .float (.zero false)]).text := by
  decide +kernel

end Machine

end ErlangMachine
