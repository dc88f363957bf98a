import ErlangMachine.Proofs.Execution

/-!
# Straight code

Commands that stand one after the other in code and neither call nor jump are run one after the
other. `LoadedModule.Holds` says which commands stand between two offsets, `execute_of_holds` says
that the next of them is what `execute` runs, and `Chain.Proceeds` is a run in which every command
goes on with the next one. The equations for `source` and `write` say what a command finds at its
operands when nothing is missing. `State.Untouched` says that nothing has changed but which command
is next and what was fetched for it.
-/

namespace ErlangMachine

/-! ## Commands in a row -/

/-- Commands that stand one after the other in code, from one offset to another. -/
inductive LoadedModule.Holds (code : LoadedModule) : Nat → List Machine.Command → Nat → Prop where
  /-- Nothing stands between an offset and itself. -/
  | nil {pc : Nat} : Holds code pc [] pc
  /-- A command, and others behind its words. -/
  | cons {pc last : Nat} {word : UInt16} {opcode : Opcode} {command : Machine.Command}
    {rest : Machine.Operands} {commands : List Machine.Command} :
    code.module.code[pc]? = some word → Opcode.ofWord? word = some opcode →
    Machine.Command.decode opcode.family (code.operandsAt pc opcode) = .ok (command, rest) →
    Holds code (pc + 1 + opcode.family.layout.length) commands last →
    Holds code pc (command :: commands) last

/-- Commands in a row can be divided. -/
theorem LoadedModule.Holds.of_append {code : LoadedModule} {pc last : Nat}
    {front back : List Machine.Command} (h : code.Holds pc (front ++ back) last) :
    ∃ middle, code.Holds pc front middle ∧ code.Holds middle back last := by
  induction front generalizing pc with
  | nil => exact ⟨pc, .nil, h⟩
  | cons command front ih =>
    cases h with
    | cons hword hopcode hdecode hrest =>
      obtain ⟨middle, hfront, hback⟩ := ih hrest
      exact ⟨middle, .cons hword hopcode hdecode hfront, hback⟩

/-- The next `n` commands from an offset on, and the offset behind them. -/
def LoadedModule.commandsFrom? (code : LoadedModule) :
    Nat → Nat → Option (List Machine.Command × Nat)
  | 0, pc => some ([], pc)
  | n + 1, pc => do
    let command ← code.commandAt? pc
    let opcode ← Opcode.ofWord? (← code.module.code[pc]?)
    let (commands, last) ← code.commandsFrom? n (pc + 1 + opcode.family.layout.length)
    return (command :: commands, last)

/-- The commands that are found one after the other stand one after the other. -/
theorem LoadedModule.holds_of_commandsFrom? {code : LoadedModule} {n pc last : Nat}
    {commands : List Machine.Command} (h : code.commandsFrom? n pc = some (commands, last)) :
    code.Holds pc commands last := by
  induction n generalizing pc commands with
  | zero =>
    cases h
    exact .nil
  | succ n ih =>
    unfold commandsFrom? at h
    simp only [Option.bind_eq_bind, Option.bind_eq_some_iff] at h
    obtain ⟨command, hcommand, word, hword, opcode, hopcode, ⟨rest, last'⟩, hrest, h⟩ := h
    cases h
    obtain ⟨word', opcode', operands, hword', hopcode', hdecode⟩ := of_commandAt? hcommand
    obtain rfl := Option.some.inj (hword.symm.trans hword')
    obtain rfl := Option.some.inj (hopcode.symm.trans hopcode')
    exact .cons hword hopcode hdecode (ih hrest)

namespace Machine

/-- The state in which a command runs that is followed by an offset. -/
def State.advance (s : State) (next : Nat) : State :=
  { s with frame := { s.frame with lastPc := s.frame.pc, pc := next } }

/-- The next of the commands in a row is the one that runs. -/
theorem execute_of_holds {code : LoadedModule} {s : State} {last : Nat} {command : Command}
    {commands : List Command} (h : code.Holds s.frame.pc (command :: commands) last)
    (hcall : command.isCall = false) (linker : Linker) (callers : List Caller) :
    ∃ next, code.Holds next commands last ∧ (execute linker code callers).run s =
      (command.run linker code callers).run (s.advance next) := by
  cases h with
  | @cons _ _ word opcode _ rest _ hword hopcode hdecode hrest =>
    have hstill : mayYield opcode.family = false := by
      refine Bool.eq_false_iff.2 fun hmay => ?_
      have hcalls := (along_decode opcode.family _ command rest hdecode).2.isCall_eq
      rw [hcall, hmay] at hcalls
      cases hcalls
    refine ⟨_, hrest, ?_⟩
    rw [execute_opcode linker callers hword hopcode]
    unfold State.prepare
    rw [hstill, runOpcode_of_decode linker callers hdecode]
    rfl

/-- The command at the program counter is the one that runs. -/
theorem execute_command {code : LoadedModule} {s : State} {command : Command}
    (h : code.commandAt? s.frame.pc = some command) (hcall : command.isCall = false)
    (linker : Linker) (callers : List Caller) :
    ∃ next, (execute linker code callers).run s =
      (command.run linker code callers).run (s.advance next) := by
  obtain ⟨word, opcode, rest, hword, hopcode, hdecode⟩ := LoadedModule.of_commandAt? h
  obtain ⟨next, -, hrun⟩ :=
    execute_of_holds (.cons hword hopcode hdecode .nil) hcall linker callers
  exact ⟨next, hrun⟩

/-- A run of as many commands, each of which goes on with the next one. -/
inductive Chain.Proceeds (linker : Linker) : Nat → Chain → Chain → Prop where
  /-- No command. -/
  | refl {c : Chain} : Proceeds linker 0 c c
  /-- One command and then others. -/
  | step {n : Nat} {c last : Chain} {code : LoadedModule} {s : State} :
    linker.get? c.state.frame.code = some code →
    (execute linker code c.callers).run c.state = .ok .next s →
    Proceeds linker n { c with state := s } last → Proceeds linker (n + 1) c last

/-- One run after another. -/
theorem Chain.Proceeds.trans {linker : Linker} {m n : Nat} {c middle last : Chain}
    (h : c.Proceeds linker m middle) (hlast : middle.Proceeds linker n last) :
    c.Proceeds linker (m + n) last := by
  induction h with
  | refl => rwa [Nat.zero_add]
  | @step k _ _ _ _ hcode hrun _ ih =>
    rw [Nat.add_right_comm]
    exact .step hcode hrun (ih hlast)

/-! ## Operands -/

/-- An action that succeeds hands its result over to the next one. -/
theorem run_bind_ok {α β : Type} {action : Exec α} {k : α → Exec β} {s t : State} {a : α}
    (h : action.run s = .ok a t) : (action >>= k).run s = (k a).run t := by
  rw [EStateM.run_bind, h]

/-- The term that a source stands for, if it stands for one. -/
def State.term? (s : State) (code : LoadedModule) : Source → Option Term
  | .place slot => s.at? slot
  | .constant i => code.module.constants[i]?
  | .float n => some (.float (s.process.fr n))

/-- The state with a term at a place. -/
def State.put (s : State) (place : Place) (t : Term) : State :=
  match place with
  | .x n => { s with process := s.process.setX n t }
  | .y n => { s with process := { s.process with stack := s.process.stack.set n t } }

section Operands

variable {s : State} {code : LoadedModule} {t : Term}

/-- A source that stands for a term gives it. -/
theorem source_run {source : Source} (h : s.term? code source = some t) :
    (Exec.source code source).run s = .ok t s := by
  cases source with
  | place slot =>
    cases slot with
    | x n =>
      cases h
      rfl
    | y n =>
      change (if n < s.process.depth - s.frame.base then s.process.stack[n]? else none) = _ at h
      obtain ⟨hn, hslot⟩ := Option.ite_none_right_eq_some.1 h
      unfold Exec.source Exec.read Exec.checkSlot Exec.process Process.y
      simp only [EStateM.run_bind, EStateM.run_get, EStateM.run_pure, if_neg (Nat.not_le.2 hn),
        hslot]
      rfl
  | constant i =>
    have hconstant : code.module.constants[i]? = some t := h
    show (Exec.entry "constant" i code.module.constants[i]?).run s = .ok t s
    rw [hconstant]
    rfl
  | float n =>
    cases h
    rfl

/-- A register that was written holds what was written. -/
theorem x_setX (p : Process) (n : Nat) (t : Term) : (p.setX n t).x n = t := by
  have hsize : n < (p.registers ++ Array.replicate (n + 1 - p.registers.size) Term.nil).size := by
    rw [Array.size_append, Array.size_replicate]
    omega
  unfold Process.x Process.setX Process.ensureRegisters
  rw [Array.getD_eq_getD_getElem?, Array.getElem?_setIfInBounds_self_of_lt hsize]
  rfl

/-- The slots of the activation are those above its base. -/
theorem isSome_at?_y {n : Nat} : (s.at? (.y n)).isSome ↔ n < s.process.depth - s.frame.base := by
  have hdepth : s.process.depth = s.process.stack.length := rfl
  unfold State.at?
  dsimp only
  split
  · simp
    omega
  · simp
    omega

/-- A place of the activation can be written. -/
theorem write_run {place : Place} (h : (s.at? place).isSome) :
    (Exec.write place t).run s = .ok () (s.put place t) := by
  cases place with
  | x n => rfl
  | y n =>
    have hn := isSome_at?_y.1 h
    have hdepth : n < s.process.depth := by omega
    unfold Exec.write Exec.checkSlot Exec.process Process.setY
    simp only [EStateM.run_bind, EStateM.run_get, EStateM.run_pure, if_neg (Nat.not_le.2 hn),
      if_pos hdepth]
    rfl

/-- A place of the activation holds what was written there. -/
theorem at?_put {place : Place} (h : (s.at? place).isSome) :
    (s.put place t).at? place = some t := by
  cases place with
  | x n => exact congrArg some (x_setX s.process n t)
  | y n =>
    have hn := isSome_at?_y.1 h
    have hlt : n < s.process.stack.length := by unfold Process.depth at hn; omega
    have hdepth : (s.put (.y n) t).process.depth = s.process.depth := List.length_set
    have hbase : (s.put (.y n) t).frame.base = s.frame.base := rfl
    unfold State.at?
    dsimp only
    rw [hdepth, hbase, if_pos hn]
    exact List.getElem?_set_self hlt

/-- Writing changes nothing about the activation. -/
theorem frame_put (s : State) (place : Place) (t : Term) : (s.put place t).frame = s.frame := by
  cases place <;> rfl

/-- A register that was not written holds what it held. -/
theorem x_setX_of_ne (p : Process) {m n : Nat} (h : m ≠ n) (t : Term) :
    (p.setX n t).x m = p.x m := by
  unfold Process.x Process.setX Process.ensureRegisters
  rw [Array.getD_eq_getD_getElem?, Array.getD_eq_getD_getElem?,
    Array.getElem?_setIfInBounds_ne (Ne.symm h), Array.getElem?_append]
  split
  · rfl
  · -- Registers that were added hold what a missing register stands for.
    rename_i hm
    rw [Array.getElem?_eq_none (Nat.le_of_not_lt hm), Array.getElem?_replicate]
    split
    · rfl
    · rfl

/-- Sources other than the place that was written stand for what they stood for. -/
theorem term?_put_of_ne {source : Source} {place : Place} (h : source ≠ .place place) :
    (s.put place t).term? code source = s.term? code source := by
  cases source with
  | place slot =>
    have hne : slot ≠ place := fun heq => h (congrArg Source.place heq)
    cases slot with
    | x m =>
      cases place with
      | x n =>
        have hmn : m ≠ n := fun heq => hne (congrArg Place.x heq)
        exact congrArg some (x_setX_of_ne s.process hmn t)
      | y n => rfl
    | y m =>
      cases place with
      | x n => rfl
      | y n =>
        have hmn : m ≠ n := fun heq => hne (congrArg Place.y heq)
        have hdepth : (s.put (.y n) t).process.depth = s.process.depth := List.length_set
        have hslot : (s.put (.y n) t).process.stack[m]? = s.process.stack[m]? :=
          List.getElem?_set_ne (Ne.symm hmn)
        unfold State.term? State.at?
        dsimp only
        rw [hdepth, hslot, frame_put]
  | constant i => rfl
  | float n => cases place <;> rfl

end Operands

/-- Places hold the same in states of the same process and activation. -/
theorem at?_congr {s t : State} (hprocess : t.process = s.process)
    (hbase : t.frame.base = s.frame.base) : t.at? = s.at? := by
  funext place
  cases place <;> simp only [State.at?, hprocess, hbase]

theorem term?_congr {s t : State} (hprocess : t.process = s.process)
    (hbase : t.frame.base = s.frame.base) (code : LoadedModule) : t.term? code = s.term? code := by
  have hat := at?_congr hprocess hbase
  funext source
  cases source <;> simp only [State.term?, hprocess, hat]

/-- The state when the fetched sources are others. -/
def State.fetching (s : State) (fetched : Term × Term) : State :=
  { s with frame := { s.frame with fetched } }

/-! ## States that are the same but for their commands -/

/-- Two states that differ at most in where the code goes on and in the prefetched sources. -/
structure State.Untouched (s t : State) : Prop where
  /-- The world with its mailbox, and the process with its registers, its stack and its float
  registers. -/
  host : t.toHost = s.toHost
  /-- The handlers, and the tuple and the bit string under construction. -/
  frame : ∃ pc lastPc fetched, t.frame = { s.frame with pc, lastPc, fetched }

namespace State.Untouched

theorem refl (s : State) : s.Untouched s := ⟨rfl, _, _, _, rfl⟩

/-- One after another. -/
theorem trans {s t u : State} (h : s.Untouched t) (h' : t.Untouched u) : s.Untouched u := by
  obtain ⟨pc, lastPc, fetched, hframe⟩ := h.frame
  obtain ⟨pc', lastPc', fetched', hframe'⟩ := h'.frame
  exact ⟨h'.host.trans h.host, pc', lastPc', fetched', by rw [hframe', hframe]⟩

theorem fetching (s : State) (fetched : Term × Term) : s.Untouched (s.fetching fetched) :=
  ⟨rfl, _, _, fetched, rfl⟩

theorem advance (s : State) (next : Nat) : s.Untouched (s.advance next) := ⟨rfl, next, _, _, rfl⟩

/-- Places hold the same. -/
theorem at? {s t : State} (h : s.Untouched t) : t.at? = s.at? := by
  obtain ⟨pc, lastPc, fetched, hframe⟩ := h.frame
  exact at?_congr (congrArg Host.process h.host) (by rw [hframe])

theorem term? {s t : State} (h : s.Untouched t) (code : LoadedModule) :
    t.term? code = s.term? code := by
  obtain ⟨pc, lastPc, fetched, hframe⟩ := h.frame
  exact term?_congr (congrArg Host.process h.host) (by rw [hframe]) code

end State.Untouched

section Fetching

variable {s : State} {code : LoadedModule}

/-- Sources that stand for terms are read. -/
theorem fetch_run (linker : Linker) (callers : List Caller) {first : Source}
    {second : Option Source} {t u : Term}
    (hfirst : s.term? code first = some t)
    (hsecond : ∀ source ∈ second, s.term? code source = some u) :
    ∃ fetched : Term × Term, ((Command.fetch first second).run linker code callers).run s =
        .ok .next (s.fetching fetched) ∧
      fetched.1 = t ∧ (second.isSome → fetched.2 = u) := by
  have hrun := source_run hfirst
  cases second with
  | none =>
    refine ⟨(t, s.frame.fetched.2), ?_, rfl, fun h => by cases h⟩
    unfold Command.run
    rw [run_bind_ok hrun]
    rfl
  | some source =>
    have hrun' := source_run (hsecond source rfl)
    refine ⟨(t, u), ?_, rfl, fun _ => rfl⟩
    unfold Command.run
    rw [run_bind_ok hrun, run_bind_ok hrun']
    rfl

end Fetching

end Machine

end ErlangMachine
