import ErlangMachine.Machine.Run
import ErlangMachine.Proofs.Commands

/-!
# One command at a time

What `execute` does comes in three parts: it notes where it is, it asks whether a call has to wait
for its turn, and it runs the command that the words at the program counter stand for. The equations
of this module take it apart along these lines (`execute_parts`), and `Coupling.results_execute`
says that it keeps states coupled unless a call has to wait. A step of a chain is what
`Chain.settle` makes of the result.
-/

namespace ErlangMachine

/-- The operands after an opcode, of which nothing is read yet. -/
def LoadedModule.operandsAt (code : LoadedModule) (pc : Nat) (opcode : Opcode) : Machine.Operands :=
  ⟨code.module.code, pc + 1, opcode.variants⟩

/-- The command at an offset. -/
def LoadedModule.commandAt? (code : LoadedModule) (pc : Nat) : Option Machine.Command := do
  let opcode ← Opcode.ofWord? (← code.module.code[pc]?)
  match Machine.Command.decode opcode.family (code.operandsAt pc opcode) with
  | .ok (command, _) => some command
  | .error _ => none

/-- The command at an offset is the one that its words decode to. -/
theorem LoadedModule.commandAt?_eq {code : LoadedModule} {pc : Nat} {word : UInt16}
    {opcode : Opcode} {command : Machine.Command} {rest : Machine.Operands}
    (hword : code.module.code[pc]? = some word)
    (hopcode : Opcode.ofWord? word = some opcode)
    (hdecode : Machine.Command.decode opcode.family (code.operandsAt pc opcode) =
      .ok (command, rest)) : code.commandAt? pc = some command := by
  unfold commandAt?
  rw [hword, Option.bind_eq_bind, Option.bind_some, hopcode, Option.bind_eq_bind, Option.bind_some,
    hdecode]

/-- A command at an offset is what the words there decode to. -/
theorem LoadedModule.of_commandAt? {code : LoadedModule} {pc : Nat} {command : Machine.Command}
    (h : code.commandAt? pc = some command) :
    ∃ word opcode rest, code.module.code[pc]? = some word ∧ Opcode.ofWord? word = some opcode ∧
      Machine.Command.decode opcode.family (code.operandsAt pc opcode) = .ok (command, rest) := by
  unfold commandAt? at h
  rw [Option.bind_eq_bind, Option.bind_eq_some_iff] at h
  obtain ⟨word, hword, h⟩ := h
  rw [Option.bind_eq_bind, Option.bind_eq_some_iff] at h
  obtain ⟨opcode, hopcode, h⟩ := h
  split at h
  · rename_i command' rest hdecode
    cases h
    exact ⟨word, opcode, rest, hword, hopcode, hdecode⟩
  · cases h

namespace Machine

/-- The state in which the command at the program counter begins. -/
def State.begin (s : State) : State := { s with frame := { s.frame with lastPc := s.frame.pc } }

/-- Whether a call has to wait for the next turn, and the state after that question. -/
def State.turn (s : State) : Bool × State :=
  if s.frame.skipYield then (false, { s with frame := { s.frame with skipYield := false } })
  else (s.world.checkYield.1, { s with world := s.world.checkYield.2 })

/-- The command about to run has a source operand that reads a catch tag. -/
def State.ReadsTag (linker : Linker) (s : State) : Prop :=
  ∃ code command, linker.get? s.frame.code = some code ∧
    code.commandAt? s.frame.pc = some command ∧ command.ReadsTag s

/-- The question whether a call has to wait always gets an answer. -/
theorem mustYield_run (s : State) : Exec.mustYield.run s = .ok s.turn.1 s.turn.2 := by
  unfold Exec.mustYield State.turn
  cases hmark : s.frame.skipYield with
  | true | false =>
    simp only [Exec.frame, EStateM.run_bind, EStateM.run_get, EStateM.run_pure, hmark]
    rfl

/-- Whether an opcode has to wait for the next turn, and the state after that question: only calls
ask it. -/
def State.prepare (s : State) (opcode : Opcode) : Bool × State :=
  if mayYield opcode.family then s.begin.turn else (false, s.begin)

/-- The state in which something runs at an offset that comes after the program counter: where the
activation was is noted, and its mark and the world may be others. -/
def State.noted (s : State) (mark : Bool) (world : World) (pc : Nat) : State :=
  ⟨⟨world, s.process⟩, { s.frame with lastPc := s.frame.pc, skipYield := mark, pc }⟩

/-- That question changes at most the mark and, by a check, the world, and only calls wait. -/
theorem State.prepare_forms (s : State) (opcode : Opcode) :
    ((s.prepare opcode).1 = true → mayYield opcode.family = true) ∧
      ∃ mark world, (world = s.world ∨ world = s.world.checkYield.2) ∧
        (s.prepare opcode).2 = s.noted mark world s.frame.pc := by
  unfold prepare turn
  split
  · rename_i hmay
    refine ⟨fun _ => hmay, ?_⟩
    split
    · exact ⟨_, _, .inl rfl, rfl⟩
    · exact ⟨_, _, .inr rfl, rfl⟩
  · refine ⟨fun hwait => ?_, _, _, .inl rfl, rfl⟩
    cases hwait

section Execute

variable (linker : Linker) {code : LoadedModule} (callers : List Caller) {s : State}

/-- There is nothing to run after the end of the code. -/
theorem execute_end (h : code.module.code[s.frame.pc]? = none) :
    (execute linker code callers).run s =
      .error (.broken (.badJump s.frame.pc s.frame.pc)) s.begin := by
  unfold execute
  simp only [Exec.frame, Exec.modifyFrame, EStateM.run_bind, EStateM.run_get, EStateM.run_pure,
    EStateM.run_modify, h]
  rfl

/-- A word that is no opcode cannot be run. -/
theorem execute_unknown {word : UInt16} (h : code.module.code[s.frame.pc]? = some word)
    (hword : Opcode.ofWord? word = none) :
    (execute linker code callers).run s =
      .error (.broken (.unimplementedOpcode word s.frame.pc)) s.begin := by
  unfold execute
  simp only [Exec.frame, Exec.modifyFrame, EStateM.run_bind, EStateM.run_get, EStateM.run_pure,
    EStateM.run_modify, h, hword]
  rfl

/-- An opcode is run, unless it is a call that has to wait. -/
theorem execute_opcode {word : UInt16} {opcode : Opcode}
    (h : code.module.code[s.frame.pc]? = some word) (hword : Opcode.ofWord? word = some opcode) :
    (execute linker code callers).run s =
      if (s.prepare opcode).1 then .ok (.suspend (.yield true)) (s.prepare opcode).2
      else (runOpcode linker code callers opcode s.frame.pc).run (s.prepare opcode).2 := by
  unfold execute State.prepare
  simp only [Exec.frame, Exec.modifyFrame, EStateM.run_bind, EStateM.run_get, EStateM.run_pure,
    EStateM.run_modify, h, hword]
  by_cases hmay : mayYield opcode.family
  · rw [if_pos hmay, if_pos hmay, EStateM.run_bind, mustYield_run]
    show (if s.begin.turn.1 then pure (.suspend (.yield true)) else
      runOpcode linker code callers opcode s.frame.pc : Exec Flow).run s.begin.turn.2 = _
    cases s.begin.turn.1 with
    | true => rfl
    | false => rfl
  · rw [if_neg hmay, if_neg hmay]
    rfl

/-- The command of an opcode runs behind its operands, as many as its family has. -/
theorem runOpcode_of_decode {opcode : Opcode} {pc : Nat} {command : Command} {rest : Operands}
    (h : Command.decode opcode.family (code.operandsAt pc opcode) = .ok (command, rest)) :
    runOpcode linker code callers opcode pc = (do
      let _ ← Exec.goto (pc + 1 + opcode.family.layout.length)
      command.run linker code callers) := by
  have hpc : rest.pc = pc + 1 + opcode.family.layout.length :=
    (along_decode opcode.family _ command rest h).1
  unfold LoadedModule.operandsAt at h
  unfold runOpcode
  rw [h]
  dsimp only
  rw [hpc]

/-- What comes of running at the program counter. The machine gives up, a call is held up, or the
command that the words stand for runs behind them. -/
theorem execute_parts (code : LoadedModule) (s : State) :
    ∃ mark world, (world = s.world ∨ world = s.world.checkYield.2) ∧
      ((∃ error, (execute linker code callers).run s =
          .error (.broken error) (s.noted mark world s.frame.pc) ∧
        (error.IsOrdinary ∨ ∃ word, error = .unimplementedOpcode word s.frame.pc ∧
          code.module.code[s.frame.pc]? = some word ∧ Opcode.ofWord? word = none)) ∨
      ∃ word opcode, code.module.code[s.frame.pc]? = some word ∧
        Opcode.ofWord? word = some opcode ∧
        ((mayYield opcode.family = true ∧ (execute linker code callers).run s =
          .ok (.suspend (.yield true)) (s.noted mark world s.frame.pc)) ∨
        ∃ command rest,
          Command.decode opcode.family (code.operandsAt s.frame.pc opcode) = .ok (command, rest) ∧
          (execute linker code callers).run s = (command.run linker code callers).run
            (s.noted mark world (s.frame.pc + 1 + opcode.family.layout.length)))) := by
  cases hword : code.module.code[s.frame.pc]? with
  | none => exact ⟨_, _, .inl rfl, .inl ⟨_, execute_end linker callers hword, .inl trivial⟩⟩
  | some word =>
    cases hopcode : Opcode.ofWord? word with
    | none =>
      exact ⟨_, _, .inl rfl, .inl ⟨_, execute_unknown linker callers hword hopcode,
        .inr ⟨word, rfl, rfl, hopcode⟩⟩⟩
    | some opcode =>
      -- The turn of a process may end before the operands are read.
      obtain ⟨hmay, mark, world, hworld, hprepare⟩ := s.prepare_forms opcode
      refine ⟨mark, world, hworld, ?_⟩
      rw [execute_opcode linker callers hword hopcode, hprepare]
      by_cases hwait : (s.prepare opcode).1
      · rw [if_pos hwait]
        exact .inr ⟨word, opcode, rfl, hopcode, .inl ⟨hmay hwait, rfl⟩⟩
      · rw [if_neg hwait]
        cases hdecode : Command.decode opcode.family (code.operandsAt s.frame.pc opcode) with
        | ok decoded =>
          rw [runOpcode_of_decode linker callers hdecode]
          exact .inr ⟨word, opcode, rfl, hopcode, .inr ⟨decoded.1, decoded.2, hdecode, rfl⟩⟩
        | error e =>
          unfold LoadedModule.operandsAt at hdecode
          unfold runOpcode
          rw [hdecode]
          cases e with
          | missingWord | missingLabel => exact .inl ⟨_, rfl, .inl trivial⟩

end Execute

/-! ## Steps of a chain -/

namespace Chain

/-- What a chain does with the result of a command. -/
def settle (linker : Linker) (c : Chain) : EStateM.Result Stop State Flow → Progress
  | .ok .next state => .running { c with state }
  | .ok (.leave value) state => leave value state c.callers c.recent
  | .ok (.call target arguments) state => { c with state }.call linker target arguments
  | .ok (.tailCall target arguments) state => { c with state }.tailCall linker target arguments
  | .ok (.suspend wake) state => { c with state }.suspend wake
  | .error (.fault fault) state => raise linker fault state c.callers c.recent
  | .error (.broken error) state => { c with state }.abort error

/-- A step runs a command of the module and settles what follows from it. -/
theorem step_eq_settle {linker : Linker} {c : Chain} {code : LoadedModule}
    (h : linker.get? c.state.frame.code = some code) :
    c.step linker = c.settle linker ((execute linker code c.callers).run c.state) := by
  unfold step
  rw [h]
  dsimp only
  cases (execute linker code c.callers).run c.state with
  | ok flow state => cases flow <;> rfl
  | error stop state => cases stop <;> rfl

/-- The machine gives up where there is no module. -/
theorem step_eq_abort {linker : Linker} {c : Chain} (h : linker.get? c.state.frame.code = none) :
    c.step linker = c.abort (.missingEntry "module" c.state.frame.code.place) := by
  unfold step
  rw [h]

/-- A machine that gives up leaves everything but the registers as it is, and these are the ones of
an activation. -/
theorem abort_eq (error : Error) (c : Chain) : ∃ registers,
    (registers = c.state.process.registers ∨ ∃ caller ∈ c.callers, registers = caller.registers) ∧
      c.abort error =
        .halted ⟨⟨c.state.world, { c.state.process with registers }⟩, .broken error⟩ := by
  unfold abort
  cases c.recent with
  | zero => exact ⟨_, .inl rfl, rfl⟩
  | succ n =>
    dsimp only
    cases hcaller : c.callers[n]? with
    | none => exact ⟨_, .inl rfl, rfl⟩
    | some caller => exact ⟨_, .inr ⟨caller, List.mem_of_getElem? hcaller, rfl⟩, rfl⟩

end Chain

/-- A fault with the function of the running activation added to those that it has left. -/
def State.leaving (linker : Linker) (s : State) (fault : Fault) : Fault :=
  ((linker.get? s.frame.code).bind fun code => location? code s.frame.lastPc).elim fault fault.leave

/-- What a `catch` expression gives for a fault has the parts of the fault, and plain terms. -/
theorem every_catchValue {p : Term → Prop} (hplain : ∀ t : Term, t.IsPlain → p t) {fault : Fault}
    (h : ∀ t ∈ fault.terms, t.Every p) : fault.catchValue.Every p := by
  have hreason : fault.reason.Every p := h _ List.mem_cons_self
  have htrace : (Term.list fault.trace).Every p :=
    Term.every_list (hplain _ trivial) (fun _ _ => hplain _ trivial) fun t ht =>
      h t (List.mem_cons_of_mem _ ht)
  have hexit : (Term.atom "EXIT").Every p := hplain _ trivial
  unfold Fault.catchValue
  split
  · exact hreason
  · exact ⟨hplain _ trivial, hexit, hreason, trivial⟩
  · exact ⟨hplain _ trivial, hexit, ⟨hplain _ trivial, hreason, htrace, trivial⟩, trivial⟩

/-- The function that a fault leaves adds only its name, which is made of plain terms. -/
theorem every_leaving {p : Term → Prop} (hplain : ∀ t : Term, t.IsPlain → p t) {linker : Linker}
    {fault : Fault} (h : ∀ t ∈ fault.terms, t.Every p) (s : State) :
    ∀ t ∈ (s.leaving linker fault).terms, t.Every p := by
  unfold State.leaving
  cases hplace : (linker.get? s.frame.code).bind fun code => location? code s.frame.lastPc with
  | none => exact h
  | some place =>
    obtain ⟨code, -, hlocation⟩ := Option.bind_eq_some_iff.1 hplace
    obtain ⟨f, -, rfl⟩ := Option.map_eq_some_iff.1 hlocation
    intro t ht
    rcases List.mem_cons.1 ht with rfl | ht
    · exact h _ List.mem_cons_self
    · rcases List.mem_append.1 ht with ht | ht
      · exact h t (List.mem_cons_of_mem _ ht)
      · obtain rfl := List.mem_singleton.1 ht
        exact ⟨hplain _ trivial, hplain _ trivial, hplain _ trivial, hplain _ trivial, trivial⟩

/-- A handler cuts the stack back to its depth. -/
theorem stack_handle (s : State) (fault : Fault) (handler : Handler) (outer : List Handler) :
    (s.handle fault handler outer).process.stack = (s.process.truncate handler.depth).stack := by
  unfold State.handle
  cases handler.kind with
  | catchValue => rfl
  | tryClauses => rfl

/-- A handler that receives a good fault leaves a good process. -/
theorem Coupling.GoodProcess.handle {C : Coupling} (hplain : ∀ t : Term, t.IsPlain → C.leaf t)
    {s : State} (hp : C.GoodProcess s.process) {fault : Fault} (hfault : C.GoodFault fault)
    (handler : Handler) (outer : List Handler) :
    C.GoodProcess (s.handle fault handler outer).process := by
  have hnil : C.Good .nil := hplain _ trivial
  have hcut : C.GoodProcess (s.process.truncate handler.depth) := hp.withStack _
  have hlast : ∀ p : Process, C.GoodProcess p →
      C.GoodProcess { p with lastFault := some fault } :=
    fun p hp => ⟨hp.registers, hp.floats, fun last hlast => Option.some.inj hlast ▸ hfault⟩
  unfold State.handle
  -- The two kinds of handlers get the fault in different registers.
  cases handler.kind with
  | catchValue =>
    have hset := hcut.setX hnil 0 (every_catchValue hplain hfault)
    exact hlast _ hset
  | tryClauses =>
    have htrace : C.Good (.list fault.trace) :=
      Term.every_list (p := C.leaf) hnil (fun _ _ => hplain _ trivial) fun t ht =>
        hfault t (List.mem_cons_of_mem _ ht)
    have hclass : C.Good (.atom fault.kind.atom) := hplain _ trivial
    have hreason : C.Good fault.reason := hfault _ List.mem_cons_self
    have hset := ((hcut.setX hnil 0 hclass).setX hnil 1 hreason).setX hnil 2 htrace
    exact hlast _ hset

/-- The state of an activation that ends with a fault. -/
def State.unwind (s : State) : State := { s with process := s.process.truncate s.frame.base }

namespace Chain

variable {linker : Linker} {fault : Fault} {s : State} {recent : Nat}

/-- A fault goes to the innermost handler. -/
theorem raise_handled {callers : List Caller} {handler : Handler} {outer : List Handler}
    (h : s.frame.handlers = handler :: outer) :
    raise linker fault s callers recent =
      .running ⟨s.handle (s.leaving linker fault) handler outer, callers, recent⟩ := by
  unfold raise
  rw [h]
  rfl

/-- A fault that no handler receives ends an outermost activation. -/
theorem raise_nil (h : s.frame.handlers = []) :
    raise linker fault s [] recent = s.unwind.halt (.faulted (s.leaving linker fault)) := by
  unfold raise
  rw [h]
  rfl

/-- A fault that no handler receives goes on to the caller. -/
theorem raise_cons {caller : Caller} {callers : List Caller} (h : s.frame.handlers = []) :
    raise linker fault s (caller :: callers) recent =
      raise linker (s.leaving linker fault) (s.unwind.resumeCaller caller) callers
        (recent - 1) := by
  rw [raise, h]
  rfl

end Chain

namespace Coupling

variable {C : Coupling} {linker : Linker} {code : LoadedModule}

/-- The operands of an opcode are read, and its command keeps states coupled. -/
theorem results_runOpcode (laws : C.Laws linker code) {callers callers' : List Caller}
    (hcallers : callers.flatMap Caller.terms = callers'.flatMap Caller.terms) {opcode : Opcode}
    {pc : Nat} {s s' : State} (hs : C.Related s s')
    (hnext : C.offset (pc + 1 + opcode.family.layout.length))
    (hcommand : ∀ command rest,
      Command.decode opcode.family (code.operandsAt pc opcode) = .ok (command, rest) →
        C.Fits command ∧ (command.ReadsTag s → C.AllowsTags)) :
    C.Results C.Flows ((runOpcode linker code callers opcode pc).run s)
      ((runOpcode linker code callers' opcode pc).run s') := by
  cases hdecode : Command.decode opcode.family (code.operandsAt pc opcode) with
  | ok decoded =>
    obtain ⟨command, rest⟩ := decoded
    have hmoved := (sim_setPc hnext s s' hs).2
    obtain ⟨hfits, htag⟩ := hcommand command rest hdecode
    rw [runOpcode_of_decode linker callers hdecode, runOpcode_of_decode linker callers' hdecode]
    exact results_command laws hcallers hfits hmoved htag
  | error e =>
    unfold LoadedModule.operandsAt at hdecode
    unfold runOpcode
    rw [hdecode]
    cases e with
    | missingWord | missingLabel => exact ⟨rfl, laws.ordinary _ trivial, hs⟩

/-- Whatever running the command at the program counter comes to, a state that belongs to itself
leads to one that does. A call that has to wait for its turn stands apart. -/
theorem results_execute (laws : C.Laws linker code) (callers : List Caller) {s : State}
    (hs : C.Related s s)
    (hunknown : ∀ word, code.module.code[s.frame.pc]? = some word → Opcode.ofWord? word = none →
      C.error (.unimplementedOpcode word s.frame.pc))
    (hopcode : ∀ word opcode, code.module.code[s.frame.pc]? = some word →
      Opcode.ofWord? word = some opcode → C.offset (s.frame.pc + 1 + opcode.family.layout.length) ∧
        ∀ command rest,
          Command.decode opcode.family (code.operandsAt s.frame.pc opcode) = .ok (command, rest) →
            C.Fits command ∧ (command.ReadsTag s → C.AllowsTags)) :
    C.Results C.Flows ((execute linker code callers).run s) ((execute linker code callers).run s) ∨
      ∃ mark world, C.Worlds world world ∧ (execute linker code callers).run s =
        .ok (.suspend (.yield true)) (s.noted mark world s.frame.pc) := by
  obtain ⟨mark, world, hworld, hparts⟩ := execute_parts linker callers code s
  -- Looking whether the turn is over may have changed the world.
  have hgood : C.Worlds world world := by
    rcases hworld with rfl | rfl
    · exact hs.world
    · exact (laws.checkYield _ _ hs.world).2
  have hnoted : ∀ pc, C.offset pc → C.Related (s.noted mark world pc) (s.noted mark world pc) :=
    fun pc hpc => ⟨rfl, rfl, hgood, hs.goodProcess, hs.stack, { hs.goodFrame with pc := hpc }⟩
  obtain ⟨error, hrun, herror⟩ | ⟨word, opcode, hword, hcase, ⟨-, hrun⟩ |
    ⟨command, rest, hdecode, hrun⟩⟩ := hparts
  · rw [hrun]
    refine .inl ⟨rfl, ?_, hnoted _ hs.goodFrame.pc⟩
    rcases herror with herror | ⟨word, rfl, hword, hnone⟩
    · exact laws.ordinary error herror
    · exact hunknown word hword hnone
  · exact .inr ⟨mark, world, hgood, hrun⟩
  · obtain ⟨hnext, hcommand⟩ := hopcode word opcode hword hcase
    obtain ⟨hfits, htag⟩ := hcommand command rest hdecode
    rw [hrun]
    exact .inl (results_command laws rfl hfits (hnoted _ hnext) htag)

end Coupling

/-! ## Runs whatever the terms -/

/-- The coupling of a run with itself that takes all terms as they come. What it follows is where
the code goes on and how deep the stack is. -/
def blind (offset : Nat → Prop) (depth : Nat → Nat → Prop) (table : Slot → Nat → Prop) :
    Coupling where
  leaf _ := True
  entry _ _ := True
  handler _ := True
  offset := offset
  module _ := True
  stack base stack := depth base stack.length
  pace := Eq
  yields := Eq
  abroad _ := True
  native _ := True
  error e := ∀ base found, e = .stackBelowBase base found → depth base found ∧ found < base
  constant _ := True
  valueTable := table .valueTable
  arityTable := table .arityTable

section Blind

variable {offset : Nat → Prop} {depth : Nat → Nat → Prop} {table : Slot → Nat → Prop}

/-- Every term is good. -/
theorem good_blind (t : Term) : (blind offset depth table).Good t :=
  Term.every_of_forall (fun _ => trivial) t

/-- A world belongs to itself. -/
theorem worlds_blind (w : World) : (blind offset depth table).Worlds w w :=
  ⟨rfl, rfl, fun t _ => good_blind t, fun _ _ => ⟨trivial, trivial⟩, fun _ _ => trivial⟩

/-- Everything may be called. -/
theorem goodCallable_blind (target : Callable) :
    (blind offset depth table).GoodCallable target := by
  cases target with
  | native => trivial
  | code => exact ⟨trivial, fun t _ => good_blind t⟩

/-- A state at a place to go on belongs to itself if its stack is as deep as it should be. -/
theorem related_blind {s : State} (hpc : offset s.frame.pc)
    (hdepth : depth s.frame.base s.process.depth) : (blind offset depth table).Related s s where
  process := rfl
  frame := rfl
  world := worlds_blind s.world
  goodProcess := ⟨fun t _ => good_blind t, fun _ _ => trivial, fun _ _ t _ => good_blind t⟩
  stack := hdepth
  goodFrame :=
    { module := trivial
      pc := hpc
      handlers := fun _ _ => trivial
      tuple := fun _ _ t _ => good_blind t
      first := good_blind _
      second := good_blind _ }

/-- The coupling keeps its promises if the stack may be as deep as an activation can make it, and
jump tables lead to where the code may go on. -/
theorem laws_blind {linker : Linker} {code : LoadedModule}
    (hdepth : ∀ base found found', depth base found → min base found ≤ found' → depth base found')
    (hvalue : ∀ i t, table .valueTable i → code.module.valueTables[i]? = some t →
      ∀ value target, t.lookup value = some target → offset target)
    (harity : ∀ i t, table .arityTable i → code.module.arityTables[i]? = some t →
      ∀ arity target, t.lookup arity = some target → offset target) :
    (blind offset depth table).Laws linker code where
  plain := fun _ _ => trivial
  closure := fun _ _ _ _ => Iff.rfl
  tag := fun _ _ _ _ _ => trivial
  finite := fun _ _ => trivial
  neg := fun _ _ => trivial
  ofInt := fun _ => trivial
  abroad := fun _ _ => trivial
  entry := fun _ _ _ _ => trivial
  stackRead := fun _ _ _ t _ _ _ => .inl (good_blind t)
  -- After each operation the stack is at least as deep as the base or as it was.
  stackWrite := fun base stack n t h _ _ => hdepth base _ _ h (by rw [List.length_set]; omega)
  stackAllocate := fun base stack n h => hdepth base _ _ h (by rw [List.length_append]; omega)
  stackRelease := fun base stack n h _ _ => hdepth base _ _ h (by rw [List.length_drop]; omega)
  stackBase := by
    rintro base stack h hlow _ _ heq
    cases heq
    exact ⟨h, hlow⟩
  handler := fun _ _ _ _ _ _ => trivial
  ordinary := by
    rintro _ he base found rfl
    exact he.elim
  constant := fun _ _ t _ => good_blind t
  noConstant := fun _ _ _ _ _ heq => by cases heq
  valueTable := fun i h t ht => hvalue i t h ht
  noValueTable := fun _ _ _ _ _ heq => by cases heq
  arityTable := fun i h t ht => harity i t h ht
  noArityTable := fun _ _ _ _ _ heq => by cases heq
  binding := fun _ target _ => goodCallable_blind target
  resolve := fun _ target _ => goodCallable_blind target
  native := by
    intro f arguments w w' _ _ hworlds
    obtain rfl := World.eq_of_calm hworlds.calm hworlds.pace
    refine ⟨rfl, ?_, worlds_blind _⟩
    cases (f arguments w).1 with
    | ok t => exact good_blind t
    | error fault => exact fun t _ => good_blind t
  checkYield := by
    intro w w' hworlds
    obtain rfl := World.eq_of_calm hworlds.calm hworlds.pace
    exact ⟨rfl, worlds_blind _⟩

end Blind

end Machine

end ErlangMachine
