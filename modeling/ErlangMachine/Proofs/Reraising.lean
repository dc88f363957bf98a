import ErlangMachine.Proofs.StackFloor
import ErlangMachine.Proofs.TermOrder

/-!
# Raising a fault again

A handler with clauses finds the class, the reason and the trace of the fault that it receives in
registers. Code that does not want the fault raises it again from the reason and the trace; the
class is not among the operands. The machine takes it from the fault that a handler received last,
which the process remembers, if that fault has the same reason.

The process remembers one fault only, whichever activation has received it. `Recalls` follows a run
and keeps the last fault that any handler has received on the way, and `Recalls.lastFault_eq` says
that this is what the process remembers. So the fault that is raised again always has the reason of
the first fault, and its class is that of the last one if their reasons are equal, and `error`
otherwise (`raise_after_handler`). It is the class of the first fault if no other one was received
in between. In `reraisingListing` another one is, and an exit becomes an error.
-/

namespace ErlangMachine.Machine

/-! ## The last fault -/

section LastFault

variable {linker : Linker} {c next : Chain}

/-- Only raising a fault again makes the process forget. -/
theorem eq_raise_of_changes {command : Command} (h : .lastFault ∈ command.changes) :
    command = .raise := by
  cases command with
  | raise => rfl
  | call c mode =>
    cases mode with
    | nested => cases h
    | tail slots => simp [Command.changes] at h
  | allocate | release | protect | unprotect | native | send | loopReceiveEnd | removeMessage
  | timeout => simp [Command.changes] at h
  | _ => cases h

/-- What raising a fault again does: the reason is the second operand. -/
theorem raise_run (linker : Linker) (code : LoadedModule) (callers : List Caller) (s : State) :
    ∃ t, (Command.raise.run linker code callers).run s =
      .error (.fault (reraise s.process.lastFault s.frame.fetched.2
        (location? code s.frame.lastPc))) t :=
  ⟨_, rfl⟩

/-- A command that does not stop leaves the last fault alone. -/
theorem lastFault_of_ok {code : LoadedModule} {callers : List Caller} {s t : State} {flow : Flow}
    (h : (execute linker code callers).run s = .ok flow t) :
    t.process.lastFault = s.process.lastFault := by
  have hkeeps := keeps_execute linker code callers s
  rw [Exec.final_of_ok h] at hkeeps
  refine hkeeps.lastFault fun hmem => ?_
  cases hcommand : code.commandAt? s.frame.pc with
  | none =>
    rw [hcommand] at hmem
    cases hmem
  | some command =>
    rw [hcommand] at hmem
    obtain rfl := eq_raise_of_changes hmem
    -- Raising a fault again always stops.
    obtain ⟨pc, hexecute⟩ := execute_command hcommand rfl linker callers
    obtain ⟨u, hraise⟩ := raise_run linker code callers (s.advance pc)
    rw [hexecute, hraise] at h
    cases h

/-- After a step the process remembers what a handler has received in it, or what it did before. -/
theorem lastFault_step (h : c.step linker = .running next) :
    next.state.process.lastFault = (c.received? linker).or c.state.process.lastFault := by
  obtain ⟨code, hcode, ⟨frames, fault, l, hframes, hfault, hlanding⟩ |
    ⟨hnone, flow, s, hrun, hnext⟩⟩ := Chain.step_forms h
  · rw [Chain.received?_eq hcode, hframes, Option.bind_some, hfault, Option.bind_some,
      hlanding.received, hlanding.lastFault_eq]
    rfl
  · rw [Chain.received?_eq hcode, hnone, hnext.lastFault_eq, lastFault_of_ok hrun]
    rfl

/-- A chain that is suspended leaves the last fault alone. -/
theorem lastFault_suspended {host : Host} {k : Continuation}
    (h : c.step linker = .halted ⟨host, .suspended k⟩) :
    host.process.lastFault = c.state.process.lastFault := by
  obtain ⟨code, wake, s, -, hrun, -, hhost⟩ := Chain.step_suspended h
  rw [hhost]
  exact lastFault_of_ok hrun

end LastFault

/-! ## From one fault to the next -/

/-- What may follow after a handler has received a fault, step by step and however often the chain
waits, and the last fault that any handler has received until then. While the chain waits, the
process does not run anything else. -/
inductive Recalls (linker : Linker) (start : Chain) (fault : Fault) : Chain → Fault → Prop where
  /-- The handler has just received the fault. -/
  | here : Recalls linker start fault start fault
  /-- The chain goes on by itself. -/
  | step {c next : Chain} {last : Fault} : Recalls linker start fault c last →
    c.step linker = .running next →
    Recalls linker start fault next ((c.received? linker).getD last)
  /-- The chain was suspended and goes on. -/
  | resume {c : Chain} {before after : Host} {k : Continuation} {r : Resumption} {last : Fault} :
    Recalls linker start fault c last → c.step linker = .halted ⟨before, .suspended k⟩ →
    after.process.lastFault = before.process.lastFault →
    Recalls linker start fault (k.chain r after) last

/-- A handler with clauses receives a fault, and the chain goes on with it. -/
structure Chain.Delivers (linker : Linker) (c : Chain) (fault : Fault) (start : Chain) : Prop where
  /-- The chain goes on. -/
  step_eq : c.step linker = .running start
  /-- This is what the handler receives. -/
  received_eq : c.received? linker = some fault
  /-- The handler has clauses. -/
  clauses : ∃ frame handler, c.catcher? linker = some (frame, handler) ∧ handler.kind = .tryClauses

section Recalling

variable {linker : Linker} {c start : Chain} {fault last : Fault}

/-- A handler with clauses finds the fault in the registers, and the process remembers it. -/
theorem Chain.Delivers.registers (h : c.Delivers linker fault start) :
    start.state.process.lastFault = some fault ∧
      start.state.process.x 0 = .atom fault.kind.atom ∧ start.state.process.x 1 = fault.reason ∧
      start.state.process.x 2 = .list fault.trace := by
  have hreceived := h.received_eq
  obtain ⟨frame, handler, hcatcher, hkind⟩ := h.clauses
  unfold catcher? at hcatcher
  obtain ⟨code, hcode, ⟨frames, thrown, l, hframes, hthrown, hlanding⟩ | ⟨hnone, -⟩⟩ :=
    step_forms h.step_eq
  · rw [received?_eq hcode, hframes, Option.bind_some, hthrown, Option.bind_some,
      hlanding.received] at hreceived
    rw [hcode, Option.bind_some, hframes, Option.bind_some, hlanding.receiver?_eq] at hcatcher
    cases hcatcher
    cases hreceived
    exact ⟨hlanding.lastFault_eq, hlanding.delivered hkind⟩
  · rw [received?_eq hcode, hnone] at hreceived
    cases hreceived

/-- The process remembers the last fault that a handler has received. -/
theorem Recalls.lastFault_eq (h : Recalls linker start fault c last)
    (hstart : start.state.process.lastFault = some fault) :
    c.state.process.lastFault = some last := by
  induction h with
  | here => exact hstart
  | @step c next last _ hstep ih =>
    rw [lastFault_step hstep, ih]
    cases c.received? linker with
    | none => rfl
    | some received => rfl
  | @resume c before after k r last _ hstep hafter ih =>
    show after.process.lastFault = some last
    rw [hafter, lastFault_suspended hstep, ih]

/-- What is raised again has the reason that is given for it. -/
theorem reason_reraise (last : Option Fault) (reason : Term) (here : Option Term) :
    (reraise last reason here).reason = reason := by
  unfold reraise
  split
  · split
    · rfl
    · rfl
  · rfl

/-- What is raised again has the class of the last fault if it has its reason. -/
theorem kind_reraise (last : Fault) (reason : Term) (here : Option Term) :
    (reraise (some last) reason here).kind =
      if last.reason.exactEq reason then last.kind else .error := by
  unfold reraise
  dsimp only
  split
  · rfl
  · rfl

end Recalling

/-- Raising a fault again. A handler with clauses receives a fault and finds it in the registers;
the code may do anything after that. When it raises the trace and the reason again that the handler
had found, the new fault has the same reason. It has the class of the last fault that any handler
has received until then, if that has the same reason, and is an error otherwise. So it has the same
class if no other fault was received in between. -/
theorem raise_after_handler (linker : Linker) (code : LoadedModule) (c start again : Chain)
    (fault last : Fault) (trace reason : Source) (stop : Nat)
    (hcatch : c.Delivers linker fault start) (hrun : Recalls linker start fault again last)
    (hget : linker.get? again.state.frame.code = some code)
    (hholds : code.Holds again.state.frame.pc [.fetch trace (some reason), .raise] stop)
    (htrace : again.state.term? code trace = some (start.state.process.x 2))
    (hreason : again.state.term? code reason = some (start.state.process.x 1)) :
    (start.state.process.x 0 = .atom fault.kind.atom ∧
      start.state.process.x 1 = fault.reason ∧ start.state.process.x 2 = .list fault.trace) ∧
    ∃ ready raised s, again.Proceeds linker 1 ready ∧ ready.callers = again.callers ∧
      (execute linker code ready.callers).run ready.state = .error (.fault raised) s ∧
      raised.reason = fault.reason ∧
      raised.kind = (if last.reason.exactEq fault.reason then last.kind else .error) ∧
      (last = fault → raised.kind = fault.kind) := by
  obtain ⟨hstart, hregisters⟩ := hcatch.registers
  have hlast := hrun.lastFault_eq hstart
  refine ⟨hregisters, ?_⟩
  -- The two operands are fetched.
  obtain ⟨middle, hrest, hfetch⟩ := execute_of_holds hholds rfl linker again.callers
  have hterm : (again.state.advance middle).term? code = again.state.term? code :=
    term?_congr rfl rfl code
  have hoperands : ∀ source ∈ some reason,
      (again.state.advance middle).term? code source = some (start.state.process.x 1) := by
    intro source hsource
    cases hsource
    rw [hterm, hreason]
  obtain ⟨fetched, hfetched, -, hsecond⟩ :=
    fetch_run linker again.callers (hterm ▸ htrace) hoperands
  have hoperand : fetched.2 = fault.reason := (hsecond rfl).trans hregisters.2.1
  rw [hfetched] at hfetch
  -- Then the fault is raised, with what the process remembers.
  let ready := (again.state.advance middle).fetching fetched
  obtain ⟨next, -, hexecute⟩ := execute_of_holds (s := ready) hrest rfl linker again.callers
  obtain ⟨s, hraise⟩ := raise_run linker code again.callers (ready.advance next)
  have hkind : (reraise (ready.advance next).process.lastFault fetched.2
      (location? code ready.frame.pc)).kind =
        if last.reason.exactEq fault.reason then last.kind else .error := by
    have hready : (ready.advance next).process.lastFault = some last := hlast
    rw [hready, kind_reraise, hoperand]
  refine ⟨⟨ready, again.callers, again.recent⟩, _, s, .step hget hfetch .refl, rfl,
    hexecute.trans hraise, (reason_reraise _ _ _).trans hoperand, hkind, ?_⟩
  rintro rfl
  exact hkind.trans (if_pos (Term.exactEq_self last.reason))

/-! ## A fault that changes its class -/

/-- A module with two functions. The first catches an exit, calls the second and raises the exit
again. The second fails to match a value and catches that. -/
def reraisingListing : Listing where
  name := "m"
  exports := #[⟨"f", 0⟩]
  functions := #[
    ⟨⟨"f", 0⟩, 2, #[
      ⟨.label, [.int 1]⟩,
      ⟨.funcInfo, [.atom "m", .atom "f", .int 0]⟩,
      ⟨.label, [.int 2]⟩,
      ⟨.allocate, [.int 3, .int 0]⟩,
      ⟨.tryBegin, [.y 0, .label 3]⟩,
      ⟨.move, [.atom "a", .x 0]⟩,
      ⟨.callExt, [.int 1, .external ⟨"erlang", "exit", 1⟩]⟩,
      ⟨.label, [.int 3]⟩,
      ⟨.tryCase, [.y 0]⟩,
      ⟨.move, [.x 1, .y 1]⟩,
      ⟨.move, [.x 2, .y 2]⟩,
      ⟨.call, [.int 0, .label 5]⟩,
      ⟨.raise, [.y 2, .y 1]⟩]⟩,
    ⟨⟨"g", 0⟩, 5, #[
      ⟨.label, [.int 4]⟩,
      ⟨.funcInfo, [.atom "m", .atom "g", .int 0]⟩,
      ⟨.label, [.int 5]⟩,
      ⟨.allocate, [.int 1, .int 0]⟩,
      ⟨.catchBegin, [.y 0, .label 6]⟩,
      ⟨.badmatch, [.atom "a"]⟩,
      ⟨.label, [.int 6]⟩,
      ⟨.catchEnd, [.y 0]⟩,
      ⟨.deallocate, [.int 1]⟩,
      ⟨.ret, []⟩]⟩]

/-- The module of the listing. -/
def reraisingModule : Module where
  name := "m"
  code := #[5, 0, 1, 0, 192, 3, 10, 3, 147, 0, 18, 182, 2, 16, 0, 59, 1, 0, 149, 0, 180, 1, 17, 1,
    180, 2, 17, 2, 56, 0, 39, 187, 2, 1, 150, 5, 0, 3, 0, 192, 0, 10, 1, 145, 0, 49, 182, 2, 6, 146,
    0, 12, 1, 0]
  constants := #[.atom "m", .atom "f", .atom "a", .atom "g"]
  functions := ⟨⟨[(⟨"g", 0⟩, 39), (⟨"f", 0⟩, 4)]⟩, #[(0, ⟨"f", 0⟩), (35, ⟨"g", 0⟩)]⟩
  exports := [⟨⟨"f", 0⟩, 4⟩]
  imports := #[⟨⟨"erlang", "exit", 1⟩, false⟩]

/-- A linker with that module and the natives of `erlang`. -/
def reraisingLinker : Linker := ((Linker.withErlang.load reraisingModule).link 0).2

/-- The call of the first function after so many steps. -/
def reraisingChain (n : Nat) : Chain :=
  ((Chain.start ⟨"m", 0⟩ 4 [] {}).after? reraisingLinker n).getD default

/-- The fault that is caught first. -/
def reraisingFault : Fault := ⟨.exit, .atom "a", [.tuple [.atom "m", .atom "f", .integer 0]]⟩

/-- The fault that is caught in between. -/
def reraisingLast : Fault :=
  { Fault.badmatch (.atom "a") with trace := [.tuple [.atom "m", .atom "g", .integer 0]] }

/-- What follows after so many steps, with the last fault that a handler has received. -/
def Chain.recalled? (linker : Linker) : Nat → Chain → Fault → Option (Chain × Fault)
  | 0, c, last => some (c, last)
  | n + 1, c, last =>
    match c.step linker with
    | .running next => next.recalled? linker n ((c.received? linker).getD last)
    | .halted _ => none

/-- Running on keeps account of the last fault. -/
theorem Recalls.after {linker : Linker} {start c again : Chain} {fault last last' : Fault} {n : Nat}
    (h : Recalls linker start fault c last)
    (hafter : c.recalled? linker n last = some (again, last')) :
    Recalls linker start fault again last' := by
  induction n generalizing c last with
  | zero =>
    cases hafter
    exact h
  | succ n ih =>
    rw [Chain.recalled?] at hafter
    cases hstep : c.step linker with
    | running next =>
      rw [hstep] at hafter
      exact ih (.step h hstep) hafter
    | halted halt =>
      rw [hstep] at hafter
      cases hafter

/-- In the call of the first function, the exit is received by a handler with clauses. -/
theorem delivers_reraising :
    (reraisingChain 5).Delivers reraisingLinker reraisingFault (reraisingChain 6) := by
  have hstep : (reraisingChain 5).step reraisingLinker = .running (reraisingChain 6) := by
    decide +kernel
  have hreceived : (reraisingChain 5).received? reraisingLinker = some reraisingFault := by
    decide +kernel
  have hkind : ((reraisingChain 5).catcher? reraisingLinker).map (·.2.kind) = some .tryClauses := by
    decide +kernel
  obtain ⟨⟨frame, handler⟩, hcatcher, hclauses⟩ := Option.map_eq_some_iff.1 hkind
  exact ⟨hstep, hreceived, frame, handler, hcatcher, hclauses⟩

/-- Until it is raised again, a handler receives the error of the second function. -/
theorem recalls_reraising : Recalls reraisingLinker (reraisingChain 6) reraisingFault
    (reraisingChain 20) reraisingLast := by
  refine Recalls.here.after (n := 14) ?_
  decide +kernel

/-- The code of the module, with its imports bound. -/
def reraisingCode : LoadedModule :=
  (Linker.withErlang.load reraisingModule).bind (.ofModule reraisingModule)

/-- The exit is raised again, and is an error then. -/
theorem raise_after_handler_badmatch :
    (reraisingChain 5).Delivers reraisingLinker reraisingFault (reraisingChain 6) ∧
      Recalls reraisingLinker (reraisingChain 6) reraisingFault (reraisingChain 20) reraisingLast ∧
      ∃ ready raised s, (reraisingChain 20).Proceeds reraisingLinker 1 ready ∧
        (execute reraisingLinker reraisingCode ready.callers).run ready.state =
          .error (.fault raised) s ∧
        raised.reason = .atom "a" ∧ raised.kind = .error := by
  have hcode : (reraisingChain 20).state.frame.code = ⟨"m", 0⟩ := by decide +kernel
  have hget : reraisingLinker.get? ⟨"m", 0⟩ = some reraisingCode := rfl
  have hpc : (reraisingChain 20).state.frame.pc = 31 := by decide +kernel
  have hholds : reraisingCode.Holds 31
      [.fetch (.place (.y 2)) (some (.place (.y 1))), .raise] 35 := by
    refine LoadedModule.holds_of_commandsFrom? (n := 2) ?_
    cbv
  have htrace : (reraisingChain 20).state.term? reraisingCode (.place (.y 2)) =
      some ((reraisingChain 6).state.process.x 2) := by
    decide +kernel
  have hreason : (reraisingChain 20).state.term? reraisingCode (.place (.y 1)) =
      some ((reraisingChain 6).state.process.x 1) := by
    decide +kernel
  obtain ⟨-, ready, raised, s, hready, -, hraised, hsame, hkind, -⟩ :=
    raise_after_handler reraisingLinker reraisingCode (reraisingChain 5) (reraisingChain 6)
      (reraisingChain 20) reraisingFault reraisingLast (.place (.y 2)) (.place (.y 1)) 35
      delivers_reraising recalls_reraising (hcode ▸ hget) (hpc ▸ hholds) htrace hreason
  exact ⟨delivers_reraising, recalls_reraising, ready, raised, s, hready, hraised, hsame, hkind⟩

/-- The listing is assembled. -/
theorem toModule_reraisingListing : reraisingListing.toModule = .ok reraisingModule :=
  eq_ok_of_toOption (by decide +kernel)

/-- The call of the first function ends with an error, although it is an exit that the function
raises again. -/
theorem exit_reraised_as_error :
    reraisingListing.toModule = .ok reraisingModule ∧
      (reraisingChain 5).Delivers reraisingLinker reraisingFault (reraisingChain 6) ∧
      reraisingFault.kind = .exit ∧
      (callExport reraisingLinker 30 "m" "f" [] {}).map Halt.outcome =
        some (.faulted { reraisingFault with kind := .error }) := by
  refine ⟨toModule_reraisingListing, delivers_reraising, rfl, ?_⟩
  decide +kernel

end ErlangMachine.Machine
