import ErlangMachine.Proofs.Extents
import ErlangMachine.Proofs.StackFloor

/-!
# Traces

A fault that nothing catches leaves the activations of a chain one after the other, and each adds
its function to the trace. Which function that is depends on the last offset at which the activation
ran a command, and the function table of its module gives the function whose words are there.

An activation that waits does so in a nested call. `Reaches.waits` follows this through everything
that a call can come to, however often it is suspended and resumed. So each activation has run a
command of its module, and if the module was assembled from a listing then one of the listing's
functions has the offset in its extent.
-/

namespace ErlangMachine.Machine

variable {s : State} {callers : List Caller} {c : Chain}

/-- The command that an activation ran last is a nested call. -/
def Frame.Waits (linker : Linker) (f : Frame) : Prop :=
  ∃ code callee, linker.get? f.code = some code ∧
    code.commandAt? f.lastPc = some (.call callee .nested)

/-- All activations of a chain but the running one wait in a nested call. -/
def Chain.Waits (linker : Linker) (c : Chain) : Prop :=
  ∀ f ∈ c.callers.map (·.frame), f.Waits linker

/-- The code of an activation was assembled from a listing. -/
def Frame.Listed (linker : Linker) (f : Frame) : Prop :=
  ∃ code l, linker.get? f.code = some code ∧ Listing.toModule l = .ok code.module

/-- A term is the module, the function and the arity of the function in whose code the command is
that an activation ran last. -/
def Frame.Named (linker : Linker) (f : Frame) (place : Term) : Prop :=
  ∃ code l g, linker.get? f.code = some code ∧ Listing.toModule l = .ok code.module ∧
    l.Encloses f.lastPc g ∧ place =
      .tuple [.atom code.module.name, .atom g.function.name, .integer (.ofNat g.function.arity)]

/-! ## Leaving activations -/

section Leaving

variable {linker : Linker}

/-- A fault that leaves an activation gets its name. -/
theorem Frame.Named.leaving {f : Frame} {place : Term} (h : f.Named linker place) (fault : Fault) :
    f.leaving linker fault = fault.leave place := by
  obtain ⟨code, l, g, hcode, hmodule, hencloses, rfl⟩ := h
  unfold Frame.leaving location?
  rw [hcode, Option.bind_some, Listing.functionAt?_of_encloses hmodule hencloses]
  rfl

/-- An activation that has run a command of a listing's module has a name. -/
theorem Frame.Listed.exists_named {f : Frame} (h : f.Listed linker) {code : LoadedModule}
    (hcode : linker.get? f.code = some code) {command : Command}
    (hcommand : code.commandAt? f.lastPc = some command) : ∃ place, f.Named linker place := by
  obtain ⟨code', l, hcode', hmodule⟩ := h
  obtain rfl := Option.some.inj (hcode.symm.trans hcode')
  obtain ⟨word, -, -, hword, -⟩ := LoadedModule.of_commandAt? hcommand
  have hpc : f.lastPc < code.module.code.size := (Array.getElem?_eq_some_iff.1 hword).1
  obtain ⟨g, hencloses⟩ := Listing.exists_encloses hmodule hpc
  exact ⟨_, code, l, g, hcode, hmodule, hencloses, rfl⟩

/-- A fault that leaves activations one after the other gets all their names. -/
theorem leavingAll_named {frames : List Frame} {places : List Term}
    (h : List.Forall₂ (Frame.Named linker) frames places) (fault : Fault) :
    leavingAll linker fault frames = { fault with trace := fault.trace ++ places } := by
  induction h generalizing fault with
  | nil => exact congrArg (Fault.mk _ _) (List.append_nil _).symm
  | @cons f place frames places hplace _ ih =>
    have hrest := ih (fault.leave place)
    unfold leavingAll at hrest ⊢
    rw [List.foldl_cons, hplace.leaving, hrest]
    unfold Fault.leave
    rw [List.append_assoc]
    rfl

end Leaving

/-! ## Waiting -/

section Waiting

variable {linker : Linker} {code : LoadedModule} {target : Callable} {arguments : List Term}

/-- An activation is made to wait only by a nested call. -/
theorem nested_of_call {command : Command} {t : State}
    (h : (command.run linker code callers).run s = .ok (.call target arguments) t) :
    ∃ callee, command = .call callee .nested := by
  by_cases hcall : command.isCall
  case neg => cases (Exec.quiet_run linker code callers (Bool.eq_false_iff.2 hcall)).calls s _ t h
  cases command with
  | call callee mode =>
    cases mode with
    | nested => exact ⟨callee, rfl⟩
    | tail slots =>
      unfold Command.run at h
      rw [EStateM.run_bind] at h
      cases hcallee : (Exec.callee linker code callee).run s with
      | error stop u =>
        rw [hcallee] at h
        cases h
      | ok found u =>
        rw [hcallee] at h
        have hleave : Exec.Late (pure (.tailCall found.1 found.2)) := Exec.late_pure (by simp)
        have hbalance := Exec.sure_checkBalance.bind_late fun _ => hleave
        cases slots with
        | none => exact absurd h (hbalance.2 u target arguments t)
        | some n =>
          have hrelease := (Exec.sure_release n).bind_late fun _ => hbalance
          exact absurd h (hrelease.2 u target arguments t)
  | _ => cases hcall

/-- A result that is not the machine giving up, nor a call that waits for its turn, is that of a
command, which stands where the activation is. -/
theorem exists_commandAt? {r : EStateM.Result Stop State Flow}
    (hrun : (execute linker code callers).run s = r)
    (hgoes : ∀ error t, r ≠ .error (.broken error) t)
    (hturn : ∀ wake t, r ≠ .ok (.suspend wake) t) :
    ∃ command t, code.commandAt? s.frame.pc = some command ∧
      (command.run linker code callers).run t = r := by
  subst hrun
  obtain ⟨t, -, ⟨error, hrun⟩ | hrun⟩ | ⟨command, t, hcommand, -, hrun⟩ :=
    execute_forms linker code callers s
  · exact absurd hrun (hgoes error t)
  · exact absurd hrun (hturn _ t)
  · exact ⟨command, t, hcommand, hrun.symm⟩

/-- An activation that calls waits in that call. -/
theorem Chain.waits_of_call (hcode : linker.get? c.state.frame.code = some code)
    (hrun : (execute linker code c.callers).run c.state = .ok (.call target arguments) s) :
    s.frame.Waits linker := by
  have hkeeps := keeps_execute linker code c.callers c.state
  rw [Exec.final_of_ok hrun] at hkeeps
  obtain ⟨command, t, hcommand, hcall⟩ := exists_commandAt? hrun (by simp) (by simp)
  obtain ⟨callee, rfl⟩ := nested_of_call hcall
  refine ⟨code, callee, ?_, ?_⟩
  · rw [hkeeps.code]
    exact hcode
  · rw [hkeeps.lastPc]
    exact hcommand

/-- The activations that wait after a command are those that waited before, and the running one if
it has called. -/
theorem Chain.Continues.waiting {next : Chain} {flow : Flow} (h : c.Continues flow s next)
    {f : Frame} (hf : f ∈ next.callers.map (·.frame)) :
    f ∈ c.callers.map (·.frame) ∨
      f = s.frame ∧ ∃ target arguments, flow = .call target arguments := by
  have hframes : next.state.frame :: next.callers.map (·.frame) =
      flow.frames s (c.callers.map (·.frame)) := h.frames_eq
  have htail : next.callers.map (·.frame) = (flow.frames s (c.callers.map (·.frame))).tail :=
    congrArg List.tail hframes
  rw [htail] at hf
  unfold Flow.frames at hf
  split at hf
  · exact .inl hf
  · exact .inl hf
  · exact .inl hf
  · exact .inl (List.mem_of_mem_tail hf)
  · exact .inl (List.mem_of_mem_tail hf)
  · rcases List.mem_cons.1 hf with rfl | hf
    · exact .inr ⟨rfl, _, _, rfl⟩
    · exact .inl hf
  · exact .inl hf

/-- A step that goes on leaves all waiting activations in nested calls. -/
theorem Chain.Waits.step {next : Chain} (h : c.Waits linker)
    (hstep : c.step linker = .running next) : next.Waits linker := by
  intro f hf
  obtain ⟨code, hcode, ⟨frames, fault, l, hfaulting, -, hlanding⟩ | ⟨-, flow, s, hrun, hnext⟩⟩ :=
    step_forms hstep
  · exact h f ((hlanding.callers_suffix hfaulting).subset hf)
  · obtain hf | ⟨rfl, target, arguments, rfl⟩ := hnext.waiting hf
    · exact h f hf
    · exact waits_of_call hcode hrun

/-- Through everything that a call comes to, all waiting activations are in nested calls. -/
theorem Reaches.waits {host : Host} (h : Reaches linker target arguments host c) :
    c.Waits linker := by
  induction h with
  | start =>
    intro f hf
    cases hf
  | step _ hstep ih => exact ih.step hstep
  | resume _ hstep _ ih =>
    obtain ⟨code, wake, s, -, -, rfl, -⟩ := Chain.step_suspended hstep
    exact ih

end Waiting

/-! ## Uncaught faults -/

section Uncaught

variable {linker : Linker} {c : Chain} {code : LoadedModule} {frames : List Frame}

/-- The activations to which the fault of a step comes: those that wait, and before them the running
one at the command that has just run, unless a native has taken its place. -/
theorem Chain.frames_of_faulting
    (h : c.faulting? ((execute linker code c.callers).run c.state) = some frames) :
    (∃ f command, frames = f :: c.callers.map (·.frame) ∧ f.code = c.state.frame.code ∧
      f.lastPc = c.state.frame.pc ∧ code.commandAt? c.state.frame.pc = some command) ∨
    (frames = c.callers.map (·.frame) ∧ ∃ target arguments s,
      (execute linker code c.callers).run c.state = .ok (.tailCall target arguments) s) := by
  have hkeeps := keeps_execute linker code c.callers c.state
  obtain ⟨hframes, ⟨fault, s, hrun⟩ | ⟨target, arguments, s, hrun⟩⟩ | hnative :=
    faulting?_forms h
  · obtain ⟨command, -, hcommand, -⟩ := exists_commandAt? hrun (by simp) (by simp)
    exact .inl ⟨_, command, hframes, hkeeps.code, hkeeps.lastPc, hcommand⟩
  · obtain ⟨command, -, hcommand, -⟩ := exists_commandAt? hrun (by simp) (by simp)
    exact .inl ⟨_, command, hframes, hkeeps.code, hkeeps.lastPc, hcommand⟩
  · exact .inr hnative

/-- The activations to which a fault comes all have names. -/
theorem Chain.exists_places (hwaits : c.Waits linker)
    (hcode : linker.get? c.state.frame.code = some code)
    (hfaulting : c.faulting? ((execute linker code c.callers).run c.state) = some frames)
    (hlisted : ∀ f ∈ frames, f.Listed linker) :
    ∃ places, List.Forall₂ (Frame.Named linker) frames places := by
  have hcallers : ∀ f ∈ c.callers.map (·.frame), f.Listed linker →
      ∃ place, f.Named linker place := by
    intro f hf hlisted
    obtain ⟨code', callee, hcode', hcommand⟩ := hwaits f hf
    exact hlisted.exists_named hcode' hcommand
  have hnamed : ∀ f ∈ frames, ∃ place, f.Named linker place := by
    intro f hf
    obtain ⟨g, command, rfl, hg, hpc, hcommand⟩ | ⟨rfl, -⟩ := frames_of_faulting hfaulting
    · rcases List.mem_cons.1 hf with rfl | hwaiting
      · exact (hlisted f hf).exists_named (hg ▸ hcode) (hpc ▸ hcommand)
      · exact hcallers f hwaiting (hlisted f hf)
    · exact hcallers f hf (hlisted f hf)
  choose! name hname using hnamed
  exact ⟨frames.map name, List.forall₂_map_right_iff.2 (List.forall₂_same.2 hname)⟩

/-- A fault that finds activations with names and without handlers ends the chain with these names
in its trace. -/
theorem Chain.step_named (hcode : linker.get? c.state.frame.code = some code)
    (hfaulting : c.faulting? ((execute linker code c.callers).run c.state) = some frames)
    (hbare : ∀ f ∈ frames, f.handlers = []) {places : List Term}
    (hnamed : List.Forall₂ (Frame.Named linker) frames places) :
    ∃ fault host, thrown? ((execute linker code c.callers).run c.state) = some fault ∧
      c.step linker =
        .halted ⟨host, .faulted { fault with trace := fault.trace ++ places }⟩ := by
  obtain ⟨fault, hthrown, ⟨-, host, hhalted⟩ | ⟨l, next, -, hlanding⟩⟩ :=
    settle_faulting linker hfaulting
  · rw [leavingAll_named hnamed] at hhalted
    exact ⟨fault, host, hthrown, (step_eq_settle hcode).trans hhalted⟩
  · have hnone := hbare l.receiver (by rw [hlanding.frames_eq]; simp)
    rw [hlanding.handlers_eq] at hnone
    cases hnone

end Uncaught

/-- In everything that a call comes to, suspended and resumed any number of times, the activations
behind the running one wait in nested calls. If a fault comes to activations of such a chain that
were assembled from listings and have no handlers, then it ends the chain, and its trace is what it
was at first followed by the name of each activation, from the innermost outwards. The innermost one
is the running activation, where it ran the command that the fault follows from; only a native that
was called in its place leaves it out. -/
theorem uncaught_fault_names_activations (linker : Linker) :
    (∀ target arguments host c, Reaches linker target arguments host c → c.Waits linker) ∧
    ∀ (c : Chain) (code : LoadedModule) (frames : List Frame), c.Waits linker →
      linker.get? c.state.frame.code = some code →
      c.faulting? ((execute linker code c.callers).run c.state) = some frames →
      (∀ f ∈ frames, f.Listed linker ∧ f.handlers = []) →
      ((∃ f, frames = f :: c.callers.map (·.frame) ∧ f.code = c.state.frame.code ∧
          f.lastPc = c.state.frame.pc) ∨
        (frames = c.callers.map (·.frame) ∧ ∃ target arguments s,
          (execute linker code c.callers).run c.state = .ok (.tailCall target arguments) s)) ∧
      ∃ fault host places,
        Chain.thrown? ((execute linker code c.callers).run c.state) = some fault ∧
        c.step linker =
          .halted ⟨host, .faulted { fault with trace := fault.trace ++ places }⟩ ∧
        List.Forall₂ (Frame.Named linker) frames places := by
  refine ⟨fun _ _ _ _ hreaches => hreaches.waits, ?_⟩
  intro c code frames hwaits hcode hfaulting hall
  constructor
  · obtain ⟨f, -, hframes, hf, hpc, -⟩ | hnative := Chain.frames_of_faulting hfaulting
    · exact .inl ⟨f, hframes, hf, hpc⟩
    · exact .inr hnative
  · obtain ⟨places, hnamed⟩ :=
      Chain.exists_places hwaits hcode hfaulting fun f hf => (hall f hf).1
    obtain ⟨fault, host, hthrown, hstep⟩ :=
      Chain.step_named hcode hfaulting (fun f hf => (hall f hf).2) hnamed
    exact ⟨fault, host, places, hthrown, hstep, hnamed⟩

/-! ## A fault in a chain that was held up twice -/

/-- A module with a function that calls one of another module. -/
def callingListing : Listing where
  name := "m"
  exports := #[⟨"f", 1⟩]
  functions := #[
    ⟨⟨"f", 1⟩, 2, #[
      ⟨.label, [.int 1]⟩,
      ⟨.funcInfo, [.atom "m", .atom "f", .int 1]⟩,
      ⟨.label, [.int 2]⟩,
      ⟨.callExt, [.int 1, .external ⟨"n", "g", 1⟩]⟩,
      ⟨.ret, []⟩]⟩]

/-- A module whose second function calls its first, which matches nothing. -/
def calledListing : Listing where
  name := "n"
  exports := #[⟨"g", 1⟩]
  functions := #[
    ⟨⟨"h", 1⟩, 2, #[
      ⟨.label, [.int 1]⟩,
      ⟨.funcInfo, [.atom "n", .atom "h", .int 1]⟩,
      ⟨.label, [.int 2]⟩,
      ⟨.badmatch, [.x 0]⟩]⟩,
    ⟨⟨"g", 1⟩, 4, #[
      ⟨.label, [.int 3]⟩,
      ⟨.funcInfo, [.atom "n", .atom "g", .int 1]⟩,
      ⟨.label, [.int 4]⟩,
      ⟨.call, [.int 1, .label 2]⟩,
      ⟨.ret, []⟩]⟩]

/-- The module of the first listing. -/
def callingModule : Module where
  name := "m"
  code := #[5, 0, 1, 1, 192, 1, 59, 1, 0, 0]
  constants := #[.atom "m", .atom "f"]
  functions := ⟨⟨[(⟨"f", 1⟩, 4)]⟩, #[(0, ⟨"f", 1⟩)]⟩
  exports := [⟨⟨"f", 1⟩, 4⟩]
  imports := #[⟨⟨"n", "g", 1⟩, false⟩]

/-- The module of the second listing. -/
def calledModule : Module where
  name := "n"
  code := #[5, 0, 1, 1, 192, 1, 180, 0, 6, 5, 0, 2, 1, 192, 1, 56, 1, 4, 0]
  constants := #[.atom "n", .atom "h", .atom "g"]
  functions := ⟨⟨[(⟨"g", 1⟩, 13), (⟨"h", 1⟩, 4)]⟩, #[(0, ⟨"h", 1⟩), (9, ⟨"g", 1⟩)]⟩
  exports := [⟨⟨"g", 1⟩, 13⟩]

/-- A linker with both modules. -/
def callingLinker : Linker := (((({} : Linker).load callingModule).load calledModule).link 0).2

/-- A process that is preempted at every check, with these registers. -/
def hurriedHost (registers : Array Term) : Host where
  world := { interval := some 1 }
  process := { registers }

/-- The first function waits for the second. -/
def outerFrame : Frame := { code := ⟨"m", 0⟩, pc := 9, lastPc := 6, base := 0 }

/-- The second function waits for the third. -/
def middleFrame : Frame := { code := ⟨"n", 1⟩, pc := 18, lastPc := 15, base := 0 }

/-- The third function has raised its fault. -/
def innerFrame : Frame := { code := ⟨"n", 1⟩, pc := 9, lastPc := 8, base := 0 }

/-- The chain when the first function has to wait for its turn to call. -/
def heldUpOnce : Continuation where
  frame := { code := ⟨"m", 0⟩, pc := 6, lastPc := 6, base := 0 }
  registers := #[.integer 1]
  wake := .yield true
  callers := []

/-- The chain when the second function has to. -/
def heldUpTwice : Continuation where
  frame := { code := ⟨"n", 1⟩, pc := 15, lastPc := 15, base := 0 }
  registers := #[.integer 1]
  wake := .yield true
  callers := [⟨outerFrame, #[.integer 1]⟩]

/-- The chain when the third function is about to raise its fault. -/
def mismatchedChain : Chain where
  state :=
    { toHost := hurriedHost #[.integer 1]
      frame :=
        { code := ⟨"n", 1⟩, pc := 8, lastPc := 6, base := 0, fetched := (.integer 1, .nil) } }
  callers := [⟨middleFrame, #[.integer 1]⟩, ⟨outerFrame, #[.integer 1]⟩]
  recent := 1

/-- A call of the first function comes to that chain after it was held up twice. -/
theorem reaches_mismatchedChain :
    Reaches callingLinker (.code ⟨"m", 0⟩ 4 1 []) [.integer 1] (hurriedHost #[])
      mismatchedChain := by
  obtain ⟨c, hafter, hstep⟩ := Option.map_eq_some_iff.1 (show
    ((Chain.start ⟨"m", 0⟩ 4 [.integer 1] (hurriedHost #[])).after? callingLinker 1).map
      (·.step callingLinker) = some (.halted ⟨hurriedHost #[], .suspended heldUpOnce⟩) by
        decide +kernel)
  have honce : Reaches callingLinker (.code ⟨"m", 0⟩ 4 1 []) [.integer 1] (hurriedHost #[])
      (heldUpOnce.chain .proceed (hurriedHost #[])) :=
    .resume (Reaches.after (.start rfl) hafter) hstep rfl
  obtain ⟨c', hafter', hstep'⟩ := Option.map_eq_some_iff.1 (show
    ((heldUpOnce.chain .proceed (hurriedHost #[])).after? callingLinker 2).map
      (·.step callingLinker) = some (.halted ⟨hurriedHost #[], .suspended heldUpTwice⟩) by
        decide +kernel)
  have htwice : Reaches callingLinker (.code ⟨"m", 0⟩ 4 1 []) [.integer 1] (hurriedHost #[])
      (heldUpTwice.chain .proceed (hurriedHost #[])) :=
    .resume (honce.after hafter') hstep' rfl
  refine htwice.after (n := 3) ?_
  decide +kernel

/-- The three functions, the innermost first. -/
def mismatchTrace : List Term :=
  [.tuple [.atom "n", .atom "h", .integer 1], .tuple [.atom "n", .atom "g", .integer 1],
    .tuple [.atom "m", .atom "f", .integer 1]]

/-- The trace of the fault names the three functions, each by where its activation is. -/
theorem uncaught_fault_names_activations_resumed :
    Reaches callingLinker (.code ⟨"m", 0⟩ 4 1 []) [.integer 1] (hurriedHost #[]) mismatchedChain ∧
    ∃ host, mismatchedChain.step callingLinker =
        .halted ⟨host, .faulted { Fault.badmatch (.integer 1) with trace := mismatchTrace }⟩ ∧
      List.Forall₂ (Frame.Named callingLinker) [innerFrame, middleFrame, outerFrame]
        mismatchTrace := by
  have hcalling : callingListing.toModule = .ok callingModule :=
    eq_ok_of_toOption (by decide +kernel)
  have hcalled : calledListing.toModule = .ok calledModule := eq_ok_of_toOption (by decide +kernel)
  have hlinked : callingLinker.get? ⟨"n", 1⟩ = some (.ofModule calledModule) := by cbv
  have hlisted : ∀ f ∈ [innerFrame, middleFrame, outerFrame],
      f.Listed callingLinker ∧ f.handlers = [] := by
    intro f hf
    simp only [List.mem_cons, List.not_mem_nil, or_false] at hf
    rcases hf with rfl | rfl | rfl
    · exact ⟨⟨_, calledListing, hlinked, hcalled⟩, rfl⟩
    · exact ⟨⟨_, calledListing, hlinked, hcalled⟩, rfl⟩
    · exact ⟨⟨_, callingListing, rfl, hcalling⟩, rfl⟩
  obtain ⟨hreaches, hchain⟩ := uncaught_fault_names_activations callingLinker
  have hwaits := hreaches _ _ _ _ reaches_mismatchedChain
  obtain ⟨-, fault, host, places, hthrown, hstep, hnamed⟩ :=
    hchain mismatchedChain (.ofModule calledModule) [innerFrame, middleFrame, outerFrame] hwaits
      hlinked (by decide +kernel) hlisted
  have hraised : Chain.thrown? ((execute callingLinker (.ofModule calledModule)
      mismatchedChain.callers).run mismatchedChain.state) = some (.badmatch (.integer 1)) := by
    decide +kernel
  have hhalted : mismatchedChain.step callingLinker = .halted ⟨hurriedHost #[.integer 1],
      .faulted { Fault.badmatch (.integer 1) with trace := mismatchTrace }⟩ := by
    decide +kernel
  obtain rfl := Option.some.inj (hraised.symm.trans hthrown)
  have hsame := Progress.halted.inj (hhalted.symm.trans hstep)
  have hfault := Outcome.faulted.inj (congrArg Halt.outcome hsame)
  obtain rfl : mismatchTrace = places := congrArg Fault.trace hfault
  exact ⟨reaches_mismatchedChain, host, hstep, hnamed⟩

end ErlangMachine.Machine
