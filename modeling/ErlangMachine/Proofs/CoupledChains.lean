import Mathlib.Data.List.Forall2
import ErlangMachine.Proofs.Execution
import ErlangMachine.Proofs.Natives
import ErlangMachine.Proofs.Sessions

/-!
# Coupled chains

Couplings speak of commands. What follows from a command is a matter of the chain: a fault comes to
a handler or leaves one activation after the other, a call begins an activation, a result goes to
the caller. For a coupling that asks the same of terms wherever they stand (`Coupling.Uniform`) all
this keeps two chains together, and `settle_follows` says so: results that belong together are
followed by chains that do, or by ends of runs that do.

The two chains may be one and the same, and then the coupling is an invariant of its steps.
-/

namespace ErlangMachine.Machine.Coupling

/-! ## What belongs together -/

/-- A coupling that asks something of floats at most, and the same of them wherever they stand. -/
structure Uniform (C : Coupling) : Prop where
  /-- Terms that are no floats are allowed. -/
  leaf : ∀ t, (∀ x, t ≠ .float x) → C.leaf t
  /-- The floats that natives make are allowed. -/
  floats : Native.FloatLaws C.leaf
  /-- Good terms may go abroad. -/
  abroad : ∀ t, C.Good t → C.abroad t
  /-- Code may be entered anywhere. -/
  entry : ∀ module target, C.entry module target
  /-- Every handler is good. -/
  handler : ∀ handler, C.handler handler
  /-- Code may go on anywhere. -/
  offset : ∀ target, C.offset target
  /-- Every module may run. -/
  module : ∀ module, C.module module
  /-- Every error may come up. -/
  error : ∀ e, C.error e
  /-- A stack is good if its slots are. -/
  stack : ∀ base stack, C.stack base stack ↔ ∀ t ∈ stack, C.Good t
  /-- If the first of two chains is preempted, then so is the second. -/
  yields : ∀ stop, C.yields true stop → stop = true
  /-- A native gives the same result in worlds that belong together, and leaves such worlds. -/
  native : ∀ f arguments w w', C.native f → (∀ t ∈ arguments, C.Good t) → C.Worlds w w' →
    (f arguments w).1 = (f arguments w').1 ∧ C.GoodResult (f arguments w).1 ∧
      C.Worlds (f arguments w).2 (f arguments w').2
  /-- A check for preemption gives related answers and leaves worlds that belong together. -/
  checkYield : ∀ w w', C.Worlds w w' →
    C.yields w.checkYield.1 w'.checkYield.1 ∧ C.Worlds w.checkYield.2 w'.checkYield.2

variable (C : Coupling)

/-- Waiting activations that belong together. -/
structure Waits (caller caller' : Caller) : Prop where
  /-- They have the same frame, but for the mark that leaves out a check. -/
  calm : caller.frame.calm = caller'.frame.calm
  /-- They have the same registers. -/
  registers_eq : caller.registers = caller'.registers
  /-- The frame is good. -/
  frame : C.GoodFrame caller.frame
  /-- The registers hold good terms. -/
  registers : ∀ t ∈ caller.registers, C.Good t

/-- Chains that belong together. Where the running activation was last is left out, because a call
that was held up has noted it already. -/
structure Chains (c c' : Chain) : Prop where
  /-- The waiting activations belong together. -/
  callers : List.Forall₂ C.Waits c.callers c'.callers
  /-- The states of the running activations belong together. -/
  state : C.Related c.state.begin c'.state.begin

/-- Hosts whose worlds belong together, the first of them with a good process. -/
structure Hosts (host host' : Host) : Prop where
  /-- The worlds belong together. -/
  world : C.Worlds host.world host'.world
  /-- The process is good. -/
  process : C.GoodProcess host.process
  /-- Stack slots hold good terms. -/
  slots : ∀ t ∈ host.process.stack, C.Good t

/-- What an activation may wait for. -/
def GoodWake : Wake → Prop
  | .yield _ => C.yields true true
  | .receive _ timeout => ∀ after ∈ timeout, C.Good after.2

/-- Suspended chains that belong together. -/
structure Continuations (k k' : Continuation) : Prop where
  /-- The innermost activations belong together. -/
  innermost : C.Waits ⟨k.frame, k.registers⟩ ⟨k'.frame, k'.registers⟩
  /-- The other ones belong together. -/
  callers : List.Forall₂ C.Waits k.callers k'.callers
  /-- They wait for the same. -/
  wake : k.wake = k'.wake

/-- Ends of runs that belong together. -/
inductive Halts : Halt → Halt → Prop where
  /-- Both have the same result. -/
  | returned {host host' : Host} {value : Term} : host.process = host'.process →
    C.Hosts host host' → C.Good value → Halts ⟨host, .returned value⟩ ⟨host', .returned value⟩
  /-- Both have the same fault. -/
  | faulted {host host' : Host} {fault : Fault} : host.process = host'.process →
    C.Hosts host host' → C.GoodFault fault → Halts ⟨host, .faulted fault⟩ ⟨host', .faulted fault⟩
  /-- The machine gave up on both for the same cause. -/
  | broken {host host' : Host} (error : Error) : C.Hosts host host' →
    Halts ⟨host, .broken error⟩ ⟨host', .broken error⟩
  /-- Both wait for the same. -/
  | suspended {host host' : Host} {k k' : Continuation} : host.process = host'.process →
    C.Hosts host host' → C.Continuations k k' → C.GoodWake k.wake →
    Halts ⟨host, .suspended k⟩ ⟨host', .suspended k'⟩

/-- What steps of chains that belong together come to. -/
inductive Follows : Progress → Progress → Prop where
  /-- Both chains go on. -/
  | running {c c' : Chain} : C.Chains c c' → Follows (.running c) (.running c')
  /-- The second is preempted and will go on from the same point. -/
  | yielded {c : Chain} {host : Host} {k : Continuation} : k.reason = .yield →
    C.Chains c (k.chain .proceed host) → Follows (.running c) (.halted ⟨host, .suspended k⟩)
  /-- Both have come to an end. -/
  | halted {halt halt' : Halt} : C.Halts halt halt' → Follows (.halted halt) (.halted halt')

variable {C} {linker : Linker} {s s' : State} {callers callers' : List Caller} {c c' : Chain}
  {arguments : List Term} {recent recent' : Nat}

/-- The first of two lists of waiting activations holds good terms. -/
theorem good_of_waits (h : List.Forall₂ C.Waits callers callers') :
    ∀ caller ∈ callers, C.GoodFrame caller.frame ∧ ∀ t ∈ caller.registers, C.Good t := by
  induction h with
  | nil => exact fun _ hcaller => by cases hcaller
  | cons hcaller _ ih => exact List.forall_mem_cons.2 ⟨⟨hcaller.frame, hcaller.registers⟩, ih⟩

/-- Suspended chains that belong together wait for the same reason. -/
theorem Continuations.reason_eq {k k' : Continuation} (h : C.Continuations k k') :
    k.reason = k'.reason := by
  unfold Continuation.reason
  rw [h.wake]

/-- Noting where the activation is keeps states together. -/
theorem Related.begin (hs : C.Related s s') : C.Related s.begin s'.begin :=
  ⟨hs.process, congrArg (fun f : Frame => { f with lastPc := f.pc }) hs.frame, hs.world,
    hs.goodProcess, hs.stack, { hs.goodFrame with }⟩

/-- A fault leaves the same function on both sides. -/
theorem Related.leaving_eq (hs : C.Related s s') (fault : Fault) :
    s.leaving linker fault = s'.leaving linker fault := by
  have hlast : s.frame.lastPc = s'.frame.lastPc :=
    Frame.congr_of_calm hs.frame Frame.lastPc fun _ => rfl
  unfold State.leaving
  rw [hs.code_eq, hlast]

/-- The running activation waits on both sides alike. -/
theorem Related.waits (hs : C.Related s s') :
    C.Waits ⟨s.frame, s.process.registers⟩ ⟨s'.frame, s'.process.registers⟩ :=
  ⟨hs.frame, by rw [hs.process], hs.goodFrame, hs.goodProcess.registers⟩

/-- Chains whose states belong together go on. -/
theorem Related.follows (hs : C.Related s s') (hcallers : List.Forall₂ C.Waits callers callers') :
    C.Follows (.running ⟨s, callers, recent⟩) (.running ⟨s', callers', recent'⟩) :=
  .running ⟨hcallers, hs.begin⟩

/-- The machine gives up on both chains alike. -/
theorem abort_follows (error : Error) (hhosts : C.Hosts c.state.toHost c'.state.toHost)
    (hcallers : List.Forall₂ C.Waits c.callers c'.callers) :
    C.Follows (c.abort error) (c'.abort error) := by
  obtain ⟨registers, hregisters, habort⟩ := c.abort_eq error
  obtain ⟨registers', -, habort'⟩ := c'.abort_eq error
  rw [habort, habort']
  refine .halted (.broken error ⟨hhosts.world, ⟨?_, hhosts.process.floats,
    hhosts.process.lastFault⟩, hhosts.slots⟩)
  rcases hregisters with rfl | ⟨caller, hcaller, rfl⟩
  · exact hhosts.process.registers
  · exact (good_of_waits hcallers caller hcaller).2

namespace Uniform

variable {fault : Fault} (hC : C.Uniform)

include hC

/-- Plain terms are allowed. -/
theorem plain (t : Term) (h : t.IsPlain) : C.leaf t := by
  refine hC.leaf t ?_
  rintro x rfl
  exact h

/-- The coupling keeps its promises about code whose constants are good, if what it calls may be
called. -/
theorem laws {code : LoadedModule} (hconstants : ∀ t ∈ code.module.constants, C.Good t)
    (hbinding : ∀ i target, code.binding? i = some target → C.GoodCallable target)
    (hresolve : ∀ id target, linker.resolve? id = some target → C.GoodCallable target) :
    C.Laws linker code where
  plain := hC.plain
  closure := fun _ _ _ _ => iff_of_true (hC.leaf _ nofun) (hC.entry _ _)
  tag := fun _ _ _ h _ => hC.handler h
  finite := hC.floats.finite
  neg := hC.floats.neg
  ofInt := hC.floats.ofInt
  abroad := hC.abroad
  entry := fun _ _ _ _ => hC.entry _ _
  stackRead := fun _ _ _ t h _ ht => .inl ((hC.stack _ _).1 h t (List.mem_of_getElem? ht))
  stackWrite := by
    intro base stack n t hstack _ ht
    refine (hC.stack _ _).2 fun u hu => ?_
    rcases List.mem_or_eq_of_mem_set hu with hu | rfl
    · exact (hC.stack _ _).1 hstack u hu
    · -- What is stored is good itself, or the tag of a handler.
      rcases ht with ht | ⟨handler, outer, rfl, -⟩
      · exact ht
      · exact hC.leaf _ nofun
  stackAllocate := by
    intro base stack n hstack
    refine (hC.stack _ _).2 fun t ht => ?_
    rcases List.mem_append.1 ht with ht | ht
    · exact List.eq_of_mem_replicate ht ▸ hC.plain .nil trivial
    · exact (hC.stack _ _).1 hstack t ht
  stackRelease := fun _ _ _ h _ _ =>
    (hC.stack _ _).2 fun t ht => (hC.stack _ _).1 h t (List.mem_of_mem_drop ht)
  stackBase := fun _ _ _ _ => hC.error _
  handler := fun _ _ _ _ _ _ => hC.handler _
  ordinary := fun _ _ => hC.error _
  constant := fun i _ t ht => hconstants t (Array.mem_of_getElem? ht)
  noConstant := fun _ _ _ => hC.error _
  valueTable := fun _ _ _ _ _ _ _ => hC.offset _
  noValueTable := fun _ _ _ => hC.error _
  arityTable := fun _ _ _ _ _ _ _ => hC.offset _
  noArityTable := fun _ _ _ => hC.error _
  binding := hbinding
  resolve := hresolve
  native := hC.native
  checkYield := hC.checkYield

/-! ## States of activations -/

/-- An activation that begins on the same arguments. -/
theorem related_enter {host host' : Host} (hhosts : C.Hosts host host')
    (hprocess : host.process = host'.process) (harguments : ∀ t ∈ arguments, C.Good t)
    (module : ModuleRef) (entry : Nat) :
    C.Related
      ⟨{ host with process := { host.process with registers := arguments.toArray } },
        .enter module entry host.process.depth⟩
      ⟨{ host' with process := { host'.process with registers := arguments.toArray } },
        .enter module entry host'.process.depth⟩ where
  process := by rw [hprocess]
  frame := by rw [hprocess]
  world := hhosts.world
  goodProcess := ⟨fun t ht => harguments t (List.mem_toArray.1 ht), hhosts.process.floats,
    hhosts.process.lastFault⟩
  stack := (hC.stack _ _).2 hhosts.slots
  goodFrame := ⟨hC.module _, hC.offset _, fun _ _ => hC.handler _, (fun _ hd => by cases hd),
    hC.plain .nil trivial, hC.plain .nil trivial⟩

/-- The chains of a call in hosts that belong together. -/
theorem chains_start {host host' : Host} (hhosts : C.Hosts host host')
    (hprocess : host.process = host'.process) (harguments : ∀ t ∈ arguments, C.Good t)
    (module : ModuleRef) (entry : Nat) :
    C.Chains (.start module entry arguments host) (.start module entry arguments host') :=
  ⟨.nil, (hC.related_enter hhosts hprocess harguments module entry).begin⟩

/-- A suspended chain goes on with the same activations. -/
theorem chains_resume {host host' : Host} {k k' : Continuation} (hhosts : C.Hosts host host')
    (hprocess : host.process = host'.process) (hk : C.Continuations k k') (r : Resumption) :
    C.Chains (k.chain r host) (k'.chain r host') := by
  have hpc : ∀ pc, { k.frame with pc }.calm = { k'.frame with pc }.calm := fun pc =>
    congrArg (fun f : Frame => { f with pc }) hk.innermost.calm
  refine ⟨hk.callers, Related.begin ⟨?_, ?_, hhosts.world, ⟨hk.innermost.registers,
    hhosts.process.floats, hhosts.process.lastFault⟩, (hC.stack _ _).2 hhosts.slots, ?_⟩⟩
  · show { host.process with registers := k.registers } =
      { host'.process with registers := k'.registers }
    rw [hprocess, show k.registers = k'.registers from hk.innermost.registers_eq]
  · show (k.wakeUp r).calm = (k'.wakeUp r).calm
    unfold Continuation.wakeUp
    rw [← hk.wake]
    split
    · exact hk.innermost.calm
    · split <;> exact hpc _
  · show C.GoodFrame (k.wakeUp r)
    unfold Continuation.wakeUp
    split
    · exact { hk.innermost.frame with }
    · split <;> exact { hk.innermost.frame with pc := hC.offset _ }

/-- A caller goes on in states that belong together. -/
theorem related_resumeCaller (hs : C.Related s s') {caller caller' : Caller}
    (h : C.Waits caller caller') : C.Related (s.resumeCaller caller) (s'.resumeCaller caller') where
  process := by
    unfold State.resumeCaller
    rw [hs.process, h.registers_eq]
  frame := h.calm
  world := hs.world
  goodProcess := ⟨h.registers, hs.goodProcess.floats, hs.goodProcess.lastFault⟩
  stack := (hC.stack _ _).2 ((hC.stack _ _).1 hs.stack)
  goodFrame := h.frame

/-- An activation that ends with a fault leaves the same stack on both sides. -/
theorem related_unwind (hs : C.Related s s') : C.Related s.unwind s'.unwind where
  process := by
    unfold State.unwind
    rw [hs.process, hs.base_eq]
  frame := hs.frame
  world := hs.world
  goodProcess := hs.goodProcess.withStack _
  stack := (hC.stack _ _).2 fun t ht => (hC.stack _ _).1 hs.stack t (List.mem_of_mem_drop ht)
  goodFrame := hs.goodFrame

/-- A fault is handed over alike. -/
theorem related_handle (hs : C.Related s s') (hfault : C.GoodFault fault) (handler : Handler)
    (outer : List Handler) :
    C.Related (s.handle fault handler outer) (s'.handle fault handler outer) where
  process := by
    unfold State.handle
    rw [hs.process]
  frame := congrArg (fun f : Frame =>
    { f with tuple := none, bits := none, handlers := outer, pc := handler.label }) hs.frame
  world := hs.world
  goodProcess := hs.goodProcess.handle hC.plain hfault handler outer
  stack := by
    rw [hC.stack, stack_handle]
    exact fun t ht => (hC.stack _ _).1 hs.stack t (List.mem_of_mem_drop ht)
  -- What was under construction is given up, so there is no tuple.
  goodFrame := ⟨hC.module _, hC.offset _, fun _ _ => hC.handler _, (fun _ hd => by cases hd),
    hs.goodFrame.first, hs.goodFrame.second⟩

/-- A result goes to a register. -/
theorem related_setX (hs : C.Related s s') {t : Term} (ht : C.Good t) (n : Nat) :
    C.Related { s with process := s.process.setX n t }
      { s' with process := s'.process.setX n t } :=
  ⟨congrArg (Process.setX · n t) hs.process, hs.frame, hs.world,
    hs.goodProcess.setX (hC.plain .nil trivial) n ht, hs.stack, hs.goodFrame⟩

/-- A native function returns the same on both sides. -/
theorem related_native (hs : C.Related s s') {f : Native} (hf : C.native f)
    (harguments : ∀ t ∈ arguments, C.Good t) :
    (f arguments s.world).1 = (f arguments s'.world).1 ∧ C.GoodResult (f arguments s.world).1 ∧
      C.Related { s with world := (f arguments s.world).2 }
        { s' with world := (f arguments s'.world).2 } := by
  obtain ⟨heq, hresult, hworlds⟩ := hC.native f arguments _ _ hf harguments hs.world
  exact ⟨heq, hresult, hs.process, hs.frame, hworlds, hs.goodProcess, hs.stack, hs.goodFrame⟩

/-- A call of a native ends alike in hosts that belong together. -/
theorem native_halts {id : FunctionId} {f : Native} (hf : C.native f)
    (harguments : ∀ t ∈ arguments, C.Good t) {host host' : Host} (hhosts : C.Hosts host host')
    (hprocess : host.process = host'.process) {fuel fuel' : Nat} {halt halt' : Halt}
    (h : invoke linker fuel (.native id f) arguments host = some halt)
    (h' : invoke linker fuel' (.native id f) arguments host' = some halt') :
    C.Halts halt halt' := by
  obtain ⟨heq, hresult, hworlds⟩ := hC.native f arguments _ _ hf harguments hhosts.world
  have hafter : C.Hosts { host with world := (f arguments host.world).2 }
      { host' with world := (f arguments host'.world).2 } :=
    ⟨hworlds, hhosts.process, hhosts.slots⟩
  cases h
  cases h'
  rw [← heq]
  cases hcase : (f arguments host.world).1 with
  | ok value =>
    rw [hcase] at hresult
    exact .returned hprocess hafter hresult
  | error fault =>
    rw [hcase] at hresult
    exact .faulted hprocess hafter hresult

theorem hosts (hs : C.Related s s') : C.Hosts s.toHost s'.toHost :=
  ⟨hs.world, hs.goodProcess, (hC.stack _ _).1 hs.stack⟩

/-! ## What follows from a command -/

variable (hs : C.Related s s') (hcallers : List.Forall₂ C.Waits callers callers')

include hs hcallers

/-- A handler of the running activation receives a fault on both sides alike. -/
theorem raise_follows_of_handled (hfault : C.GoodFault fault) {handler : Handler}
    {outer : List Handler} (hcase : s.frame.handlers = handler :: outer) :
    C.Follows (Chain.raise linker fault s callers recent)
      (Chain.raise linker fault s' callers' recent') := by
  rw [Chain.raise_handled hcase, Chain.raise_handled (hs.handlers_eq ▸ hcase), ← hs.leaving_eq]
  have hleaving : C.GoodFault (s.leaving linker fault) := every_leaving hC.plain hfault s
  exact Related.follows (hC.related_handle hs hleaving handler outer) hcallers

/-- A fault finds its handler, or none, on both sides alike. -/
theorem raise_follows (hfault : C.GoodFault fault) :
    C.Follows (Chain.raise linker fault s callers recent)
      (Chain.raise linker fault s' callers' recent') := by
  -- Along the callers that the fault passes through.
  induction hcallers generalizing s s' fault recent recent' with
  | nil =>
    cases hcase : s.frame.handlers with
    | cons handler outer => exact hC.raise_follows_of_handled hs .nil hfault hcase
    | nil =>
      have hafter := hC.related_unwind hs
      rw [Chain.raise_nil hcase, Chain.raise_nil (hs.handlers_eq ▸ hcase), ← hs.leaving_eq]
      exact .halted (.faulted hafter.process (hC.hosts hafter) (every_leaving hC.plain hfault s))
  | cons hcaller hrest ih =>
    cases hcase : s.frame.handlers with
    | cons handler outer =>
      exact hC.raise_follows_of_handled hs (.cons hcaller hrest) hfault hcase
    | nil =>
      rw [Chain.raise_cons hcase, Chain.raise_cons (hs.handlers_eq ▸ hcase), ← hs.leaving_eq]
      exact ih (hC.related_resumeCaller (hC.related_unwind hs) hcaller)
        (every_leaving hC.plain hfault s)

/-- A result goes to the caller on both sides alike. -/
theorem leave_follows {value : Term} (hvalue : C.Good value) :
    C.Follows (Chain.leave value s callers recent) (Chain.leave value s' callers' recent') := by
  cases hcallers with
  | nil => exact .halted (.returned hs.process (hC.hosts hs) hvalue)
  | cons hcaller hrest =>
    exact Related.follows (hC.related_setX (hC.related_resumeCaller hs hcaller) hvalue 0) hrest

/-- A fault goes to the caller on both sides alike. -/
theorem raiseOutside_follows (hfault : C.GoodFault fault) :
    C.Follows (Chain.raiseOutside linker fault s callers recent)
      (Chain.raiseOutside linker fault s' callers' recent') := by
  cases hcallers with
  | nil => exact .halted (.faulted hs.process (hC.hosts hs) hfault)
  | cons hcaller hrest =>
    exact hC.raise_follows (hC.related_resumeCaller hs hcaller) hrest hfault

variable {target : Callable} (htarget : C.GoodCallable target)
  (harguments : ∀ t ∈ arguments, C.Good t)

include htarget harguments

/-- A call is made on both sides alike. -/
theorem call_follows : C.Follows (Chain.call linker target arguments ⟨s, callers, recent⟩)
    (Chain.call linker target arguments ⟨s', callers', recent'⟩) := by
  cases target with
  | native id f =>
    obtain ⟨heq, hresult, hafter⟩ := hC.related_native hs htarget harguments
    unfold Chain.call
    dsimp only
    rw [← heq]
    cases hcase : (f arguments s.world).1 with
    | ok value =>
      rw [hcase] at hresult
      exact Related.follows (hC.related_setX hafter hresult 0) hcallers
    | error fault =>
      rw [hcase] at hresult
      exact hC.raise_follows hafter hcallers hresult
  | code module entry arity captured =>
    refine Related.follows (hC.related_enter (hC.hosts hs) hs.process ?_ module entry)
      (.cons (hs.waits) hcallers)
    exact List.forall_mem_append.2 ⟨harguments, htarget.2⟩

/-- A call takes the place of the activation on both sides alike. -/
theorem tailCall_follows : C.Follows (Chain.tailCall linker target arguments ⟨s, callers, recent⟩)
    (Chain.tailCall linker target arguments ⟨s', callers', recent'⟩) := by
  cases target with
  | native id f =>
    obtain ⟨heq, hresult, hafter⟩ := hC.related_native hs htarget harguments
    unfold Chain.tailCall
    dsimp only
    rw [← heq]
    cases hcase : (f arguments s.world).1 with
    | ok value =>
      rw [hcase] at hresult
      exact hC.leave_follows hafter hcallers hresult
    | error fault =>
      rw [hcase] at hresult
      exact hC.raiseOutside_follows hafter hcallers hresult
  | code module entry arity captured =>
    refine Related.follows (hC.related_enter (hC.hosts hs) hs.process ?_ module entry) hcallers
    exact List.forall_mem_append.2 ⟨harguments, htarget.2⟩

omit htarget harguments in
/-- Both chains are suspended. -/
theorem suspend_follows {wake : Wake} (hwake : C.GoodWake wake) :
    C.Follows (Chain.suspend wake ⟨s, callers, recent⟩)
      (Chain.suspend wake ⟨s', callers', recent'⟩) := by
  refine .halted (.suspended ?_ ⟨hs.world, ⟨(fun _ ht => by simp at ht), hs.goodProcess.floats,
    hs.goodProcess.lastFault⟩, (hC.stack _ _).1 hs.stack⟩ ⟨hs.waits, hcallers, rfl⟩ hwake)
  exact congrArg (fun p : Process => { p with registers := #[] }) hs.process

omit hs hcallers htarget harguments in
/-- What follows from a command is the same on both sides. Only after a message was sent may the
second chain be preempted where the first is not. -/
theorem settle_follows {r r' : EStateM.Result Stop State Flow} (hresults : C.Results C.Flows r r')
    (hcallers : List.Forall₂ C.Waits c.callers c'.callers) :
    C.Follows (c.settle linker r) (c'.settle linker r') := by
  cases r with
  | error stop s =>
    cases r' with
    | ok flow' s' => exact hresults.elim
    | error stop' s' =>
      obtain ⟨rfl, hstop, hs⟩ := hresults
      cases stop with
      | fault fault => exact hC.raise_follows hs hcallers hstop
      | broken error => exact abort_follows error (hC.hosts hs) hcallers
  | ok flow s =>
    cases r' with
    | error stop' s' => exact hresults.elim
    | ok flow' s' =>
      obtain ⟨hflows, hs⟩ := hresults
      cases hflows with
      | next => exact hs.follows hcallers
      | leave hvalue _ => exact hC.leave_follows hs hcallers hvalue
      | call htarget harguments => exact hC.call_follows hs hcallers htarget harguments
      | tailCall htarget harguments _ => exact hC.tailCall_follows hs hcallers htarget harguments
      | receive _ htimeout =>
        exact hC.suspend_follows hs hcallers fun after hafter => (htimeout after hafter).2
      | @yield _ stop stop' hstop =>
        cases stop with
        | true =>
          obtain rfl := hC.yields stop' hstop
          exact hC.suspend_follows hs hcallers hstop
        | false =>
          -- The first chain goes on, and the second may have to wait for its turn.
          cases stop' with
          | false => exact hs.follows hcallers
          | true =>
            refine .yielded rfl ⟨hcallers, Related.begin ?_⟩
            exact ⟨hs.process, hs.frame, hs.world, hs.goodProcess, hs.stack, hs.goodFrame⟩

end Uniform

end ErlangMachine.Machine.Coupling
