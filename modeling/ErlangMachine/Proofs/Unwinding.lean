import ErlangMachine.Proofs.Anchoring
import ErlangMachine.Proofs.Constancy

/-!
# Where a fault comes down

A fault comes to the activations of a chain one after the other, from the innermost outwards. Each
one without a handler is left, and the first one that has a handler receives the fault
(`receiver?`). `Landing` records what happens on the way, and `raise_forms` says that a fault either
lands like that or ends the whole chain.

`settle_faulting` and `settle_quiet` say what becomes of the result of a command. `step_forms` puts
them together for a step that goes on: a fault lands, or the activations change in the way that the
flow of the command says, and the fault that a handler received last stays the same.
-/

namespace ErlangMachine.Machine

/-- A fault with the function of an activation added to those that it has left. -/
def Frame.leaving (linker : Linker) (f : Frame) (fault : Fault) : Fault :=
  ((linker.get? f.code).bind fun code => location? code f.lastPc).elim fault fault.leave

/-- A fault that has left activations one after the other. -/
def leavingAll (linker : Linker) (fault : Fault) (frames : List Frame) : Fault :=
  frames.foldl (fun fault f => f.leaving linker fault) fault

/-- The activation that receives a fault, and its handler. The fault comes to these activations one
after the other until one has a handler. -/
def receiver? (frames : List Frame) : Option (Frame × Handler) :=
  frames.findSome? fun f => f.handlers.head?.map (f, ·)

/-- What a handler receives of a fault that comes to activations one after the other. -/
def receivedFault? (linker : Linker) : Fault → List Frame → Option Fault
  | _, [] => none
  | fault, f :: frames =>
    if f.handlers.isEmpty then receivedFault? linker (f.leaving linker fault) frames
    else some (f.leaving linker fault)

/-- How a fault comes down. -/
structure Landing where
  /-- The activations that it leaves, innermost first. -/
  passed : List Frame
  /-- The activation that receives it. -/
  receiver : Frame
  /-- The handler that receives it. -/
  handler : Handler
  /-- The other handlers of that activation. -/
  outer : List Handler
  /-- The activations that go on waiting. -/
  rest : List Frame
  /-- The fault as it is received. -/
  fault : Fault

/-- The activations of a chain, innermost first. -/
def Chain.frames (c : Chain) : List Frame := c.state.frame :: c.callers.map (·.frame)

/-- A fault comes to some activations while the stack holds some slots, it comes down in this way,
and the chain is as the handler finds it. -/
structure Landing.Of (l : Landing) (linker : Linker) (fault : Fault) (frames : List Frame)
    (stack : List Term) (next : Chain) : Prop where
  /-- The activations. -/
  frames_eq : frames = l.passed ++ l.receiver :: l.rest
  /-- Those that are left have no handlers. -/
  bare : ∀ f ∈ l.passed, f.handlers = []
  /-- The receiver has one. -/
  handlers_eq : l.receiver.handlers = l.handler :: l.outer
  /-- What the handler receives. -/
  received : receivedFault? linker fault frames = some l.fault
  /-- The receiver goes on at the handler, with nothing under construction. -/
  frame_eq : next.state.frame =
    { l.receiver with tuple := none, bits := none, handlers := l.outer, pc := l.handler.label }
  /-- The others go on waiting. -/
  callers_eq : next.callers.map (·.frame) = l.rest
  /-- No slot has changed that is still there. -/
  stack_suffix : next.state.process.stack <:+ stack
  /-- The stack is cut back to the depth of the handler. -/
  depth_le : next.state.process.depth ≤ l.handler.depth
  /-- It is cut back no further than that, or than the base of an activation that is left. -/
  le_depth : ∀ depth, depth ≤ stack.length → (∀ f ∈ l.passed, depth ≤ f.base) →
    depth ≤ l.handler.depth → depth ≤ next.state.process.depth
  /-- The process remembers what the handler received. -/
  lastFault_eq : next.state.process.lastFault = some l.fault
  /-- A handler with clauses finds the class, the reason and the trace in the registers. -/
  delivered : l.handler.kind = .tryClauses →
    next.state.process.x 0 = .atom l.fault.kind.atom ∧ next.state.process.x 1 = l.fault.reason ∧
      next.state.process.x 2 = .list l.fault.trace

/-- A fault that finds no handler has no receiver. -/
theorem receiver?_eq_none {frames : List Frame} (h : ∀ f ∈ frames, f.handlers = []) :
    receiver? frames = none := by
  refine List.findSome?_eq_none_iff.2 fun f hf => ?_
  rw [h f hf]
  rfl

/-- The handler that receives a fault is the one in which it lands. -/
theorem Landing.Of.receiver?_eq {l : Landing} {linker : Linker} {fault : Fault}
    {frames : List Frame} {stack : List Term} {next : Chain}
    (h : l.Of linker fault frames stack next) :
    receiver? frames = some (l.receiver, l.handler) := by
  have hpassed := receiver?_eq_none h.bare
  unfold receiver? at hpassed ⊢
  rw [h.frames_eq, List.findSome?_append, hpassed, List.findSome?_cons, h.handlers_eq]
  rfl

/-! ## Handing over -/

/-- The slots that a process has left when its stack is cut back. -/
theorem depth_truncate (p : Process) (depth : Nat) :
    (p.truncate depth).depth = min p.depth depth := by
  simp only [Process.truncate, Process.release, Process.depth, List.length_drop]
  omega

/-- A register is no slot. -/
theorem depth_setX (p : Process) (n : Nat) (t : Term) : (p.setX n t).depth = p.depth := rfl

/-- A handler cuts the stack back to its depth. -/
theorem depth_handle (s : State) (fault : Fault) (handler : Handler) (outer : List Handler) :
    (s.handle fault handler outer).process.depth = min s.process.depth handler.depth := by
  have hlast : ∀ q : Process, { q with lastFault := some fault }.depth = q.depth := fun _ => rfl
  unfold State.handle
  rw [hlast, ← depth_truncate]
  cases handler.kind with
  | catchValue => rw [depth_setX]
  | tryClauses => rw [depth_setX, depth_setX, depth_setX]

section Handing

variable (s : State) (fault : Fault) (handler : Handler) (outer : List Handler)

/-- The process remembers the fault. -/
theorem lastFault_handle :
    (s.handle fault handler outer).process.lastFault = some fault := by
  cases handler.kind with
  | catchValue => rfl
  | tryClauses => rfl

/-- What a handler with clauses finds in the registers. -/
theorem registers_handle (h : handler.kind = .tryClauses) :
    (s.handle fault handler outer).process.x 0 = .atom fault.kind.atom ∧
      (s.handle fault handler outer).process.x 1 = fault.reason ∧
      (s.handle fault handler outer).process.x 2 = .list fault.trace := by
  -- The other fields of the process do not matter for the registers.
  have hx : ∀ (p : Process) (last : Option Fault) (n : Nat),
      { p with lastFault := last }.x n = p.x n := fun _ _ _ => rfl
  unfold State.handle
  simp only [h, hx]
  refine ⟨?_, ?_, x_setX _ _ _⟩
  · rw [x_setX_of_ne _ (by decide), x_setX_of_ne _ (by decide), x_setX]
  · rw [x_setX_of_ne _ (by decide), x_setX]

/-- A stack that is cut back keeps its lower slots. -/
theorem suffix_truncate (p : Process) (depth : Nat) : (p.truncate depth).stack <:+ p.stack :=
  List.drop_suffix _ _

end Handing

/-! ## Coming down -/

section Raising

variable {linker : Linker}

/-- A fault that the running activation receives. -/
theorem landing_handled {s : State} {fault : Fault} {callers : List Caller} {recent : Nat}
    {handler : Handler} {outer : List Handler} (h : s.frame.handlers = handler :: outer) :
    ∃ l next, Chain.raise linker fault s callers recent = .running next ∧
      Landing.Of l linker fault (s.frame :: callers.map (·.frame)) s.process.stack next := by
  refine ⟨⟨[], s.frame, handler, outer, callers.map (·.frame), s.leaving linker fault⟩, _,
    Chain.raise_handled h, ?_⟩
  have hdepth := depth_handle s (s.leaving linker fault) handler outer
  refine ⟨rfl, by simp, h, ?_, rfl, rfl, ?_, ?_, ?_, lastFault_handle _ _ _ _,
    registers_handle _ _ _ _⟩
  · simp only [receivedFault?, h, List.isEmpty_cons]
    rfl
  · rw [stack_handle]
    exact suffix_truncate _ _
  · rw [hdepth]
    exact Nat.min_le_right _ _
  · intro depth hstack _ hhandler
    rw [hdepth]
    exact Nat.le_min.2 ⟨hstack, hhandler⟩

/-- A fault that comes down further out than an activation that it leaves. -/
theorem Landing.Of.past {s : State} {fault : Fault} {frames : List Frame} {l : Landing}
    {next : Chain} (hbare : s.frame.handlers = [])
    (h : l.Of linker (s.leaving linker fault) frames s.unwind.process.stack next) :
    Landing.Of { l with passed := s.frame :: l.passed } linker fault (s.frame :: frames)
      s.process.stack next where
  frames_eq := by rw [h.frames_eq]; rfl
  bare := by
    intro f hf
    rcases List.mem_cons.1 hf with rfl | hf
    · exact hbare
    · exact h.bare f hf
  handlers_eq := h.handlers_eq
  received := by
    rw [← h.received]
    simp only [receivedFault?, hbare, List.isEmpty_nil]
    rfl
  frame_eq := h.frame_eq
  callers_eq := h.callers_eq
  stack_suffix := h.stack_suffix.trans (suffix_truncate _ _)
  depth_le := h.depth_le
  le_depth := by
    intro depth hstack hpassed hhandler
    -- Leaving the activation cuts the stack back to where it began, and no further.
    have hbase : depth ≤ s.frame.base := hpassed s.frame List.mem_cons_self
    have hcut : s.unwind.process.depth = min s.process.depth s.frame.base := depth_truncate _ _
    refine h.le_depth depth ?_ (fun f hf => hpassed f (List.mem_cons_of_mem _ hf)) hhandler
    show depth ≤ s.unwind.process.depth
    rw [hcut]
    exact Nat.le_min.2 ⟨hstack, hbase⟩
  lastFault_eq := h.lastFault_eq
  delivered := h.delivered

/-- A fault lands in the innermost activation that has a handler; if there is none, then the chain
ends with it. -/
theorem raise_forms (fault : Fault) (s : State) (callers : List Caller) (recent : Nat) :
    ((∀ f ∈ s.frame :: callers.map (·.frame), f.handlers = []) ∧
      ∃ host, Chain.raise linker fault s callers recent =
        .halted ⟨host, .faulted (leavingAll linker fault (s.frame :: callers.map (·.frame)))⟩) ∨
    ∃ l next, Chain.raise linker fault s callers recent = .running next ∧
      Landing.Of l linker fault (s.frame :: callers.map (·.frame)) s.process.stack next := by
  -- Along the callers that the fault passes through.
  induction callers generalizing s fault recent with
  | nil =>
    cases hcase : s.frame.handlers with
    | cons handler outer => exact .inr (landing_handled hcase)
    | nil => exact .inl ⟨by simpa using hcase, _, Chain.raise_nil hcase⟩
  | cons caller callers ih =>
    cases hcase : s.frame.handlers with
    | cons handler outer => exact .inr (landing_handled hcase)
    | nil =>
      rw [Chain.raise_cons hcase]
      obtain ⟨hbare, hhalt⟩ | ⟨l, next, hrun, hlanding⟩ :=
        ih (s.leaving linker fault) (s.unwind.resumeCaller caller) (recent - 1)
      · refine .inl ⟨fun f hf => ?_, hhalt⟩
        rcases List.mem_cons.1 hf with rfl | hf
        · exact hcase
        · exact hbare f hf
      · exact .inr ⟨_, next, hrun, hlanding.past hcase⟩

theorem raiseOutside_forms (fault : Fault) (s : State) (callers : List Caller) (recent : Nat) :
    ((∀ f ∈ callers.map (·.frame), f.handlers = []) ∧
      ∃ host, Chain.raiseOutside linker fault s callers recent =
        .halted ⟨host, .faulted (leavingAll linker fault (callers.map (·.frame)))⟩) ∨
    ∃ l next, Chain.raiseOutside linker fault s callers recent = .running next ∧
      Landing.Of l linker fault (callers.map (·.frame)) s.process.stack next := by
  cases callers with
  | nil => exact .inl ⟨by simp, _, rfl⟩
  | cons caller callers => exact raise_forms fault (s.resumeCaller caller) callers (recent - 1)

end Raising

/-! ## Steps of a chain -/

/-- The fault that a native has come to. -/
def faultOf? : Except Fault Term → Option Fault
  | .ok _ => none
  | .error fault => some fault

/-- The activations after a command that no fault follows. -/
def Flow.frames (flow : Flow) (s : State) (waiting : List Frame) : List Frame :=
  match flow with
  | .next | .suspend _ | .call (.native ..) _ => s.frame :: waiting
  | .leave _ | .tailCall (.native ..) _ => waiting
  | .call (.code module entry ..) _ =>
    .enter module entry s.process.depth :: s.frame :: waiting
  | .tailCall (.code module entry ..) _ => .enter module entry s.process.depth :: waiting

namespace Chain

variable {c : Chain} {r : EStateM.Result Stop State Flow}

/-- The activations to which a fault comes that follows from the result of a command, if there is
one. A native that is called in place of the activation leaves it out. -/
def faulting? (c : Chain) : EStateM.Result Stop State Flow → Option (List Frame)
  | .error (.fault _) s => some (s.frame :: c.callers.map (·.frame))
  | .ok (.call (.native _ f) arguments) s =>
    if (f arguments s.world).1.isOk then none else some (s.frame :: c.callers.map (·.frame))
  | .ok (.tailCall (.native _ f) arguments) s =>
    if (f arguments s.world).1.isOk then none else some (c.callers.map (·.frame))
  | _ => none

/-- The activation that receives a fault in the next step, and its handler. -/
def catcher? (linker : Linker) (c : Chain) : Option (Frame × Handler) :=
  (linker.get? c.state.frame.code).bind fun code =>
    (c.faulting? ((execute linker code c.callers).run c.state)).bind receiver?

/-- The fault that follows from the result of a command. -/
def thrown? : EStateM.Result Stop State Flow → Option Fault
  | .error (.fault fault) _ => some fault
  | .ok (.call (.native _ f) arguments) s => faultOf? (f arguments s.world).1
  | .ok (.tailCall (.native _ f) arguments) s => faultOf? (f arguments s.world).1
  | _ => none

/-- What a handler receives in the next step, if there is a fault and a handler for it. -/
def received? (linker : Linker) (c : Chain) : Option Fault :=
  (linker.get? c.state.frame.code).bind fun code =>
    let r := (execute linker code c.callers).run c.state
    (c.faulting? r).bind fun frames => (thrown? r).bind fun fault =>
      receivedFault? linker fault frames

/-- What a handler receives depends on the result of the command that runs. -/
theorem received?_eq {linker : Linker} {code : LoadedModule}
    (h : linker.get? c.state.frame.code = some code) :
    c.received? linker = (c.faulting? ((execute linker code c.callers).run c.state)).bind
      fun frames => (thrown? ((execute linker code c.callers).run c.state)).bind fun fault =>
        receivedFault? linker fault frames := by
  unfold received?
  rw [h]
  rfl

/-- A fault that follows from the result of a command comes to all activations, or to all but the
running one if that has made way for a native. -/
theorem faulting?_forms {frames : List Frame} (h : c.faulting? r = some frames) :
    (frames = (stateOf r).frame :: c.callers.map (·.frame) ∧
      ((∃ fault s, r = .error (.fault fault) s) ∨
        ∃ target arguments s, r = .ok (.call target arguments) s)) ∨
    (frames = c.callers.map (·.frame) ∧
      ∃ target arguments s, r = .ok (.tailCall target arguments) s) := by
  unfold faulting? at h
  split at h
  · cases h
    exact .inl ⟨rfl, .inl ⟨_, _, rfl⟩⟩
  · split at h
    · cases h
    · cases h
      exact .inl ⟨rfl, .inr ⟨_, _, _, rfl⟩⟩
  · split at h
    · cases h
    · cases h
      exact .inr ⟨rfl, _, _, _, rfl⟩
  · cases h

/-- A fault that follows from the result of a command comes to the running activation first, or to
the one that waits for it if a native has taken its place. -/
theorem settle_raises (linker : Linker) {frames : List Frame} (h : c.faulting? r = some frames) :
    ∃ fault s, thrown? r = some fault ∧ s.frame = (stateOf r).frame ∧
      s.process = (stateOf r).process ∧
      ((frames = s.frame :: c.callers.map (·.frame) ∧
        c.settle linker r = raise linker fault s c.callers c.recent) ∨
      (frames = c.callers.map (·.frame) ∧
        c.settle linker r = raiseOutside linker fault s c.callers c.recent)) := by
  cases r with
  | error stop s =>
    cases stop with
    | fault fault =>
      cases h
      exact ⟨fault, s, rfl, rfl, rfl, .inl ⟨rfl, rfl⟩⟩
    | broken error => cases h
  | ok flow s =>
    unfold faulting? at h
    cases flow with
    | call target arguments =>
      cases target with
      | native id f =>
        unfold thrown? settle call
        dsimp only at h ⊢
        cases hresult : (f arguments s.world).1 with
        | ok value =>
          rw [hresult] at h
          cases h
        | error fault =>
          rw [hresult] at h
          cases h
          -- A native that is called raises in the activation that called it.
          exact ⟨fault, { s with world := (f arguments s.world).2 }, rfl, rfl, rfl,
            .inl ⟨rfl, rfl⟩⟩
      | code => cases h
    | tailCall target arguments =>
      cases target with
      | native id f =>
        unfold thrown? settle tailCall
        dsimp only at h ⊢
        cases hresult : (f arguments s.world).1 with
        | ok value =>
          rw [hresult] at h
          cases h
        | error fault =>
          rw [hresult] at h
          cases h
          -- One that is called last has taken the place of that activation.
          exact ⟨fault, { s with world := (f arguments s.world).2 }, rfl, rfl, rfl,
            .inr ⟨rfl, rfl⟩⟩
      | code => cases h
    | _ => cases h

/-- What becomes of a chain when a fault follows from the result of a command: it lands, or it ends
the chain. -/
theorem settle_faulting (linker : Linker) {frames : List Frame} (h : c.faulting? r = some frames) :
    ∃ fault, thrown? r = some fault ∧
      (((∀ f ∈ frames, f.handlers = []) ∧
        ∃ host, c.settle linker r = .halted ⟨host, .faulted (leavingAll linker fault frames)⟩) ∨
      ∃ l next, c.settle linker r = .running next ∧
        Landing.Of l linker fault frames (stateOf r).process.stack next) := by
  obtain ⟨fault, s, hthrown, -, hprocess, ⟨rfl, hsettle⟩ | ⟨rfl, hsettle⟩⟩ :=
    settle_raises linker h
  · rw [hsettle, ← hprocess]
    exact ⟨fault, hthrown, raise_forms fault s c.callers c.recent⟩
  · rw [hsettle, ← hprocess]
    exact ⟨fault, hthrown, raiseOutside_forms fault s c.callers c.recent⟩

/-- A chain that goes on after a command that no fault follows. -/
structure Continues (c : Chain) (flow : Flow) (s : State) (next : Chain) : Prop where
  /-- The activations. -/
  frames_eq : next.frames = flow.frames s (c.callers.map (·.frame))
  /-- The stack is as the command left it. -/
  stack_eq : next.state.process.stack = s.process.stack
  /-- The last fault is as the command left it. -/
  lastFault_eq : next.state.process.lastFault = s.process.lastFault

/-- An activation ends with a result, and the chain goes on with its caller if there is one. -/
theorem leave_forms (c : Chain) (value : Term) (s : State) :
    (∃ next, leave value s c.callers c.recent = .running next ∧
      c.Continues (.leave value) s next) ∨
    ∃ host, leave value s c.callers c.recent = .halted ⟨host, .returned value⟩ := by
  cases hcallers : c.callers with
  | nil => exact .inr ⟨_, rfl⟩
  | cons caller callers =>
    refine .inl ⟨_, rfl, ?_, rfl, rfl⟩
    show _ = c.callers.map (·.frame)
    rw [hcallers]
    rfl

/-- What becomes of a chain when no fault follows from the result of a command: it goes on, it is
suspended, it returns or the machine gives up. -/
theorem settle_quiet (linker : Linker) (h : c.faulting? r = none) :
    (∃ flow s next, r = .ok flow s ∧ c.settle linker r = .running next ∧
      c.Continues flow s next) ∨
    (∃ wake s, r = .ok (.suspend wake) s ∧
      c.settle linker r = { c with state := s }.suspend wake) ∨
    (∃ host value, c.settle linker r = .halted ⟨host, .returned value⟩) ∨
    ∃ error s host, r = .error (.broken error) s ∧
      c.settle linker r = .halted ⟨host, .broken error⟩ := by
  cases r with
  | error stop s =>
    cases stop with
    | fault fault => cases h
    | broken error =>
      obtain ⟨registers, -, habort⟩ := abort_eq error { c with state := s }
      exact .inr (.inr (.inr ⟨error, s, _, rfl, habort⟩))
  | ok flow s =>
    cases flow with
    | next => exact .inl ⟨_, _, _, rfl, rfl, rfl, rfl, rfl⟩
    | suspend wake => exact .inr (.inl ⟨wake, s, rfl, rfl⟩)
    | leave value =>
      obtain ⟨next, hleave, hnext⟩ | ⟨host, hleave⟩ := c.leave_forms value s
      · exact .inl ⟨_, _, next, rfl, hleave, hnext⟩
      · exact .inr (.inr (.inl ⟨host, value, hleave⟩))
    | call target arguments =>
      cases target with
      | native id f =>
        unfold faulting? at h
        unfold settle call
        dsimp only at h ⊢
        cases hresult : (f arguments s.world).1 with
        | ok value => exact .inl ⟨_, _, _, rfl, rfl, rfl, rfl, rfl⟩
        | error fault =>
          rw [hresult] at h
          cases h
      | code module entry arity captured => exact .inl ⟨_, _, _, rfl, rfl, rfl, rfl, rfl⟩
    | tailCall target arguments =>
      cases target with
      | native id f =>
        unfold faulting? at h
        unfold settle tailCall
        dsimp only at h ⊢
        cases hresult : (f arguments s.world).1 with
        | ok value =>
          obtain ⟨next, hleave, hnext⟩ | ⟨host, hleave⟩ :=
            c.leave_forms value { s with world := (f arguments s.world).2 }
          · exact .inl ⟨_, s, next, rfl, hleave, hnext.frames_eq, hnext.stack_eq,
              hnext.lastFault_eq⟩
          · exact .inr (.inr (.inl ⟨host, value, hleave⟩))
        | error fault =>
          rw [hresult] at h
          cases h
      | code module entry arity captured => exact .inl ⟨_, _, _, rfl, rfl, rfl, rfl, rfl⟩

section Steps

variable {linker : Linker} {c next : Chain}

/-- Code that is not there cannot be run. -/
theorem step_missing (h : linker.get? c.state.frame.code = none) :
    ∃ host place, c.step linker = .halted ⟨host, .broken (.missingEntry "module" place)⟩ := by
  obtain ⟨registers, -, habort⟩ := c.abort_eq (.missingEntry "module" c.state.frame.code.place)
  exact ⟨_, _, (step_eq_abort h).trans habort⟩

/-- What a step that goes on does: a fault lands, or no fault follows from the command. -/
theorem step_forms (h : c.step linker = .running next) :
    ∃ code, linker.get? c.state.frame.code = some code ∧
      ((∃ frames fault l, c.faulting? ((execute linker code c.callers).run c.state) = some frames ∧
        thrown? ((execute linker code c.callers).run c.state) = some fault ∧
        Landing.Of l linker fault frames
          ((execute linker code c.callers).final c.state).process.stack next) ∨
      (c.faulting? ((execute linker code c.callers).run c.state) = none ∧
        ∃ flow s, (execute linker code c.callers).run c.state = .ok flow s ∧
          c.Continues flow s next)) := by
  cases hcode : linker.get? c.state.frame.code with
  | none =>
    obtain ⟨_, _, hhalted⟩ := step_missing hcode
    cases h.symm.trans hhalted
  | some code =>
    refine ⟨code, rfl, ?_⟩
    rw [step_eq_settle hcode] at h
    cases hfault : c.faulting? ((execute linker code c.callers).run c.state) with
    | some frames =>
      obtain ⟨fault, hthrown, ⟨-, host, hhalted⟩ | ⟨l, next', hrunning, hlanding⟩⟩ :=
        settle_faulting linker hfault
      · cases h.symm.trans hhalted
      · cases h.symm.trans hrunning
        exact .inl ⟨frames, fault, l, rfl, hthrown, hlanding⟩
    | none =>
      obtain ⟨flow, s, next', hrun, hrunning, hnext⟩ | ⟨_, _, -, hhalted⟩ | ⟨_, _, hhalted⟩ |
        ⟨_, _, _, -, hhalted⟩ := settle_quiet linker hfault
      · cases h.symm.trans hrunning
        exact .inr ⟨rfl, flow, s, hrun, hnext⟩
      all_goals cases h.symm.trans hhalted

/-- A chain is suspended by a command that says so, and its stack stays with the process. -/
theorem step_suspended {host : Host} {k : Continuation}
    (h : c.step linker = .halted ⟨host, .suspended k⟩) :
    ∃ code wake s, linker.get? c.state.frame.code = some code ∧
      (execute linker code c.callers).run c.state = .ok (.suspend wake) s ∧
      k = ⟨s.frame, s.process.registers, wake, c.callers⟩ ∧
      host.process = { s.process with registers := #[] } := by
  cases hcode : linker.get? c.state.frame.code with
  | none =>
    obtain ⟨_, _, hhalted⟩ := step_missing hcode
    cases h.symm.trans hhalted
  | some code =>
    rw [step_eq_settle hcode] at h
    cases hfault : c.faulting? ((execute linker code c.callers).run c.state) with
    | some frames =>
      obtain ⟨fault, -, ⟨-, host', hhalted⟩ | ⟨l, next, hrunning, -⟩⟩ :=
        settle_faulting linker hfault
      · cases h.symm.trans hhalted
      · cases h.symm.trans hrunning
    | none =>
      obtain ⟨_, _, _, -, hother, -⟩ | ⟨wake, s, hrun, hsuspend⟩ | ⟨_, _, hother⟩ |
        ⟨_, _, _, -, hother⟩ := settle_quiet linker hfault
      case inr.inl =>
        cases h.symm.trans hsuspend
        exact ⟨code, wake, s, rfl, hrun, rfl, rfl⟩
      all_goals cases h.symm.trans hother

end Steps

end Chain

/-- The activations that wait after a fault has come down are the outer ones of those that waited
before. -/
theorem Landing.Of.callers_suffix {l : Landing} {linker : Linker} {fault : Fault} {c next : Chain}
    {frames : List Frame} {stack : List Term} {r : EStateM.Result Stop State Flow}
    (h : l.Of linker fault frames stack next) (hfaulting : c.faulting? r = some frames) :
    next.callers.map (·.frame) <:+ c.callers.map (·.frame) := by
  have hrest : l.rest <:+ frames.tail := by
    rw [h.frames_eq]
    cases l.passed with
    | nil => exact List.suffix_rfl
    | cons f passed => exact ⟨passed ++ [l.receiver], by simp⟩
  rw [h.callers_eq]
  obtain ⟨rfl, -⟩ | ⟨rfl, -⟩ := Chain.faulting?_forms hfaulting
  · exact hrest
  · exact hrest.trans (List.tail_suffix _)

/-- A suspended activation goes on with the base that it had. -/
theorem base_wakeUp (k : Continuation) (r : Resumption) : (k.wakeUp r).base = k.frame.base := by
  unfold Continuation.wakeUp
  split
  · rfl
  · split
    · rfl
    · rfl

end ErlangMachine.Machine
