import ErlangMachine.Machine.Execute

/-!
# Call chains

A call chain is the running activation and the activations that wait for it, innermost first.
`Chain.step` runs one command and settles what follows from it: calls, returns, faults and
suspensions. A chain that suspends becomes a continuation, from which it can go on later.
-/

namespace ErlangMachine.Machine

/-- A suspended call chain. Its stack slots stay with the process. -/
structure Continuation where
  /-- The frame of the innermost activation. -/
  frame : Frame
  /-- The registers of the innermost activation. -/
  registers : Array Term
  /-- What the innermost activation waits for. -/
  wake : Wake
  /-- The activations that wait for it, innermost first. -/
  callers : List Caller
  deriving Inhabited

namespace Continuation

/-- The number of activations. -/
def depth (k : Continuation) : Nat := k.callers.length + 1

/-- The frames of all activations, innermost first. -/
def frames (k : Continuation) : List Frame := k.frame :: k.callers.map (·.frame)

/-- The terms that a suspended chain holds. -/
def terms (k : Continuation) : List Term :=
  k.frame.terms ++ k.registers.toList ++ k.callers.flatMap Caller.terms

/-- Where each activation goes on: module and offset, innermost first. -/
def text (k : Continuation) : String :=
  ", ".intercalate (k.frames.map fun f => f.code.name.name ++ "@" ++ toString f.pc)

end Continuation

/-- How running code ends. -/
inductive Outcome where
  /-- With a result. -/
  | returned (value : Term)
  /-- Not yet. -/
  | suspended (continuation : Continuation)
  /-- With a fault that nothing caught. -/
  | faulted (fault : Fault)
  /-- The machine gave up. -/
  | broken (error : Error)
  deriving Inhabited

/-- Running code that has ended, and what it leaves. -/
structure Halt extends Host where
  /-- How it ended. -/
  outcome : Outcome
  deriving Inhabited

/-- A running call chain. -/
structure Chain where
  /-- The state of the running activation. -/
  state : State
  /-- The activations that wait for it, innermost first. -/
  callers : List Caller
  /-- How many of the callers began to wait since the chain was last started or resumed. -/
  recent : Nat
  deriving Inhabited

/-- What a step of a chain comes to. -/
inductive Progress where
  /-- The chain goes on. -/
  | running (chain : Chain)
  /-- The chain has ended. -/
  | halted (halt : Halt)
  deriving Inhabited

/-- Ends a run. -/
def State.halt (s : State) (outcome : Outcome) : Progress := .halted ⟨s.toHost, outcome⟩

/-- The state of a caller that goes on. -/
def State.resumeCaller (s : State) (c : Caller) : State :=
  { s with frame := c.frame, process := { s.process with registers := c.registers } }

/-- Hands a fault over to a handler. -/
def State.handle (s : State) (fault : Fault) (handler : Handler) (outer : List Handler) : State :=
  let p := s.process.truncate handler.depth
  let p := match handler.kind with
    | .catchValue => p.setX 0 fault.catchValue
    | .tryClauses =>
      ((p.setX 0 (.atom fault.kind.atom)).setX 1 fault.reason).setX 2 (.list fault.trace)
  { s with
    process := { p with lastFault := some fault }
    frame := { s.frame with tuple := none, bits := none, handlers := outer, pc := handler.label } }

namespace Chain

/-- A fault reaches an activation. It goes to the innermost handler; without one the activation
ends, and the fault goes on to the one that waits for it. -/
def raise (linker : Linker) (fault : Fault) (s : State) (callers : List Caller) (recent : Nat) :
    Progress :=
  let place := (linker.get? s.frame.code).bind fun code => location? code s.frame.lastPc
  let fault := place.elim fault fault.leave
  match s.frame.handlers with
  | handler :: outer => .running ⟨s.handle fault handler outer, callers, recent⟩
  | [] =>
    let s := { s with process := s.process.truncate s.frame.base }
    match callers with
    | [] => s.halt (.faulted fault)
    | c :: callers => raise linker fault (s.resumeCaller c) callers (recent - 1)
termination_by structural callers

/-- A fault leaves the running activation, which takes no part in it. -/
def raiseOutside (linker : Linker) (fault : Fault) (s : State) :
    List Caller → Nat → Progress
  | [], _ => s.halt (.faulted fault)
  | c :: callers, recent => raise linker fault (s.resumeCaller c) callers (recent - 1)

/-- The running activation ends with a result, which its caller finds in the first register. -/
def leave (value : Term) (s : State) : List Caller → Nat → Progress
  | [], _ => s.halt (.returned value)
  | c :: callers, recent =>
    let s := s.resumeCaller c
    .running ⟨{ s with process := s.process.setX 0 value }, callers, recent - 1⟩

/-- Begins an activation. -/
def enter (module : ModuleRef) (entry : Nat) (arguments : List Term) (s : State)
    (callers : List Caller) (recent : Nat) : Progress :=
  .running ⟨{ s with
    process := { s.process with registers := arguments.toArray }
    frame := .enter module entry s.process.depth }, callers, recent⟩

/-- A call that the running activation waits for. -/
def call (linker : Linker) (target : Callable) (arguments : List Term) (c : Chain) : Progress :=
  let s := c.state
  match target with
  | .native _ native =>
    let (result, world) := native arguments s.world
    let s := { s with world }
    match result with
    | .ok value => .running { c with state := { s with process := s.process.setX 0 value } }
    | .error fault => raise linker fault s c.callers c.recent
  | .code module entry _ captured =>
    enter module entry (arguments ++ captured) s (⟨s.frame, s.process.registers⟩ :: c.callers)
      (c.recent + 1)

/-- A call that takes the place of the running activation. -/
def tailCall (linker : Linker) (target : Callable) (arguments : List Term) (c : Chain) : Progress :=
  let s := c.state
  match target with
  | .native _ native =>
    let (result, world) := native arguments s.world
    let s := { s with world }
    match result with
    | .ok value => leave value s c.callers c.recent
    | .error fault => raiseOutside linker fault s c.callers c.recent
  | .code module entry _ captured =>
    enter module entry (arguments ++ captured) s c.callers c.recent

/-- Suspends the chain. The registers go with it. -/
def suspend (wake : Wake) (c : Chain) : Progress :=
  let s := c.state
  let k : Continuation := ⟨s.frame, s.process.registers, wake, c.callers⟩
  { s with process := { s.process with registers := #[] } }.halt (.suspended k)

/-- The machine gives up. The registers are then those of the outermost activation that has begun to
wait since the chain was last started or resumed. -/
def abort (error : Error) (c : Chain) : Progress :=
  let s := match c.recent with
    | 0 => c.state
    | n + 1 => c.callers[n]?.elim c.state c.state.resumeCaller
  s.halt (.broken error)

/-- Runs one command. -/
def step (linker : Linker) (c : Chain) : Progress :=
  match linker.get? c.state.frame.code with
  | none => c.abort (.missingEntry "module" c.state.frame.code.place)
  | some code =>
    match (execute linker code c.callers).run c.state with
    | .ok flow state =>
      let c := { c with state }
      match flow with
      | .next => .running c
      | .leave value => leave value state c.callers c.recent
      | .call target arguments => c.call linker target arguments
      | .tailCall target arguments => c.tailCall linker target arguments
      | .suspend wake => c.suspend wake
    | .error (.fault fault) state => raise linker fault state c.callers c.recent
    | .error (.broken error) state => { c with state }.abort error

/-- Runs commands until the chain ends, or until the fuel is used up. -/
def run (linker : Linker) : Nat → Chain → Option Halt
  | 0, _ => none
  | fuel + 1, c =>
    match c.step linker with
    | .running c => run linker fuel c
    | .halted halt => some halt

end Chain

/-! ## Starting and resuming -/

/-- What a suspended chain is told when it goes on. -/
inductive Resumption where
  /-- It is its turn, or it should look at its mailbox again. -/
  | proceed
  /-- A message has arrived. -/
  | messageArrived
  /-- The time is over. -/
  | timedOut
  deriving DecidableEq, Repr

/-- What a process in its world comes to when some code runs; nothing if the fuel does not last. -/
abbrev Run := Host → Option Halt

/-- Runs the code of a loaded module from an offset on the registers as they are. -/
def interpret (linker : Linker) (fuel : Nat) (module : ModuleRef) (pc : Nat) : Run := fun host =>
  Chain.run linker fuel ⟨⟨host, .enter module pc host.process.depth⟩, [], 0⟩

/-- Runs something on its arguments. -/
def invoke (linker : Linker) (fuel : Nat) (target : Callable) (arguments : List Term) : Run :=
  fun host =>
    match target with
    | .native _ native =>
      let (result, world) := native arguments host.world
      let outcome : Outcome := match result with
        | .ok value => .returned value
        | .error fault => .faulted fault
      some ⟨{ host with world }, outcome⟩
    | .code module entry _ captured =>
      let registers := (arguments ++ captured).toArray
      interpret linker fuel module entry { host with process := { host.process with registers } }

/-- Calls something; the wrong number of arguments is an argument error. -/
def call (linker : Linker) (fuel : Nat) (target : Callable) (arguments : List Term) : Run :=
  fun host =>
    if target.arity = arguments.length then invoke linker fuel target arguments host
    else some ⟨host, .faulted .badarg⟩

/-- Calls a function by its name. -/
def callExport (linker : Linker) (fuel : Nat) (module function : Atom) (arguments : List Term) :
    Run := fun host =>
  match linker.resolve? ⟨module, function, arguments.length⟩ with
  | some target => invoke linker fuel target arguments host
  | none => some ⟨host, .faulted .undefined⟩

/-- The frame that the innermost activation of a suspended chain goes on with. -/
def Continuation.wakeUp (k : Continuation) (r : Resumption) : Frame :=
  match k.wake with
  | .yield retry => { k.frame with skipYield := retry }
  | .receive onMessage timeout =>
    match r, timeout with
    | .timedOut, some (onTimeout, _) => { k.frame with pc := onTimeout }
    | _, _ => { k.frame with pc := onMessage }

/-- Lets a suspended chain go on. -/
def resume (linker : Linker) (fuel : Nat) (k : Continuation) (r : Resumption) : Run := fun host =>
  let process := { host.process with registers := k.registers }
  Chain.run linker fuel ⟨⟨{ host with process }, k.wakeUp r⟩, k.callers, 0⟩

end ErlangMachine.Machine
