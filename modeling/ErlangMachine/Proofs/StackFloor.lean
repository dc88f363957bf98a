import Mathlib
import ErlangMachine.Listing.Basic
import ErlangMachine.Proofs.Equality
import ErlangMachine.Proofs.Unwinding

/-!
# Where the stack can sink too low

An activation should never see the stack below the depth at which it began. No command takes the
stack there: slots are given back only down to that depth, and an activation that is left has put
the stack back. What can take it there is a fault. The handler that receives it cuts the stack back
to the depth that it names, and nothing makes sure that this is a depth of the activation in which
the handler is in force. The end of a protected region puts those handlers in force that a catch tag
names, and a catch tag is a term like any other: code can hand it over to a function that it calls.

This module shows that faults are the only way. Over everything that a call goes through, with no
condition on what the code does with catch tags, the stack stays above the base of the running
activation exactly if every handler that receives a fault names a depth of its own activation
(`staysAbove_iff`). The call of `sinkingListing` breaks this.
-/

namespace ErlangMachine.Machine

variable {handler : Handler} {frame : Frame} {c : Chain}

/-- The chains that a call goes through, step by step and however often it waits. When the call goes
on, the process has the stack with which it was suspended. -/
inductive Reaches (linker : Linker) (target : Callable) (arguments : List Term) (host : Host) :
    Chain → Prop where
  /-- The call begins. -/
  | start {module : ModuleRef} {entry arity : Nat} {captured : List Term} :
    target = .code module entry arity captured →
    Reaches linker target arguments host (Chain.start module entry (arguments ++ captured) host)
  /-- The chain goes on by itself. -/
  | step {c next : Chain} : Reaches linker target arguments host c →
    c.step linker = .running next → Reaches linker target arguments host next
  /-- The chain was suspended and goes on. -/
  | resume {c : Chain} {before after : Host} {k : Continuation} {r : Resumption} :
    Reaches linker target arguments host c → c.step linker = .halted ⟨before, .suspended k⟩ →
    after.process.stack = before.process.stack →
    Reaches linker target arguments host (k.chain r after)

/-- If a handler receives a fault in the next step, then it names a depth of its activation. -/
def Chain.CatchesAbove (linker : Linker) (c : Chain) : Prop :=
  ∀ frame handler, c.catcher? linker = some (frame, handler) → frame.base ≤ handler.depth

/-! ## The invariant -/

/-- The stack is not below the depth at which the activation began. -/
def State.Above (s : State) : Prop := s.frame.base ≤ s.process.depth

/-- Activations that wait, innermost first, below a depth: each began where the stack was at most as
deep as when the one before it began. -/
def Nested : Nat → List Caller → Prop
  | _, [] => True
  | base, c :: callers => c.frame.base ≤ base ∧ Nested c.frame.base callers

/-- An error that does not speak of a stack that has sunk too low. -/
def Error.SparesBase : Error → Prop
  | .stackBelowBase .. => False
  | _ => True

/-- A chain whose stack has not sunk too low for any of its activations. -/
structure Chain.Floored (c : Chain) : Prop where
  /-- It has not for the running one. -/
  above : c.state.Above
  /-- Those that wait began no higher. -/
  nested : Nested c.state.frame.base c.callers

/-- What a step comes to that keeps the stack above the base. -/
def Progress.Floored : Progress → Prop
  | .running c => c.Floored
  | .halted ⟨host, .suspended k⟩ =>
    k.frame.base ≤ host.process.depth ∧ Nested k.frame.base k.callers
  | .halted ⟨_, .broken e⟩ => e.SparesBase
  | .halted ⟨_, .returned _⟩ => True
  | .halted ⟨_, .faulted _⟩ => True

/-- The coupling of an activation that began at some depth and does not let the stack sink lower.
Terms may be any, catch tags among them. -/
def floored (base : Nat) : Coupling :=
  blind (fun _ => True) (fun base' found => base' = base ∧ base ≤ found) fun _ _ => True

section Coupling

variable {base : Nat} {linker : Linker} {code : LoadedModule}

/-- A state above the base of its activation belongs to itself. -/
theorem related_of_above {s : State} (h : s.Above) (hbase : s.frame.base = base) :
    (floored base).Related s s :=
  related_blind trivial ⟨hbase, hbase ▸ h⟩

/-- A state that belongs to another is above the base of its activation, which is the same. -/
theorem above_of_related {s s' : State} (h : (floored base).Related s s') :
    s.frame.base = base ∧ s.Above := by
  obtain ⟨hbase, hle⟩ := h.stack
  exact ⟨hbase, hbase.trans_le hle⟩

/-- The coupling keeps its promises for all code. -/
theorem laws_floored : (floored base).Laws linker code := by
  refine laws_blind ?_ (fun _ _ _ _ _ _ _ => trivial) fun _ _ _ _ _ _ _ => trivial
  rintro _ found found' ⟨rfl, hle⟩ hmin
  exact ⟨rfl, by omega⟩

/-- The errors that may come up do not speak of a stack that has sunk too low. -/
theorem sparesBase_of_floored {e : Error} (h : (floored base).error e) : e.SparesBase := by
  cases e with
  | stackBelowBase base' found =>
    obtain ⟨⟨rfl, hle⟩, hlow⟩ := h base' found rfl
    omega
  | _ => trivial

/-- Every command is one that the coupling allows. -/
theorem fits_floored (command : Command) : (floored base).Fits command :=
  Coupling.fits_of_forall (fun _ => trivial) (fun _ => trivial) (fun _ => trivial)
    (fun _ => trivial) command

end Coupling

/-! ## Activations on the stack -/

/-- Activations, innermost first, that began no higher than the stack is, and each no higher than
the one before it. -/
def Stacked (depth : Nat) (frames : List Frame) : Prop :=
  (depth :: frames.map (·.base)).Pairwise (· ≥ ·)

section Stacked

variable {linker : Linker} {depth : Nat} {frames frames' : List Frame} {next : Chain}

theorem Stacked.sublist (h : Stacked depth frames) (hsub : frames'.Sublist frames) :
    Stacked depth frames' :=
  List.Pairwise.sublist ((hsub.map _).cons_cons _) h

/-- One more begins. -/
theorem Stacked.enter (h : Stacked depth frames) (module : ModuleRef) (entry : Nat) :
    Stacked depth (.enter module entry depth :: frames) := by
  refine List.pairwise_cons.2 ⟨List.forall_mem_cons.2 ⟨Nat.le_refl _, ?_⟩, h⟩
  exact (List.pairwise_cons.1 h).1

/-- The activations of a chain. -/
theorem Chain.floored_iff : c.Floored ↔ Stacked c.state.process.depth c.frames := by
  have hnested : ∀ base callers, Nested base callers ↔
      List.IsChain (· ≥ ·) (base :: callers.map fun caller => caller.frame.base) := by
    intro base callers
    induction callers generalizing base with
    | nil => simp [Nested]
    | cons caller callers ih => simp [Nested, ih]
  unfold Stacked Chain.frames
  rw [← List.isChain_iff_pairwise, List.map_cons, List.map_map, List.isChain_cons_cons]
  exact ⟨fun h => ⟨h.above, (hnested _ _).1 h.nested⟩, fun h => ⟨h.1, (hnested _ _).2 h.2⟩⟩

/-- A fault lands where the stack is not too low if the handler names a depth of its activation. -/
theorem Landing.Of.floored {l : Landing} {fault : Fault} {stack : List Term}
    (h : l.Of linker fault frames stack next) (hframes : Stacked stack.length frames)
    (hdepth : l.receiver.base ≤ l.handler.depth) : next.Floored := by
  have hparts := hframes
  unfold Stacked at hparts
  rw [h.frames_eq, List.map_append, List.map_cons] at hparts
  obtain ⟨hstack, hparts⟩ := List.pairwise_cons.1 hparts
  obtain ⟨-, hrest, hpassed⟩ := List.pairwise_append.1 hparts
  have hreceiver := h.le_depth _ (hstack _ (by simp))
    (fun f hf => hpassed _ (List.mem_map_of_mem hf) _ List.mem_cons_self) hdepth
  rw [Chain.floored_iff, Chain.frames, h.frame_eq, h.callers_eq]
  refine List.pairwise_cons.2 ⟨List.forall_mem_cons.2 ⟨hreceiver, fun b hb => ?_⟩, hrest⟩
  exact ((List.pairwise_cons.1 hrest).1 b hb).trans hreceiver

/-- A command that no fault follows leaves the activations where they began. -/
theorem Chain.Continues.floored {flow : Flow} {s : State} (h : c.Continues flow s next)
    (hs : Stacked s.process.depth (s.frame :: c.callers.map (·.frame))) : next.Floored := by
  have hdepth : next.state.process.depth = s.process.depth := congrArg List.length h.stack_eq
  have hwaiting := hs.sublist (List.sublist_cons_self _ _)
  rw [Chain.floored_iff, hdepth, h.frames_eq]
  unfold Flow.frames
  split
  · exact hs
  · exact hs
  · exact hs
  · exact hwaiting
  · exact hwaiting
  · exact hs.enter _ _
  · exact hwaiting.enter _ _

end Stacked

/-! ## Steps of a chain -/

section Steps

variable {linker : Linker} {base : Nat} {r r' : EStateM.Result Stop State Flow}

/-- A command leaves the stack above the base, also when it fails. -/
theorem above_of_results (h : (floored base).Results (floored base).Flows r r') :
    ((stateOf r).frame.base = base ∧ (stateOf r).Above) ∧
      ∀ error s, r = .error (.broken error) s → error.SparesBase := by
  cases r with
  | ok flow s =>
    cases r' with
    | ok flow' s' => exact ⟨above_of_related h.2, fun _ _ heq => by cases heq⟩
    | error stop' s' => exact h.elim
  | error stop s =>
    cases r' with
    | ok flow' s' => exact h.elim
    | error stop' s' =>
      refine ⟨above_of_related h.2.2, ?_⟩
      rintro error _ ⟨rfl, -⟩
      exact sparesBase_of_floored h.2.1

/-- What follows from a command keeps the stack above the base if the handler of a fault does. -/
theorem settle_floored (hresults : (floored base).Results (floored base).Flows r r')
    (hnested : Nested base c.callers)
    (hreceiver : ∀ frame handler, (c.faulting? r).bind receiver? = some (frame, handler) →
      frame.base ≤ handler.depth) : (c.settle linker r).Floored := by
  obtain ⟨⟨rfl, habove⟩, herror⟩ := above_of_results hresults
  have hfloored : Chain.Floored { c with state := stateOf r } := ⟨habove, hnested⟩
  have hs := Chain.floored_iff.1 hfloored
  -- A fault cuts the stack back to the handler. Nothing else reaches below the base.
  cases hfault : c.faulting? r with
  | some frames =>
    obtain ⟨fault, -, ⟨-, host, hhalted⟩ | ⟨l, next, hrunning, hlanding⟩⟩ :=
      Chain.settle_faulting linker hfault
    · rw [hhalted]
      trivial
    · rw [hfault, Option.bind_some, hlanding.receiver?_eq] at hreceiver
      rw [hrunning]
      refine hlanding.floored ?_ (hreceiver _ _ rfl)
      obtain ⟨rfl, -⟩ | ⟨rfl, -⟩ := Chain.faulting?_forms hfault
      · exact hs
      · exact hs.sublist (List.sublist_cons_self _ _)
  | none =>
    obtain ⟨flow, s, next, rfl, hrunning, hnext⟩ | ⟨wake, s, rfl, hsuspend⟩ |
      ⟨host, value, hhalted⟩ | ⟨error, s, host, rfl, hhalted⟩ := Chain.settle_quiet linker hfault
    · rw [hrunning]
      exact hnext.floored hs
    · exact ⟨habove, hnested⟩
    · rw [hhalted]
      trivial
    · exact herror _ _ rfl

/-- The chain that goes on when a handler has received a fault: it is that of the receiver, and its
stack is at most as deep as the handler says. -/
structure Chain.Received (c : Chain) (frame : Frame) (handler : Handler) : Prop where
  /-- The activation is the receiver. -/
  base_eq : c.state.frame.base = frame.base
  /-- The stack has been cut back. -/
  depth_le : c.state.process.depth ≤ handler.depth

/-- A step keeps the stack above the base if the handler of a fault does. -/
theorem step_floored (h : c.Floored) (hcatch : c.CatchesAbove linker) :
    (c.step linker).Floored := by
  cases hcode : linker.get? c.state.frame.code with
  | none =>
    obtain ⟨host, place, hhalted⟩ := Chain.step_missing hcode
    rw [hhalted]
    trivial
  | some code =>
    unfold Chain.CatchesAbove Chain.catcher? at hcatch
    rw [hcode, Option.bind_some] at hcatch
    rw [Chain.step_eq_settle hcode]
    -- A call that has to wait changes nothing; every other command is one of the coupling.
    obtain hresults | ⟨mark, world, -, hrun⟩ :=
      Coupling.results_execute laws_floored c.callers (related_of_above h.above rfl)
        (fun _ _ _ _ _ heq => by cases heq)
        fun _ _ _ _ => ⟨trivial, fun command _ _ => ⟨fits_floored command, fun _ _ _ => trivial⟩⟩
    · exact settle_floored hresults h.nested hcatch
    · rw [hrun]
      exact ⟨h.above, h.nested⟩

/-- If a handler receives a fault in a step, then its activation goes on, with the stack cut
back. -/
theorem step_received (h : c.catcher? linker = some (frame, handler)) :
    ∃ next, c.step linker = .running next ∧ next.Received frame handler := by
  obtain ⟨code, hcode, h⟩ := Option.bind_eq_some_iff.1 h
  obtain ⟨frames, hframes, hreceiver⟩ := Option.bind_eq_some_iff.1 h
  rw [Chain.step_eq_settle hcode]
  obtain ⟨fault, -, ⟨hbare, -⟩ | ⟨l, next, hrunning, hlanding⟩⟩ :=
    Chain.settle_faulting linker hframes
  · rw [receiver?_eq_none hbare] at hreceiver
    cases hreceiver
  · rw [hlanding.receiver?_eq] at hreceiver
    cases hreceiver
    exact ⟨next, hrunning, by rw [hlanding.frame_eq], hlanding.depth_le⟩

end Steps

/-! ## Whole runs -/

section Runs

variable {linker : Linker} {target : Callable} {arguments : List Term} {host : Host}

/-- Everything that a call goes through keeps the stack above the base if all handlers of faults
do. -/
theorem Reaches.floored
    (hcatch : ∀ c, Reaches linker target arguments host c → c.CatchesAbove linker)
    (h : Reaches linker target arguments host c) : c.Floored := by
  induction h with
  | start => exact ⟨Nat.le_refl _, trivial⟩
  | @step c next hc hstep ih =>
    have hfloored := step_floored ih (hcatch c hc)
    rw [hstep] at hfloored
    exact hfloored
  | @resume c before after k r hc hstep hstack ih =>
    have hfloored := step_floored ih (hcatch c hc)
    rw [hstep] at hfloored
    obtain ⟨habove, hnested⟩ := hfloored
    have hbase := base_wakeUp k r
    refine ⟨?_, ?_⟩
    · show (k.wakeUp r).base ≤ after.process.stack.length
      rw [hbase, hstack]
      exact habove
    · show Nested (k.wakeUp r).base k.callers
      rw [hbase]
      exact hnested

/-- What a step of a chain finds if the stack has not sunk below the base of the running
activation. -/
structure Chain.StaysAbove (linker : Linker) (c : Chain) : Prop where
  /-- The stack is at least as deep as when the activation began. -/
  base_le : c.state.frame.base ≤ c.state.process.depth
  /-- Giving slots back does not fail because the stack is too low. -/
  not_below : ∀ host base found,
    c.step linker ≠ .halted ⟨host, .broken (.stackBelowBase base found)⟩

/-- The stack stays above the base of the running activation through a whole call, with all that it
waits for, exactly if every handler that receives a fault names a depth of its own activation. -/
theorem staysAbove_iff (linker : Linker) (target : Callable) (arguments : List Term) (host : Host) :
    (∀ c, Reaches linker target arguments host c → c.StaysAbove linker) ↔
      ∀ c, Reaches linker target arguments host c → c.CatchesAbove linker := by
  constructor
  · -- The receiver goes on at the depth of the handler, so the invariant bounds it.
    intro habove c hc frame handler hcatcher
    obtain ⟨next, hstep, hreceived⟩ := step_received hcatcher
    have hnext := (habove next (.step hc hstep)).base_le
    rw [hreceived.base_eq] at hnext
    exact hnext.trans hreceived.depth_le
  · intro hcatch c hc
    have hfloored := hc.floored hcatch
    refine ⟨hfloored.above, fun host base found hstep => ?_⟩
    have hstepped := step_floored hfloored (hcatch c hc)
    rw [hstep] at hstepped
    exact hstepped

end Runs

/-! ## A call that sinks -/

/-- A module with two functions. The first opens a protected region, takes a slot, opens another
region in it and hands the catch tag of that one over to the second. The second ends the region, so
that the outer handler of the first is in force in it, and raises a fault. -/
def sinkingListing : Listing where
  name := "m"
  exports := #[⟨"f", 0⟩]
  functions := #[
    ⟨⟨"f", 0⟩, 2, #[
      ⟨.label, [.int 1]⟩,
      ⟨.funcInfo, [.atom "m", .atom "f", .int 0]⟩,
      ⟨.label, [.int 2]⟩,
      ⟨.allocate, [.int 1, .int 0]⟩,
      ⟨.catchBegin, [.y 0, .label 3]⟩,
      ⟨.allocate, [.int 1, .int 0]⟩,
      ⟨.catchBegin, [.y 0, .label 4]⟩,
      ⟨.move, [.y 0, .x 0]⟩,
      ⟨.call, [.int 1, .label 6]⟩,
      ⟨.label, [.int 4]⟩,
      ⟨.catchEnd, [.y 0]⟩,
      ⟨.deallocate, [.int 1]⟩,
      ⟨.catchEnd, [.y 0]⟩,
      ⟨.deallocate, [.int 1]⟩,
      ⟨.label, [.int 3]⟩,
      ⟨.ret, []⟩]⟩,
    ⟨⟨"g", 1⟩, 6, #[
      ⟨.label, [.int 5]⟩,
      ⟨.funcInfo, [.atom "m", .atom "g", .int 1]⟩,
      ⟨.label, [.int 6]⟩,
      ⟨.allocate, [.int 1, .int 1]⟩,
      ⟨.move, [.x 0, .y 0]⟩,
      ⟨.catchEnd, [.y 0]⟩,
      ⟨.ifEnd, []⟩]⟩]

/-- The module of the listing. -/
def sinkingModule : Module where
  name := "m"
  code := #[5, 0, 1, 0, 192, 1, 10, 1, 145, 0, 31, 10, 1, 145, 0, 23, 181, 0, 16, 0, 56, 1, 36,
    146, 0, 12, 1, 146, 0, 12, 1, 0, 5, 0, 2, 1, 192, 1, 10, 1, 180, 0, 17, 0, 146, 0, 4]
  constants := #[.atom "m", .atom "f", .atom "g"]
  functions := ⟨⟨[(⟨"g", 1⟩, 36), (⟨"f", 0⟩, 4)]⟩, #[(0, ⟨"f", 0⟩), (32, ⟨"g", 1⟩)]⟩
  exports := [⟨⟨"f", 0⟩, 4⟩]

/-- The listing is assembled. -/
theorem toModule_sinkingListing : sinkingListing.toModule = .ok sinkingModule :=
  eq_ok_of_toOption (by decide +kernel)

/-- A linker with that module and the natives of `erlang`. -/
def sinkingLinker : Linker := Linker.withErlang.load sinkingModule

/-- A call goes through what follows after some steps. -/
theorem Reaches.after {linker : Linker} {target : Callable} {arguments : List Term} {host : Host}
    {n : Nat} {last : Chain} (h : Reaches linker target arguments host c)
    (hafter : c.after? linker n = some last) : Reaches linker target arguments host last := by
  have hpasses := Chain.passes_of_after? hafter
  clear hafter
  induction hpasses with
  | refl => exact h
  | step _ hstep ih => exact .step ih hstep

/-- The call of the first function comes to an activation that began with two slots on the stack and
finds one. The assembler has accepted the module, and the machine notices only when the activation
returns. -/
theorem sinking_below_base :
    sinkingListing.toModule = .ok sinkingModule ∧
    ∃ target, sinkingLinker.resolve? ⟨"m", "f", 0⟩ = some target ∧
      (∃ c, Reaches sinkingLinker target [] {} c ∧ c.state.frame.base = 2 ∧
        c.state.process.depth = 1) ∧
      (callExport sinkingLinker 20 "m" "f" [] {}).map Halt.outcome =
        some (.broken (.stackImbalance 2 1)) := by
  refine ⟨toModule_sinkingListing, .code ⟨"m", 0⟩ 4 0 [], rfl, ?_, by decide +kernel⟩
  have hrun : ((Chain.start ⟨"m", 0⟩ 4 [] {}).after? sinkingLinker 14).map
      (fun c => (c.state.frame.base, c.state.process.depth)) = some (2, 1) := by
    decide +kernel
  obtain ⟨c, hafter, hdepths⟩ := Option.map_eq_some_iff.1 hrun
  obtain ⟨hbase, hdepth⟩ := Prod.mk.inj hdepths
  exact ⟨c, (Reaches.start rfl).after hafter, hbase, hdepth⟩

end ErlangMachine.Machine
