import ErlangMachine.Proofs.Execution
import ErlangMachine.Proofs.Sessions

/-!
# Nested calls

A chain keeps all activations that wait in one list, and one loop runs them all. There is another
account of the same thing, call by call: the code that is called runs by itself until it ends, and
then its caller goes on with the result, or the fault is raised in its caller. This module shows
that both accounts agree.

Code that runs by itself is a chain with nothing below its first activation. Activations that wait
elsewhere take no part in it, but for the terms that they hold, on which it depends whether a buffer
may be written to in place (`Chain.stepAbove`). `Halt.into` says what becomes of its end where such
activations wait for it. By `Chain.ends_iff_alone`, a chain ends as its running activation ends by
itself, and then as those go on that wait for it. There are two places at which the machine goes
from an activation to the one below: after a call, whose caller has just begun to wait
(`Chain.call_ends_iff`), and in a chain that was suspended and goes on, frame after frame
(`Continuation.chain_ends_iff`).
-/

namespace ErlangMachine.Machine

/-- How it goes on when code has ended on top of some activations, the first `recent` of which began
to wait since the chain was last started or resumed. -/
def Halt.into (linker : Linker) (outer : List Caller) (recent : Nat) (halt : Halt) : Progress :=
  -- The frame of what has ended is of no account.
  let s : State := ⟨halt.toHost, default⟩
  match halt.outcome with
  | .returned value => Chain.leave value s outer recent
  | .faulted fault => Chain.raiseOutside linker fault s outer recent
  | .suspended k => s.halt (.suspended { k with callers := k.callers ++ outer })
  | .broken error => Chain.abort error ⟨s, outer, recent⟩

/-- What a step comes to, and what the same step comes to on top of more activations. -/
inductive Progress.Under (linker : Linker) (outer : List Caller) (recent : Nat) (p p' : Progress) :
    Prop where
  /-- The chain goes on. All activations that wait in it began to wait since it was started. -/
  | running (s : State) (callers : List Caller) : p = .running ⟨s, callers, callers.length⟩ →
    p' = .running ⟨s, callers ++ outer, callers.length + recent⟩ → Under linker outer recent p p'
  /-- The chain has ended, and it goes on below. -/
  | halted (halt : Halt) : p = .halted halt → p' = halt.into linker outer recent →
    Under linker outer recent p p'

/-- A step comes to an end, at once or when the chain that goes on ends. -/
def Progress.Ends (linker : Linker) : Progress → Halt → Prop
  | .running c, halt => c.Ends linker halt
  | .halted last, halt => last = halt

namespace Chain

variable {linker : Linker} {outer : List Caller} {recent : Nat} {c : Chain}

/-! ## Runs above other activations -/

variable (linker outer) in
/-- Runs one command of a chain while other activations wait elsewhere. -/
def stepAbove (c : Chain) : Progress :=
  match linker.get? c.state.frame.code with
  | none => c.abort (.missingEntry "module" c.state.frame.code.place)
  | some code => c.settle linker ((execute linker code (c.callers ++ outer)).run c.state)

/-- A step above no other activations is a step of the chain. -/
theorem stepAbove_nil : c.stepAbove linker [] = c.step linker := by
  unfold stepAbove
  rw [List.append_nil]
  cases hcode : linker.get? c.state.frame.code with
  | none => exact (step_eq_abort hcode).symm
  | some code => exact (step_eq_settle hcode).symm

variable (linker outer) in
/-- A chain runs until it halts while other activations wait elsewhere. -/
inductive EndsAbove : Chain → Halt → Prop where
  /-- It halts at once. -/
  | halted {c : Chain} {halt : Halt} : c.stepAbove linker outer = .halted halt → EndsAbove c halt
  /-- It halts after one more step. -/
  | running {c next : Chain} {halt : Halt} : c.stepAbove linker outer = .running next →
    EndsAbove next halt → EndsAbove c halt

/-- A run above no other activations is a run of the chain. -/
theorem endsAbove_nil_iff {halt : Halt} : c.EndsAbove linker [] halt ↔ c.Ends linker halt := by
  constructor
  · intro h
    induction h with
    | halted hstep => exact .halted (stepAbove_nil.symm.trans hstep)
    | running hstep _ ih => exact .running (stepAbove_nil.symm.trans hstep) ih
  · intro h
    induction h with
    | halted hstep => exact .halted (stepAbove_nil.trans hstep)
    | running hstep _ ih => exact .running (stepAbove_nil.trans hstep) ih

/-- A chain ends as its first step does. -/
theorem ends_iff_step {halt : Halt} : c.Ends linker halt ↔ (c.step linker).Ends linker halt := by
  constructor
  · rintro (hstep | ⟨hstep, hends⟩)
    · rw [hstep]
      rfl
    · rw [hstep]
      exact hends
  · intro h
    cases hstep : c.step linker with
    | running next =>
      rw [hstep] at h
      exact .running hstep h
    | halted last =>
      rw [hstep] at h
      obtain rfl : last = halt := h
      exact .halted hstep

/-! ## Steps -/

section Steps

variable (linker outer recent) (s : State) (callers : List Caller)

/-- A result goes to the innermost activation that waits. -/
theorem leave_under (value : Term) : (leave value s callers callers.length).Under linker outer
    recent (leave value s (callers ++ outer) (callers.length + recent)) := by
  cases callers with
  | nil =>
    rw [List.nil_append, List.length_nil, Nat.zero_add]
    cases outer <;> exact .halted _ rfl rfl
  | cons caller callers =>
    rw [List.length_cons, Nat.add_right_comm]
    exact .running _ callers rfl rfl

/-- A fault leaves activations without a handler, and after those of the chain the ones below. -/
theorem raise_under (fault : Fault) : (raise linker fault s callers callers.length).Under linker
    outer recent (raise linker fault s (callers ++ outer) (callers.length + recent)) := by
  induction callers generalizing s fault with
  | nil =>
    rw [List.nil_append, List.length_nil, Nat.zero_add]
    cases hhandlers : s.frame.handlers with
    | cons handler others =>
      rw [raise_handled hhandlers, raise_handled hhandlers]
      exact .running _ [] rfl (by rw [List.length_nil, Nat.zero_add]; rfl)
    | nil =>
      refine .halted _ (raise_nil hhandlers) ?_
      cases outer with
      | nil => exact raise_nil hhandlers
      | cons caller outer => exact raise_cons hhandlers
  | cons caller callers ih =>
    rw [List.cons_append, List.length_cons]
    cases hhandlers : s.frame.handlers with
    | cons handler others =>
      rw [raise_handled hhandlers, raise_handled hhandlers]
      exact .running _ (caller :: callers) rfl rfl
    | nil =>
      rw [raise_cons hhandlers, raise_cons hhandlers, Nat.add_right_comm]
      exact ih _ _

/-- A fault from a call in the place of the running activation goes on to the ones that wait. -/
theorem raiseOutside_under (fault : Fault) :
    (raiseOutside linker fault s callers callers.length).Under linker outer recent
      (raiseOutside linker fault s (callers ++ outer) (callers.length + recent)) := by
  cases callers with
  | nil =>
    rw [List.nil_append, List.length_nil, Nat.zero_add]
    cases outer <;> exact .halted _ rfl rfl
  | cons caller callers =>
    rw [List.length_cons, Nat.add_right_comm]
    exact raise_under linker outer recent _ callers fault

variable {callers} in
/-- When the machine gives up, the registers are those of the outermost activation that has begun to
wait. -/
theorem abort_waiting (error : Error) {n : Nat} {caller : Caller}
    (h : callers[n]? = some caller) : abort error ⟨s, callers, n + 1⟩ =
      .halted ⟨⟨s.world, { s.process with registers := caller.registers }⟩, .broken error⟩ := by
  unfold abort
  dsimp only
  rw [h]
  rfl

/-- The registers are those of an activation below if one of these has begun to wait. -/
theorem abort_under (error : Error) (hle : recent ≤ outer.length) :
    (abort error ⟨s, callers, callers.length⟩).Under linker outer recent
      (abort error ⟨s, callers ++ outer, callers.length + recent⟩) := by
  cases recent with
  | zero =>
    cases callers with
    | nil => exact .halted _ rfl rfl
    | cons caller callers =>
      have hlt : callers.length < (caller :: callers).length := Nat.lt_succ_self _
      have hlast := List.getElem?_eq_getElem hlt
      exact .halted _ (abort_waiting s error hlast)
        (abort_waiting s error ((List.getElem?_append_left hlt).trans hlast))
  | succ recent =>
    have hlast := List.getElem?_eq_getElem hle
    have hbelow : (callers ++ outer)[callers.length + recent]? = some outer[recent] := by
      rw [List.getElem?_append_right (Nat.le_add_right _ _), Nat.add_sub_cancel_left, hlast]
    obtain ⟨registers, -, habort⟩ := abort_eq error ⟨s, callers, callers.length⟩
    refine .halted _ habort ((abort_waiting s error hbelow).trans ?_)
    show _ = abort error ⟨⟨⟨s.world, { s.process with registers }⟩, default⟩, outer, recent + 1⟩
    rw [abort_waiting _ error hlast]

variable {linker outer recent s callers} (hle : recent ≤ outer.length)
include hle

/-- What follows from a command is the same on top of more activations. -/
theorem settle_under (r : EStateM.Result Stop State Flow) :
    (settle linker ⟨s, callers, callers.length⟩ r).Under linker outer recent
      (settle linker ⟨s, callers ++ outer, callers.length + recent⟩ r) := by
  cases r with
  | error stop t =>
    cases stop with
    | fault fault => exact raise_under linker outer recent t callers fault
    | broken error => exact abort_under linker outer recent t callers error hle
  | ok flow t =>
    cases flow with
    | next => exact .running t callers rfl rfl
    | suspend wake => exact .halted _ rfl rfl
    | leave value => exact leave_under linker outer recent t callers value
    | call target arguments =>
      cases target with
      | native id f =>
        simp only [settle, call]
        split
        · exact .running _ callers rfl rfl
        · exact raise_under linker outer recent _ callers _
      | code module entry arity captured =>
        refine .running _ (⟨t.frame, t.process.registers⟩ :: callers) rfl ?_
        rw [List.length_cons, Nat.add_right_comm]
        rfl
    | tailCall target arguments =>
      cases target with
      | native id f =>
        simp only [settle, tailCall]
        split
        · exact leave_under linker outer recent _ callers _
        · exact raiseOutside_under linker outer recent _ callers _
      | code => exact .running _ callers rfl rfl

/-- A step on top of more activations is the step that the chain takes while these wait
elsewhere. -/
theorem step_under : (stepAbove linker outer ⟨s, callers, callers.length⟩).Under linker outer recent
    (step linker ⟨s, callers ++ outer, callers.length + recent⟩) := by
  unfold stepAbove
  cases hcode : linker.get? s.frame.code with
  | none =>
    rw [step_eq_abort (c := ⟨s, _, _⟩) hcode]
    exact abort_under linker outer recent s callers _ hle
  | some code =>
    rw [step_eq_settle (c := ⟨s, _, _⟩) hcode]
    exact settle_under hle _

/-! ## Runs -/

/-- A chain that was started by itself ends on top of other activations as it ends without them, and
then as these go on. -/
theorem ends_under_iff {final : Halt} :
    Ends linker ⟨s, callers ++ outer, callers.length + recent⟩ final ↔
      ∃ halt, EndsAbove linker outer ⟨s, callers, callers.length⟩ halt ∧
        (halt.into linker outer recent).Ends linker final := by
  constructor
  · intro h
    generalize hchain : (⟨s, callers ++ outer, callers.length + recent⟩ : Chain) = c at h
    induction h generalizing s callers with
    | halted hstep =>
      subst hchain
      rcases step_under hle with ⟨t, waiting, habove, hnext⟩ | ⟨halt, habove, hinto⟩
      · cases hnext.symm.trans hstep
      · exact ⟨halt, .halted habove, by rw [← hinto, hstep]; rfl⟩
    | running hstep hends ih =>
      subst hchain
      rcases step_under hle with ⟨t, waiting, habove, hnext⟩ | ⟨halt, habove, hinto⟩
      · obtain ⟨halt, hhalt, hfinal⟩ := ih (Progress.running.inj (hnext.symm.trans hstep))
        exact ⟨halt, .running habove hhalt, hfinal⟩
      · exact ⟨halt, .halted habove, by rw [← hinto, hstep]; exact hends⟩
  · rintro ⟨halt, h, hfinal⟩
    generalize hchain : (⟨s, callers, callers.length⟩ : Chain) = c at h
    induction h generalizing s callers with
    | halted hstep =>
      subst hchain
      rcases step_under hle with ⟨t, waiting, habove, hnext⟩ | ⟨halt, habove, hinto⟩
      · cases habove.symm.trans hstep
      · obtain rfl := Progress.halted.inj (habove.symm.trans hstep)
        rw [ends_iff_step, hinto]
        exact hfinal
    | running hstep _ ih =>
      subst hchain
      rcases step_under hle with ⟨t, waiting, habove, hnext⟩ | ⟨halt, habove, hinto⟩
      · rw [ends_iff_step, hnext]
        exact ih hfinal (Progress.running.inj (habove.symm.trans hstep))
      · cases habove.symm.trans hstep

/-- A chain ends as its running activation ends by itself, and then as those go on that wait for
it. -/
theorem ends_iff_alone {final : Halt} : Ends linker ⟨s, outer, recent⟩ final ↔
    ∃ halt, EndsAbove linker outer ⟨s, [], 0⟩ halt ∧
      (halt.into linker outer recent).Ends linker final := by
  have hunder : Ends linker ⟨s, [] ++ outer, 0 + recent⟩ final ↔ _ := ends_under_iff hle
  rw [List.nil_append, Nat.zero_add] at hunder
  exact hunder

end Steps

/-- A call leads to where the code leads that is called and runs by itself, and then to where its
caller goes on, with the result in its first register or with the fault raised in it. -/
theorem call_ends_iff (module : ModuleRef) (entry arity : Nat) (captured arguments : List Term)
    (hle : c.recent ≤ c.callers.length) {final : Halt} :
    (c.call linker (.code module entry arity captured) arguments).Ends linker final ↔
      ∃ halt, EndsAbove linker (⟨c.state.frame, c.state.process.registers⟩ :: c.callers)
          (start module entry (arguments ++ captured) c.state.toHost) halt ∧
        (halt.into linker (⟨c.state.frame, c.state.process.registers⟩ :: c.callers)
          (c.recent + 1)).Ends linker final :=
  ends_iff_alone (Nat.succ_le_succ hle)

end Chain

/-- A chain that was suspended goes on with its innermost frame by itself, and then with the frames
that wait for it, each of which gets the result or the fault of the one before. -/
theorem Continuation.chain_ends_iff (linker : Linker) (k : Continuation) (r : Resumption)
    (host : Host) {final : Halt} :
    (k.chain r host).Ends linker final ↔
      ∃ halt, Chain.EndsAbove linker k.callers { k.chain r host with callers := [] } halt ∧
        (halt.into linker k.callers 0).Ends linker final :=
  Chain.ends_iff_alone (Nat.zero_le _)

end ErlangMachine.Machine
