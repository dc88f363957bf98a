import ErlangMachine.Machine.Run

/-!
# Sessions

Running code may stop several times before it ends, because it was preempted or because it waits for
a message, and each time something outside has to let it go on. A session is the whole story: a run
that was preempted simply has its turn again, and a run that waits gets an answer, which is some
messages for its mailbox and what it is told. What is seen of a session from outside is why it
waited, in order, and how it ended.

`Chain.Ends` says how a single run ends without speaking of fuel, and `Chain.Leads` gathers the runs
of a session that stop only because they were preempted.
-/

namespace ErlangMachine.Machine

/-- Why a run has stopped before its end. -/
inductive Reason where
  /-- It was preempted. -/
  | yield
  /-- It waits for a message. -/
  | receive
  /-- It waits for a message, but only for some time. -/
  | receiveTimeout (after : Term)

/-- Why a suspended chain does not run. -/
def Continuation.reason (k : Continuation) : Reason :=
  match k.wake with
  | .yield _ => .yield
  | .receive _ none => .receive
  | .receive _ (some (_, after)) => .receiveTimeout after

/-- The chain that a suspended chain becomes when it goes on. -/
def Continuation.chain (k : Continuation) (r : Resumption) (host : Host) : Chain :=
  ⟨⟨{ host with process := { host.process with registers := k.registers } }, k.wakeUp r⟩,
    k.callers, 0⟩

/-- What happens to a run that waits: messages arrive, and then it is told to go on. -/
structure Answer where
  /-- The messages that arrive, the first of them first. -/
  messages : List Term
  /-- What the run is told. -/
  resumption : Resumption

/-- Messages arrive. -/
def Host.deliver (host : Host) (messages : List Term) : Host :=
  { host with world := host.world.mapMailbox fun m => messages.foldl Mailbox.deliver m }

/-- A session from the first stop of its run on: the answers that it gets, the reasons for which it
waits and the way in which it stops for good. -/
inductive Session (linker : Linker) : Halt → List Answer → List Reason → Halt → Prop where
  /-- The run has ended. -/
  | ended {halt : Halt} {answers : List Answer} :
    (∀ k, halt.outcome ≠ .suspended k) → Session linker halt answers [] halt
  /-- The run waits and gets no answer. -/
  | waiting {host : Host} {k : Continuation} : k.reason ≠ .yield →
    Session linker ⟨host, .suspended k⟩ [] [k.reason] ⟨host, .suspended k⟩
  /-- The run was preempted and has its turn again. -/
  | turn {host : Host} {k : Continuation} {fuel : Nat} {next final : Halt} {answers : List Answer}
      {reasons : List Reason} : k.reason = .yield → resume linker fuel k .proceed host = some next →
    Session linker next answers reasons final →
    Session linker ⟨host, .suspended k⟩ answers reasons final
  /-- The run waits and gets an answer. -/
  | answered {host : Host} {k : Continuation} {fuel : Nat} {next final : Halt} {answer : Answer}
      {answers : List Answer} {reasons : List Reason} : k.reason ≠ .yield →
    resume linker fuel k answer.resumption (host.deliver answer.messages) = some next →
    Session linker next answers reasons final →
    Session linker ⟨host, .suspended k⟩ (answer :: answers) (k.reason :: reasons) final

/-- A session that begins with the call of a function. -/
def CallSession (linker : Linker) (module function : Atom) (arguments : List Term) (host : Host)
    (answers : List Answer) (reasons : List Reason) (final : Halt) : Prop :=
  ∃ fuel halt, callExport linker fuel module function arguments host = some halt ∧
    Session linker halt answers reasons final

/-- Code that waits for a message was not preempted. -/
theorem reason_receive_ne_yield (frame : Frame) (registers : Array Term) (target : Nat)
    (timeout : Option (Nat × Term)) (callers : List Caller) :
    (⟨frame, registers, .receive target timeout, callers⟩ : Continuation).reason ≠ .yield := by
  cases timeout with
  | none =>
    intro h
    cases h
  | some time =>
    intro h
    cases h

namespace Chain

variable {linker : Linker} {c next : Chain} {halt : Halt}

/-- The chain of a call that begins. -/
def start (module : ModuleRef) (entry : Nat) (arguments : List Term) (host : Host) : Chain :=
  ⟨⟨{ host with process := { host.process with registers := arguments.toArray } },
    .enter module entry host.process.depth⟩, [], 0⟩

/-- A chain runs until it halts. -/
inductive Ends (linker : Linker) : Chain → Halt → Prop where
  /-- It halts at once. -/
  | halted {c : Chain} {halt : Halt} : c.step linker = .halted halt → Ends linker c halt
  /-- It halts after one more step. -/
  | running {c next : Chain} {halt : Halt} : c.step linker = .running next →
    Ends linker next halt → Ends linker c halt

/-- A chain ends in the way that running it with enough fuel shows. -/
theorem ends_iff_run : Ends linker c halt ↔ ∃ fuel, c.run linker fuel = some halt := by
  constructor
  · intro h
    induction h with
    | halted hstep =>
      refine ⟨1, ?_⟩
      rw [run, hstep]
    | running hstep _ ih =>
      obtain ⟨fuel, hrun⟩ := ih
      refine ⟨fuel + 1, ?_⟩
      rw [run, hstep]
      exact hrun
  · rintro ⟨fuel, hrun⟩
    induction fuel generalizing c with
    | zero => cases hrun
    | succ fuel ih =>
      rw [run] at hrun
      cases hstep : c.step linker with
      | running next =>
        rw [hstep] at hrun
        exact .running hstep (ih hrun)
      | halted halted =>
        rw [hstep] at hrun
        cases hrun
        exact .halted hstep

/-- A suspended chain goes on as the chain that it becomes. -/
theorem ends_iff_resume {k : Continuation} {r : Resumption} {host : Host} :
    Ends linker (k.chain r host) halt ↔ ∃ fuel, resume linker fuel k r host = some halt :=
  ends_iff_run

/-- Whatever session there is from a halt, there is one from where the chain ends: the chain comes
to the halt, and on the way it is at most preempted. -/
def Leads (linker : Linker) (c : Chain) (halt : Halt) : Prop :=
  ∀ answers reasons final, Session linker halt answers reasons final →
    ∃ first, Ends linker c first ∧ Session linker first answers reasons final

/-- A chain leads to where it halts. -/
theorem leads_of_halted (h : c.step linker = .halted halt) : Leads linker c halt :=
  fun _ _ _ hsession => ⟨halt, .halted h, hsession⟩

/-- A chain leads to where its next step leads. -/
theorem leads_of_running (h : c.step linker = .running next) (hnext : Leads linker next halt) :
    Leads linker c halt := by
  intro answers reasons final hsession
  obtain ⟨first, hends, hfirst⟩ := hnext answers reasons final hsession
  exact ⟨first, .running h hends, hfirst⟩

/-- A chain that is preempted leads to where it leads when it has its turn again. -/
theorem leads_of_yield {host : Host} {k : Continuation}
    (h : c.step linker = .halted ⟨host, .suspended k⟩) (hk : k.reason = .yield)
    (hnext : Leads linker (k.chain .proceed host) halt) : Leads linker c halt := by
  intro answers reasons final hsession
  obtain ⟨first, hends, hfirst⟩ := hnext answers reasons final hsession
  obtain ⟨fuel, hresume⟩ := ends_iff_resume.1 hends
  exact ⟨_, .halted h, .turn hk hresume hfirst⟩

end Chain

end ErlangMachine.Machine
