import ErlangMachine.Listing.Basic
import ErlangMachine.Proofs.Equality
import ErlangMachine.Proofs.Pace

/-!
# Preemption cannot be seen

The same call is made in two worlds: one never preempts, the other does so at every `n`-th check. In
both the process waits for the same reasons, in the same order, and in the end it has come to the
same outcome and left the same world. `call_session_agrees` says so for whole sessions, in which the
two processes get the same answers whenever they wait.

The proof follows the two chains side by side. The coupling `unhurried` relates a chain that is
never preempted to one that is: they have the same process, the same frames but for the mark that
leaves out a check, and worlds that differ only in their pace. One step of the first is matched by
one step of the second, which may turn out to be a suspension that leads right back to a related
chain (`step_follows`). The one case without a match is a call that is held up before it does
anything; the chain that goes on from there carries the mark, so the next step is a match.
-/

namespace ErlangMachine.Machine

variable {s s' : State} {c c' : Chain} {halt halt' : Halt}

/-! ## Chains at two paces -/

/-- Asking whether a call has to wait makes no difference to the second state. -/
theorem related_turn (hs : unhurried.Related s s') : unhurried.Related s s'.turn.2 := by
  have hcalm : s.world.calm = s'.world.checkYield.2.calm := by
    rw [unhurried.calm_checkYield, hs.world.calm]
  unfold State.turn
  split
  · exact unhurried.related hs.process hs.frame hs.world
  · exact unhurried.related hs.process hs.frame (unhurried.worlds hcalm hs.world.pace)

/-- A state in a world that never preempts never has to wait for its turn, and asking makes no
difference to it. -/
theorem turn_of_calm (hs : unhurried.Related s s') :
    s.turn.1 = false ∧ unhurried.Related s.turn.2 s' := by
  have hnone : s.world.interval = none := hs.world.pace
  unfold State.turn
  split
  · exact ⟨rfl, unhurried.related hs.process hs.frame hs.world⟩
  · rw [unhurried.checkYield_of_none hnone]
    exact ⟨rfl, hs⟩

/-- An opcode that may have to wait finds the second state as it was. -/
theorem related_prepare (hs : unhurried.Related s.begin s'.begin) (opcode : Opcode) :
    unhurried.Related s.begin (s'.prepare opcode).2 := by
  unfold State.prepare
  split
  · exact related_turn hs
  · exact hs

/-- In a world that never preempts an opcode does not have to wait. -/
theorem prepare_of_calm (hs : unhurried.Related s.begin s') (opcode : Opcode) :
    (s.prepare opcode).1 = false ∧ unhurried.Related (s.prepare opcode).2 s' := by
  unfold State.prepare
  split
  · exact turn_of_calm hs
  · exact ⟨rfl, hs⟩

/-- Only a call without the mark can be held up. -/
theorem unmarked_of_prepare {opcode : Opcode} (h : (s.prepare opcode).1 = true) :
    s.frame.skipYield = false := by
  unfold State.prepare State.turn at h
  split at h
  · split at h
    · cases h
    · rename_i hmark
      exact Bool.eq_false_iff.2 hmark
  · cases h

/-- Waiting activations that belong together hold the same terms. -/
theorem terms_eq_of_waits {callers callers' : List Caller}
    (h : List.Forall₂ unhurried.Waits callers callers') :
    callers.flatMap Caller.terms = callers'.flatMap Caller.terms := by
  induction h with
  | nil => rfl
  | @cons caller caller' _ _ hcaller _ ih =>
    have hframe : caller.frame.terms = caller'.frame.terms :=
      Frame.congr_of_calm hcaller.calm Frame.terms fun _ => rfl
    have hterms : caller.terms = caller'.terms := by
      unfold Caller.terms
      rw [hframe, hcaller.registers_eq]
    rw [List.flatMap_cons, List.flatMap_cons, hterms, ih]

/-! ## One step -/

/-- The second chain was held up before a call. It will go on from the same point, and then it will
not be held up again. -/
def HeldUp (linker : Linker) (c c' : Chain) : Prop :=
  ∃ host k, c'.step linker = .halted ⟨host, .suspended k⟩ ∧ k.reason = .yield ∧
    unhurried.Chains c (k.chain .proceed host) ∧
      (k.chain .proceed host).state.frame.skipYield = true

section Runs

variable {linker : Linker} {module : Module → Prop}
  (hlinker : linker.Built Native.IsErlang module)

include hlinker

/-- A step of the first chain is matched by a step of the second, unless that is held up. -/
theorem step_follows (h : unhurried.Chains c c') :
    unhurried.Follows (c.step linker) (c'.step linker) ∨
      c'.state.frame.skipYield = false ∧ HeldUp linker c c' := by
  have hcode : c.state.frame.code = c'.state.frame.code := h.state.code_eq
  have hpc : c.state.frame.pc = c'.state.frame.pc :=
    Frame.congr_of_calm h.state.frame Frame.pc fun _ => rfl
  have hhosts : unhurried.Hosts c.state.toHost c'.state.toHost := unhurried.hosts h.state.world
  cases hget : linker.get? c.state.frame.code with
  | none =>
    left
    unfold Chain.step
    rw [← hcode, hget]
    exact Coupling.abort_follows _ hhosts h.callers
  | some code =>
    have laws := unhurried.laws_of_built hlinker hget
    have hstep := Chain.step_eq_settle (c := c) hget
    have hstep' := Chain.step_eq_settle (c := c') (hcode ▸ hget)
    cases hword : code.module.code[c.state.frame.pc]? with
    | none =>
      rw [execute_end linker _ hword] at hstep
      rw [execute_end linker _ (hpc ▸ hword), ← hpc] at hstep'
      rw [hstep, hstep']
      exact .inl (Coupling.abort_follows _ hhosts h.callers)
    | some word =>
      cases hopcode : Opcode.ofWord? word with
      | none =>
        rw [execute_unknown linker _ hword hopcode] at hstep
        rw [execute_unknown linker _ (hpc ▸ hword) hopcode, ← hpc] at hstep'
        rw [hstep, hstep']
        exact .inl (Coupling.abort_follows _ hhosts h.callers)
      | some opcode =>
        have hheld := related_prepare h.state opcode
        obtain ⟨hgoes, hready⟩ := prepare_of_calm hheld opcode
        rw [execute_opcode linker _ hword hopcode, if_neg (Bool.eq_false_iff.1 hgoes)] at hstep
        rw [execute_opcode linker _ (hpc ▸ hword) hopcode, ← hpc] at hstep'
        cases hwait : (c'.state.prepare opcode).1 with
        | false =>
          rw [if_neg (Bool.eq_false_iff.1 hwait)] at hstep'
          rw [hstep, hstep']
          left
          refine unhurried.uniform.settle_follows ?_ h.callers
          exact Coupling.results_runOpcode laws (terms_eq_of_waits h.callers) hready trivial
            fun command _ _ => ⟨unhurried.fits command, fun _ _ _ => trivial⟩
        | true =>
          -- Held up before the call; the call has noted where it is and the chain has the mark.
          rw [if_pos hwait] at hstep'
          refine .inr ⟨unmarked_of_prepare hwait, _, _, hstep', rfl, ⟨h.callers, ?_⟩, rfl⟩
          exact Coupling.Related.begin (s := c.state.begin)
            (unhurried.related hheld.process hheld.frame hheld.world)

/-! ## Whole runs -/

/-- After at most one hold-up a step of the first chain is matched. -/
theorem step_follows_soon (h : unhurried.Chains c c') :
    unhurried.Follows (c.step linker) (c'.step linker) ∨
      ∃ host k, c'.step linker = .halted ⟨host, .suspended k⟩ ∧ k.reason = .yield ∧
        unhurried.Follows (c.step linker) ((k.chain .proceed host).step linker) := by
  rcases step_follows hlinker h with hfollows | ⟨-, host, k, hstep', hk, hchains, hmark⟩
  · exact .inl hfollows
  · rcases step_follows hlinker hchains with hfollows | ⟨hunmarked, -⟩
    · exact .inr ⟨host, k, hstep', hk, hfollows⟩
    · rw [hmark] at hunmarked
      cases hunmarked

/-- What every chain that follows in step leads to, a chain at the same point leads to as well, even
if it is held up first. -/
theorem leads_of_follows (h : unhurried.Chains c c')
    (hfollowed : ∀ d : Chain, unhurried.Follows (c.step linker) (d.step linker) →
      ∃ halt', unhurried.Halts halt halt' ∧ d.Leads linker halt') :
    ∃ halt', unhurried.Halts halt halt' ∧ c'.Leads linker halt' := by
  rcases step_follows_soon hlinker h with hfollows | ⟨host, k, hstep', hk, hfollows⟩
  · exact hfollowed c' hfollows
  · obtain ⟨halt', hhalts, hleads⟩ := hfollowed _ hfollows
    exact ⟨halt', hhalts, Chain.leads_of_yield hstep' hk hleads⟩

/-- When the first chain ends, the second leads to the same end. -/
theorem leads_of_ends (hends : c.Ends linker halt) :
    ∀ {c' : Chain}, unhurried.Chains c c' →
      ∃ halt', unhurried.Halts halt halt' ∧ c'.Leads linker halt' := by
  -- On the steps of the first chain; the second makes one step for each, or two.
  induction hends with
  | halted hstep =>
    refine fun h => leads_of_follows hlinker h fun d hfollows => ?_
    rw [hstep] at hfollows
    cases hd : d.step linker with
    | running d' =>
      rw [hd] at hfollows
      cases hfollows
    | halted halt' =>
      rw [hd] at hfollows
      cases hfollows with
      | halted hhalts => exact ⟨halt', hhalts, Chain.leads_of_halted hd⟩
  | running hstep _ ih =>
    refine fun h => leads_of_follows hlinker h fun d hfollows => ?_
    rw [hstep] at hfollows
    cases hd : d.step linker with
    | running d' =>
      rw [hd] at hfollows
      cases hfollows with
      | running hchains =>
        obtain ⟨halt', hhalts, hleads⟩ := ih hchains
        exact ⟨halt', hhalts, Chain.leads_of_running hd hleads⟩
    | halted halted =>
      rw [hd] at hfollows
      cases hfollows with
      | yielded hk hchains =>
        obtain ⟨halt', hhalts, hleads⟩ := ih hchains
        exact ⟨halt', hhalts, Chain.leads_of_yield hd hk hleads⟩

/-- When the second chain stops, then the first ends in the same way, or the second was preempted
and will go on from a point that the first chain reaches. -/
theorem ends_of_ends (hends : c'.Ends linker halt') :
    ∀ {c : Chain}, unhurried.Chains c c' →
      (∃ halt, c.Ends linker halt ∧ unhurried.Halts halt halt') ∨
      ∃ host k next, halt' = ⟨host, .suspended k⟩ ∧ k.reason = .yield ∧
        unhurried.Chains next (k.chain .proceed host) ∧
        ∀ halt, next.Ends linker halt → c.Ends linker halt := by
  -- On the steps of the second chain; the first makes a step for each but the last, if held up.
  induction hends with
  | @halted c' halt' hstep' =>
    intro c h
    rcases step_follows hlinker h with hfollows | ⟨-, host, k, hheld, hk, hchains, -⟩
    · rw [hstep'] at hfollows
      cases hstep : c.step linker with
      | running next =>
        rw [hstep] at hfollows
        cases hfollows with
        | yielded hk hchains =>
          exact .inr ⟨_, _, next, rfl, hk, hchains, fun _ hends => .running hstep hends⟩
      | halted halt =>
        rw [hstep] at hfollows
        cases hfollows with
        | halted hhalts => exact .inl ⟨halt, .halted hstep, hhalts⟩
    · obtain rfl := Progress.halted.inj (hstep'.symm.trans hheld)
      exact .inr ⟨host, k, c, rfl, hk, hchains, fun _ hends => hends⟩
  | @running c' next' halt' hstep' _ ih =>
    intro c h
    rcases step_follows hlinker h with hfollows | ⟨-, host, k, hheld, -⟩
    · rw [hstep'] at hfollows
      cases hstep : c.step linker with
      | running next =>
        rw [hstep] at hfollows
        cases hfollows with
        | running hchains =>
          rcases ih hchains with ⟨halt, hends, hhalts⟩ | ⟨host, k, later, heq, hk, hlater, hreach⟩
          · exact .inl ⟨halt, .running hstep hends, hhalts⟩
          · exact .inr ⟨host, k, later, heq, hk, hlater,
              fun halt hends => .running hstep (hreach halt hends)⟩
      | halted halt =>
        rw [hstep] at hfollows
        cases hfollows
    · rw [hstep'] at hheld
      cases hheld

end Runs

/-! ## Whole sessions -/

/-- Stops that look the same from outside: the same outcome, and the same world apart from its pace.
Unless the machine gave up, the processes are the same as well. -/
inductive Agrees : Halt → Halt → Prop where
  /-- Both have the same result. -/
  | returned {host host' : Host} (value : Term) : host.process = host'.process →
    host.world.calm = host'.world.calm → Agrees ⟨host, .returned value⟩ ⟨host', .returned value⟩
  /-- Both have the same fault: class, reason and trace. -/
  | faulted {host host' : Host} (fault : Fault) : host.process = host'.process →
    host.world.calm = host'.world.calm → Agrees ⟨host, .faulted fault⟩ ⟨host', .faulted fault⟩
  /-- The machine gave up on both for the same cause. -/
  | broken {host host' : Host} (error : Error) : host.world.calm = host'.world.calm →
    Agrees ⟨host, .broken error⟩ ⟨host', .broken error⟩
  /-- Both wait for the same reason. -/
  | waiting {host host' : Host} {k k' : Continuation} : host.process = host'.process →
    host.world.calm = host'.world.calm → k.reason = k'.reason →
    Agrees ⟨host, .suspended k⟩ ⟨host', .suspended k'⟩

/-- Ends of runs that belong together look the same. -/
theorem agrees_of_halts (h : unhurried.Halts halt halt') : Agrees halt halt' := by
  cases h with
  | @returned _ _ value hprocess hhosts _ => exact .returned value hprocess hhosts.world.calm
  | @faulted _ _ fault hprocess hhosts _ => exact .faulted fault hprocess hhosts.world.calm
  | broken error hhosts => exact .broken error hhosts.world.calm
  | suspended hprocess hhosts hk _ => exact .waiting hprocess hhosts.world.calm hk.reason_eq

/-- A run that is never preempted waits for a message. -/
theorem reason_ne_yield {k : Continuation} (h : unhurried.GoodWake k.wake) : k.reason ≠ .yield := by
  obtain ⟨frame, registers, wake, callers⟩ := k
  cases wake with
  | yield retry => cases h
  | receive target timeout => exact reason_receive_ne_yield _ _ _ _ _

/-- Runs that wait for the same go on together when they get the same answer. -/
theorem chains_of_answer {host host' : Host} {k k' : Continuation}
    (hhosts : unhurried.Hosts host host') (hprocess : host.process = host'.process)
    (hk : unhurried.Continuations k k') (answer : Answer) :
    unhurried.Chains (k.chain answer.resumption (host.deliver answer.messages))
      (k'.chain answer.resumption (host'.deliver answer.messages)) := by
  have hworlds := hhosts.world.mapMailbox
    (f := fun m => answer.messages.foldl Mailbox.deliver m) fun _ _ t _ => unhurried.good t
  have hhosts : unhurried.Hosts (host.deliver answer.messages) (host'.deliver answer.messages) :=
    unhurried.hosts hworlds
  exact unhurried.uniform.chains_resume hhosts hprocess hk _

/-- Two ways to begin a run, each given by the first stops that it may come to, that have the same
sessions. -/
def StartsAlike (linker : Linker) (start start' : Halt → Prop) : Prop :=
  ∀ answers reasons,
    (∀ halt final, start halt → Session linker halt answers reasons final →
      ∃ halt' final', start' halt' ∧ Session linker halt' answers reasons final' ∧
        Agrees final final') ∧
    (∀ halt' final', start' halt' → Session linker halt' answers reasons final' →
      ∃ halt final, start halt ∧ Session linker halt answers reasons final ∧ Agrees final final')

section Sessions

variable {linker : Linker} {module : Module → Prop}
  (hlinker : linker.Built Native.IsErlang module)

include hlinker

/-- A session without preemption has its like with preemption, from ends that belong together. -/
theorem session_of_session {final : Halt} {answers : List Answer} {reasons : List Reason}
    (hsession : Session linker halt answers reasons final) :
    ∀ {halt' : Halt}, unhurried.Halts halt halt' →
      ∃ final', Session linker halt' answers reasons final' ∧ Agrees final final' := by
  -- The induction is on the session without preemption. Each answer in it becomes one answer and
  -- some turns in the other.
  induction hsession with
  | @ended halt answers hended =>
    intro halt' h
    refine ⟨halt', .ended ?_, agrees_of_halts h⟩
    cases h with
    | suspended => exact (hended _ rfl).elim
    | _ =>
      intro k hk
      cases hk
  | waiting hk =>
    intro halt' h
    have hagrees := agrees_of_halts h
    cases h with
    | suspended _ _ hconts _ =>
      have hreason := hconts.reason_eq
      exact ⟨_, hreason ▸ .waiting (hreason ▸ hk), hagrees⟩
  | turn hk _ _ _ =>
    intro halt' h
    cases h with
    | suspended _ _ _ hwake => exact (reason_ne_yield hwake hk).elim
  | @answered _ _ fuel next final answer answers reasons hk hresume _ ih =>
    intro halt' h
    cases h with
    | suspended hprocess hhosts hconts _ =>
      have hchains := chains_of_answer hhosts hprocess hconts answer
      have hreason := hconts.reason_eq
      obtain ⟨next', hnext, hleads⟩ :=
        leads_of_ends hlinker (Chain.ends_iff_resume.2 ⟨fuel, hresume⟩) hchains
      obtain ⟨final', hlater, hagrees⟩ := ih hnext
      obtain ⟨first', hends', hfirst'⟩ := hleads _ _ _ hlater
      obtain ⟨fuel', hresume'⟩ := Chain.ends_iff_resume.1 hends'
      exact ⟨final', hreason ▸ .answered (hreason ▸ hk) hresume' hfirst', hagrees⟩

/-- A session with preemption has its like without, from chains at the same point. -/
theorem session_of_preempted {final' : Halt} {answers : List Answer} {reasons : List Reason}
    (hsession : Session linker halt' answers reasons final') :
    ∀ {c c' : Chain}, unhurried.Chains c c' → c'.Ends linker halt' →
      ∃ halt final, c.Ends linker halt ∧ Session linker halt answers reasons final ∧
        Agrees final final' := by
  -- A turn that the second process waits for is no part of the session of the first, so the claim
  -- is about chains: those that go on after the turn are related again.
  induction hsession with
  | @ended halt' answers hended =>
    intro c c' h hends'
    rcases ends_of_ends hlinker hends' h with ⟨halt, hends, hhalts⟩ | ⟨_, _, _, rfl, _⟩
    · refine ⟨halt, halt, hends, .ended ?_, agrees_of_halts hhalts⟩
      cases hhalts with
      | suspended => exact (hended _ rfl).elim
      | _ =>
        intro k hk
        cases hk
    · exact (hended _ rfl).elim
  | @waiting host' k' hk' =>
    intro c c' h hends'
    rcases ends_of_ends hlinker hends' h with ⟨halt, hends, hhalts⟩ | ⟨_, _, _, heq, hk, _⟩
    · have hagrees := agrees_of_halts hhalts
      cases hhalts with
      | suspended _ _ hconts _ =>
        have hreason := hconts.reason_eq
        exact ⟨_, _, hends, hreason ▸ .waiting (hreason ▸ hk'), hagrees⟩
    · obtain rfl := Outcome.suspended.inj (congrArg Halt.outcome heq)
      exact (hk' hk).elim
  | @turn host' k' fuel next' final' answers reasons hk' hresume' _ ih =>
    intro c c' h hends'
    rcases ends_of_ends hlinker hends' h with ⟨_, _, hhalts⟩ | ⟨_, _, later, heq, _, hlater, hreach⟩
    · cases hhalts with
      | suspended _ _ hconts hwake => exact (reason_ne_yield hwake (hconts.reason_eq ▸ hk')).elim
    · obtain rfl := congrArg Halt.toHost heq
      obtain rfl := Outcome.suspended.inj (congrArg Halt.outcome heq)
      obtain ⟨halt, final, hends, hsession, hagrees⟩ :=
        ih hlater (Chain.ends_iff_resume.2 ⟨fuel, hresume'⟩)
      exact ⟨halt, final, hreach halt hends, hsession, hagrees⟩
  | @answered host' k' fuel next' final' answer answers reasons hk' hresume' _ ih =>
    intro c c' h hends'
    rcases ends_of_ends hlinker hends' h with ⟨halt, hends, hhalts⟩ | ⟨_, _, _, heq, hk, _⟩
    · cases hhalts with
      | suspended hprocess hhosts hconts _ =>
        have hchains := chains_of_answer hhosts hprocess hconts answer
        have hreason := hconts.reason_eq
        obtain ⟨next, final, hnext, hsession, hagrees⟩ :=
          ih hchains (Chain.ends_iff_resume.2 ⟨fuel, hresume'⟩)
        obtain ⟨fuel, hresume⟩ := Chain.ends_iff_resume.1 hnext
        exact ⟨_, final, hends, hreason ▸ .answered (hreason ▸ hk') hresume hsession, hagrees⟩
    · obtain rfl := Outcome.suspended.inj (congrArg Halt.outcome heq)
      exact (hk' hk).elim

/-- Runs that have ended together have the same sessions. -/
theorem StartsAlike.of_halts (h : unhurried.Halts halt halt')
    (hended : ∀ k, halt'.outcome ≠ .suspended k) :
    StartsAlike linker (· = halt) (· = halt') := by
  intro answers reasons
  constructor
  · rintro _ final rfl hsession
    obtain ⟨final', hsession', hagrees⟩ := session_of_session hlinker hsession h
    exact ⟨halt', final', rfl, hsession', hagrees⟩
  · rintro _ final' rfl hsession'
    cases hsession' with
    | ended _ =>
      refine ⟨halt, halt, rfl, .ended ?_, agrees_of_halts h⟩
      cases h with
      | suspended => exact (hended _ rfl).elim
      | _ =>
        intro k hk
        cases hk
    | waiting => exact (hended _ rfl).elim
    | turn => exact (hended _ rfl).elim
    | answered => exact (hended _ rfl).elim

/-- Chains at the same point have the same sessions. -/
theorem StartsAlike.of_chains (h : unhurried.Chains c c') :
    StartsAlike linker (c.Ends linker) (c'.Ends linker) := by
  intro answers reasons
  refine ⟨fun halt final hends hsession => ?_, fun halt' final' hends' hsession' =>
    session_of_preempted hlinker hsession' h hends'⟩
  obtain ⟨halt', hhalts, hleads⟩ := leads_of_ends hlinker hends h
  obtain ⟨final', hsession', hagrees⟩ := session_of_session hlinker hsession hhalts
  obtain ⟨first', hends', hfirst'⟩ := hleads _ _ _ hsession'
  exact ⟨first', final', hends', hfirst', hagrees⟩

/-- A call of something in two worlds that differ only in their pace. -/
theorem StartsAlike.of_invoke {target : Callable} (htarget : unhurried.GoodCallable target)
    (arguments : List Term) {host host' : Host} (hprocess : host.process = host'.process)
    (hhosts : unhurried.Hosts host host') :
    StartsAlike linker (fun halt => ∃ fuel, invoke linker fuel target arguments host = some halt)
      (fun halt => ∃ fuel, invoke linker fuel target arguments host' = some halt) := by
  have hgood : ∀ l : List Term, ∀ t ∈ l, unhurried.Good t := fun _ t _ => unhurried.good t
  cases target with
  -- A native ends at once, with the same result, since it does not look at the pace.
  | native id f =>
    have hhalts : ∀ halt halt', invoke linker 0 (.native id f) arguments host = some halt →
        invoke linker 0 (.native id f) arguments host' = some halt' →
          unhurried.Halts halt halt' := fun _ _ =>
      unhurried.uniform.native_halts htarget (hgood arguments) hhosts hprocess
    simp only [invoke, exists_const, Option.some.injEq, eq_comm]
    refine .of_halts hlinker (hhalts _ _ rfl rfl) fun k hk => ?_
    split at hk <;> cases hk
  | code ref entry arity captured =>
    have hstart := StartsAlike.of_chains hlinker
      (unhurried.uniform.chains_start hhosts hprocess (hgood (arguments ++ captured)) ref entry)
    unfold StartsAlike at hstart
    simp only [Chain.ends_iff_run] at hstart
    exact hstart

end Sessions

/-- The same process in a world that never preempts. -/
def Host.unhurried (host : Host) : Host :=
  { host with world := { host.world with interval := none } }

/-- The same process in a world that preempts at every `interval`-th check. -/
def Host.preempting (host : Host) (interval : Nat) : Host :=
  { host with world := host.world.preempting interval }

/-- Preemption cannot be seen. A call in a world that never preempts and the same call in a world
that preempts at every `interval`-th check lead to the same sessions: given the same answers the
process waits for the same reasons, and it stops for good in the same way, or not at all in both. -/
theorem call_session_agrees {linker : Linker} {module : Module → Prop}
    (hlinker : linker.Built Native.IsErlang module) (name function : Atom) (arguments : List Term)
    (host : Host) (interval : Nat) (answers : List Answer) (reasons : List Reason) :
    (∀ final, CallSession linker name function arguments host.unhurried answers reasons final →
      ∃ final', CallSession linker name function arguments (host.preempting interval) answers
        reasons final' ∧ Agrees final final') ∧
    (∀ final', CallSession linker name function arguments (host.preempting interval) answers reasons
        final' →
      ∃ final, CallSession linker name function arguments host.unhurried answers reasons final ∧
        Agrees final final') := by
  have hhosts : Machine.unhurried.Hosts host.unhurried (host.preempting interval) :=
    unhurried.hosts (unhurried.worlds rfl rfl)
  -- A name is resolved without regard to the world, so both calls begin alike.
  have hstart : StartsAlike linker
      (fun halt => ∃ fuel,
        callExport linker fuel name function arguments host.unhurried = some halt)
      (fun halt => ∃ fuel,
        callExport linker fuel name function arguments (host.preempting interval) = some halt) := by
    unfold callExport
    cases hresolve : linker.resolve? ⟨name, function, arguments.length⟩ with
    | none =>
      simp only [exists_const, Option.some.injEq, eq_comm]
      exact .of_halts hlinker (.faulted rfl hhosts fun t _ => unhurried.good t)
        fun k hk => by cases hk
    | some target =>
      have htarget : Machine.unhurried.GoodCallable target :=
        unhurried.goodCallable hlinker hresolve
      exact .of_invoke hlinker htarget arguments rfl hhosts
  obtain ⟨hforth, hback⟩ := hstart answers reasons
  constructor
  · rintro final ⟨fuel, halt, hhalt, hsession⟩
    obtain ⟨halt', final', ⟨fuel', hhalt'⟩, hsession', hagrees⟩ :=
      hforth halt final ⟨fuel, hhalt⟩ hsession
    exact ⟨final', ⟨fuel', halt', hhalt', hsession'⟩, hagrees⟩
  · rintro final' ⟨fuel', halt', hhalt', hsession'⟩
    obtain ⟨halt, final, ⟨fuel, hhalt⟩, hsession, hagrees⟩ :=
      hback halt' final' ⟨fuel', hhalt'⟩ hsession'
    exact ⟨final, ⟨fuel, halt, hhalt, hsession⟩, hagrees⟩

/-- A module whose only exported function calls another one, which waits for a message and returns
it. -/
def messengerListing : Listing where
  name := "m"
  exports := #[⟨"f", 0⟩]
  functions := #[
    ⟨⟨"f", 0⟩, 1, #[⟨.label, [.int 1]⟩, ⟨.call, [.int 0, .label 2]⟩, ⟨.ret, []⟩]⟩,
    ⟨⟨"g", 0⟩, 2, #[
      ⟨.label, [.int 2]⟩,
      ⟨.loopRec, [.label 3, .x 0]⟩,
      ⟨.removeMessage, []⟩,
      ⟨.ret, []⟩,
      ⟨.label, [.int 3]⟩,
      ⟨.wait, [.label 2]⟩]⟩]

/-- The module of the listing. -/
def messenger : Module where
  name := "m"
  code := #[192, 0, 56, 0, 6, 0, 192, 1, 72, 13, 0, 2, 0, 75, 6]
  functions := ⟨⟨[(⟨"g", 0⟩, 6), (⟨"f", 0⟩, 0)]⟩, #[(0, ⟨"f", 0⟩), (6, ⟨"g", 0⟩)]⟩
  exports := [⟨⟨"f", 0⟩, 0⟩]

/-- The listing is assembled. -/
theorem toModule_messengerListing : messengerListing.toModule = .ok messenger :=
  eq_ok_of_toOption (by decide +kernel)

/-- A linker with the natives of `erlang` and that module. -/
def messengerLinker : Linker := ((Linker.withErlang.load messenger).link 0).2

/-- The messenger while it waits. -/
def messengerWaiting : Continuation where
  frame := { code := ⟨"m", 0⟩, pc := 6, lastPc := 13, base := 0 }
  registers := #[.nil]
  wake := .receive 6 none
  callers := [⟨{ code := ⟨"m", 0⟩, pc := 5, lastPc := 2, base := 0 }, #[]⟩]

/-- Called where nothing preempts it, the messenger waits. -/
theorem callExport_messenger : callExport messengerLinker 10 "m" "f" [] (Host.unhurried {}) =
    some ⟨{}, .suspended messengerWaiting⟩ := by
  decide +kernel

/-- The messenger returns the message that it gets. -/
theorem resume_messenger : resume messengerLinker 10 messengerWaiting .messageArrived
    (Host.deliver {} [.integer 7]) =
      some ⟨{ process := { registers := #[.integer 7] } }, .returned (.integer 7)⟩ := by
  decide +kernel

/-- The call of the messenger, when it is preempted at every check and gets one message, waits once
and returns the message. -/
theorem call_session_agrees_messenger :
    messengerLinker.Built Native.IsErlang (fun m => messengerListing.toModule = .ok m) ∧
      ∃ final, CallSession messengerLinker "m" "f" [] (Host.preempting {} 1)
          [⟨[.integer 7], .messageArrived⟩] [.receive] final ∧
        Agrees ⟨{ process := { registers := #[.integer 7] } }, .returned (.integer 7)⟩ final := by
  have hbuilt : messengerLinker.Built Native.IsErlang
      (fun m => messengerListing.toModule = .ok m) :=
    .link 0 (.load messenger toModule_messengerListing (Linker.built_withErlang _))
  have hsession : Session messengerLinker ⟨{}, .suspended messengerWaiting⟩
      [⟨[.integer 7], .messageArrived⟩] [.receive]
      ⟨{ process := { registers := #[.integer 7] } }, .returned (.integer 7)⟩ :=
    .answered (reason_receive_ne_yield _ _ _ _ _) resume_messenger (.ended fun k hk => by cases hk)
  exact ⟨hbuilt, (call_session_agrees hbuilt "m" "f" [] {} 1 _ _).1 _
    ⟨10, _, callExport_messenger, hsession⟩⟩

end ErlangMachine.Machine
