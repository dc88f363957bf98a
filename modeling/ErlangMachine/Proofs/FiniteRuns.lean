import ErlangMachine.Proofs.CoupledChains
import ErlangMachine.Proofs.Equality
import ErlangMachine.Proofs.FiniteConstants

/-!
# Only finite floats at run time

Floats come up in many places while code runs: constants, the conversion of integers, arithmetic in
natives and in float registers, segments of bit strings. All of these give finite floats or none,
and everything else moves terms around. So the invariant is that no term anywhere has a float in it
that is not finite: `Chain.Finite` says so of a chain, with its process, its world and all
activations that wait, and `Halt.Finite` of what a run leaves behind.

The invariant is a coupling (`finite`), so what commands do is known already. `finite_step` adds
what follows from a command, `Reached` gathers everything that calls come to, and
`floats_stay_finite` puts it together with `Module.finite_constants`. The texts of the modules are
where the invariant can break: a float that is written there is not checked, and `overflowing` has
one that is too large.
-/

namespace ErlangMachine

namespace Machine

variable {host : Host} {arguments : List Term} {fault : Fault}

/-- The coupling that asks for finite floats, and for nothing else. -/
def finite : Coupling where
  leaf := Term.IsFinite
  entry _ _ := True
  handler _ := True
  offset _ := True
  module _ := True
  stack _ stack := ∀ t ∈ stack, t.Finite
  pace := Eq
  yields := Eq
  abroad := Term.Finite
  native f := f.Keeps Term.IsFinite ∧ f.Posts Term.IsFinite
  error _ := True
  constant _ := True
  valueTable _ := True
  arityTable _ := True

/-- Nothing that a host holds has a float in it that is not finite. -/
structure Host.Finite (host : Host) : Prop where
  /-- Messages, those sent to others among them, and what others hold on to. -/
  world : ∀ t ∈ host.world.terms, t.Finite
  /-- Registers, stack slots and the fault that was received last. -/
  process : ∀ t ∈ host.process.terms, t.Finite
  /-- Float registers. -/
  floats : ∀ x ∈ host.process.floats, x.isFinite

/-- A waiting activation that holds no float which is not finite. -/
def Caller.Finite (caller : Caller) : Prop := ∀ t ∈ caller.terms, t.Finite

/-- A chain that holds no float which is not finite. -/
structure Chain.Finite (c : Chain) : Prop where
  /-- The process and its world. -/
  host : c.state.toHost.Finite
  /-- The running activation: prefetched sources, and a tuple under construction. -/
  frame : ∀ t ∈ c.state.frame.terms, t.Finite
  /-- The activations that wait. -/
  callers : ∀ caller ∈ c.callers, caller.Finite

/-- The terms that a suspended activation waits with. -/
def Wake.terms : Wake → List Term
  | .yield _ => []
  | .receive _ timeout => timeout.elim [] fun after => [after.2]

/-- The terms that a run ends with. -/
def Outcome.terms : Outcome → List Term
  | .returned value => [value]
  | .suspended k => k.terms ++ k.wake.terms
  | .faulted fault => fault.terms
  | .broken _ => []

/-- A run that leaves no float behind which is not finite. -/
structure Halt.Finite (halt : Halt) : Prop where
  /-- The process and its world. -/
  host : halt.toHost.Finite
  /-- The result, the fault, or the suspended chain. -/
  outcome : ∀ t ∈ halt.outcome.terms, t.Finite

/-- What a step comes to holds no float which is not finite. -/
def Progress.Finite : Progress → Prop
  | .running c => c.Finite
  | .halted halt => halt.Finite

/-! ## The coupling -/

/-- What a world holds, by its parts. -/
theorem finite_world {w : World} : (∀ t ∈ w.terms, t.Finite) ↔ finite.Worlds w w := by
  constructor
  · intro h
    refine ⟨rfl, rfl, fun t ht => h t ?_, fun m hm => ⟨h m.1 ?_, h m.2 ?_⟩, fun t ht => h t ?_⟩
    · exact List.mem_append_left _ (List.mem_append_left _ ht)
    · refine List.mem_append_left _ (List.mem_append_right _ (List.mem_flatMap.2 ⟨m, hm, ?_⟩))
      exact List.mem_cons_self
    · refine List.mem_append_left _ (List.mem_append_right _ (List.mem_flatMap.2 ⟨m, hm, ?_⟩))
      exact List.mem_cons_of_mem _ List.mem_cons_self
    · exact List.mem_append_right _ ht
  · intro h t ht
    rcases List.mem_append.1 ht with ht | ht
    · rcases List.mem_append.1 ht with ht | ht
      · exact h.messages t ht
      · obtain ⟨m, hm, ht⟩ := List.mem_flatMap.1 ht
        obtain ⟨hreceiver, hmessage⟩ := h.sent m hm
        rcases List.mem_cons.1 ht with rfl | ht
        · exact hreceiver
        · exact List.mem_singleton.1 ht ▸ hmessage
    · exact h.kept t ht

/-- What a process holds, by its parts. -/
theorem finite_process {p : Process} (hfloats : ∀ x ∈ p.floats, x.isFinite) :
    (∀ t ∈ p.terms, t.Finite) ↔ finite.GoodProcess p ∧ ∀ t ∈ p.stack, t.Finite := by
  unfold Process.terms
  constructor
  · intro h
    refine ⟨⟨fun t ht => h t ?_, hfloats, fun fault hfault t ht => h t ?_⟩, fun t ht => h t ?_⟩
    · exact List.mem_append_left _ (List.mem_append_left _ (Array.mem_toList_iff.2 ht))
    · rw [hfault]
      exact List.mem_append_right _ ht
    · exact List.mem_append_left _ (List.mem_append_right _ ht)
  · rintro ⟨hp, hstack⟩ t ht
    rcases List.mem_append.1 ht with ht | ht
    · rcases List.mem_append.1 ht with ht | ht
      · exact hp.registers t (Array.mem_toList_iff.1 ht)
      · exact hstack t ht
    · cases hlast : p.lastFault with
      | none =>
        rw [hlast] at ht
        cases ht
      | some fault =>
        rw [hlast] at ht
        exact hp.lastFault fault hlast t ht

/-- A host belongs to itself if it holds finite floats only. -/
theorem hosts_finite (h : host.Finite) : finite.Hosts host host :=
  have hprocess := (finite_process h.floats).1 h.process
  ⟨finite_world.1 h.world, hprocess.1, hprocess.2⟩

/-- The first of two hosts that belong together holds finite floats only. -/
theorem Host.finite_of_hosts {host' : Host} (h : finite.Hosts host host') : host.Finite where
  world := finite_world.2 ⟨rfl, rfl, h.world.messages, h.world.sent, h.world.kept⟩
  process := (finite_process h.process.floats).2 ⟨h.process, h.slots⟩
  floats := h.process.floats

/-- What a frame holds, by its parts. -/
theorem finite_frame {f : Frame} : (∀ t ∈ f.terms, t.Finite) ↔ finite.GoodFrame f := by
  unfold Frame.terms
  constructor
  · intro h
    refine ⟨trivial, trivial, fun _ _ => trivial, fun draft hdraft t ht => h t ?_, h _ ?_, h _ ?_⟩
    · rw [hdraft]
      exact List.mem_cons_of_mem _ (List.mem_cons_of_mem _ (Array.mem_toList_iff.2 ht))
    · exact List.mem_cons_self
    · exact List.mem_cons_of_mem _ List.mem_cons_self
  · intro h t ht
    rcases List.mem_cons.1 ht with rfl | ht
    · exact h.first
    · rcases List.mem_cons.1 ht with rfl | ht
      · exact h.second
      · cases htuple : f.tuple with
        | none =>
          rw [htuple] at ht
          cases ht
        | some draft =>
          rw [htuple] at ht
          exact h.tuple draft htuple t (Array.mem_toList_iff.1 ht)

/-- A check for preemption leaves the terms of a world alone. -/
theorem worlds_checkYield {w : World} (h : finite.Worlds w w) :
    finite.Worlds w.checkYield.2 w.checkYield.2 := by
  unfold World.checkYield
  cases w.interval with
  | none => exact h
  | some interval =>
    dsimp only
    split
    · exact ⟨rfl, rfl, h.messages, h.sent, h.kept⟩
    · exact ⟨rfl, rfl, h.messages, h.sent, h.kept⟩

/-- A native that makes no other floats leaves a finite world and gives a finite result or fault. -/
theorem finite_native {f : Native} (hf : finite.native f) {w : World}
    (harguments : ∀ t ∈ arguments, t.Finite) (hw : finite.Worlds w w) :
    finite.GoodResult (f arguments w).1 ∧ finite.Worlds (f arguments w).2 (f arguments w).2 := by
  obtain ⟨hkeeps, hposts⟩ := hf
  obtain ⟨hresult, hmessages⟩ := hkeeps arguments w harguments hw.messages
  obtain ⟨hsent, hkept⟩ := hposts arguments w harguments
  refine ⟨?_, rfl, rfl, hmessages, fun m hm => ?_, fun t ht => ?_⟩
  · cases hcase : (f arguments w).1 with
    | ok t | error fault =>
      rw [hcase] at hresult
      exact hresult
  · rcases hsent m hm with hm | hm
    · exact hw.sent m hm
    · exact hm
  · rw [hkept] at ht
    exact hw.kept t ht

/-- The coupling asks the same everywhere. -/
theorem uniform_finite : finite.Uniform where
  leaf t h := by
    cases t with
    | float x => exact (h x rfl).elim
    | _ => trivial
  floats := Term.floatLaws_isFinite
  abroad _ h := h
  entry _ _ := trivial
  handler _ := trivial
  offset _ := trivial
  module _ := trivial
  error _ := trivial
  stack _ _ := Iff.rfl
  yields _ h := h.symm
  native f arguments w w' hf harguments hworlds := by
    obtain rfl := World.eq_of_calm hworlds.calm hworlds.pace
    exact ⟨rfl, finite_native hf harguments hworlds⟩
  checkYield w w' hworlds := by
    obtain rfl := World.eq_of_calm hworlds.calm hworlds.pace
    exact ⟨rfl, worlds_checkYield hworlds⟩

/-! ## Steps -/

/-- What a waiting activation holds, by its parts. -/
theorem finite_caller {caller : Caller} : caller.Finite ↔
    finite.GoodFrame caller.frame ∧ ∀ t ∈ caller.registers, t.Finite := by
  rw [← finite_frame]
  constructor
  · intro h
    refine ⟨fun t ht => h t (List.mem_append_left _ ht), fun t ht => h t ?_⟩
    exact List.mem_append_right _ (Array.mem_toList_iff.2 ht)
  · rintro ⟨hframe, hregisters⟩ t ht
    rcases List.mem_append.1 ht with ht | ht
    · exact hframe t ht
    · exact hregisters t (Array.mem_toList_iff.1 ht)

/-- Waiting activations belong to themselves if they hold finite floats only. -/
theorem waits_finite {callers : List Caller} (h : ∀ caller ∈ callers, caller.Finite) :
    List.Forall₂ finite.Waits callers callers :=
  List.forall₂_same.2 fun caller hcaller =>
    ⟨rfl, rfl, (finite_caller.1 (h caller hcaller)).1, (finite_caller.1 (h caller hcaller)).2⟩

/-- The first of two lists of waiting activations that belong together holds finite floats only. -/
theorem finite_of_waits {callers callers' : List Caller}
    (h : List.Forall₂ finite.Waits callers callers') : ∀ caller ∈ callers, caller.Finite :=
  fun caller hcaller => finite_caller.2 (Coupling.good_of_waits h caller hcaller)

/-- The first of two chains that belong together holds finite floats only. -/
theorem finite_of_chains {c c' : Chain} (h : finite.Chains c c') : c.Finite :=
  ⟨Host.finite_of_hosts (uniform_finite.hosts (s := c.state.begin) h.state),
    finite_frame.2 { h.state.goodFrame with }, finite_of_waits h.callers⟩

/-- The first of two ends that belong together holds finite floats only. -/
theorem finite_of_halts {halt halt' : Halt} (h : finite.Halts halt halt') : halt.Finite := by
  cases h with
  | returned _ hhosts hvalue =>
    exact ⟨Host.finite_of_hosts hhosts, fun t ht => List.mem_singleton.1 ht ▸ hvalue⟩
  | faulted _ hhosts hfault => exact ⟨Host.finite_of_hosts hhosts, hfault⟩
  | broken error hhosts => exact ⟨Host.finite_of_hosts hhosts, fun t ht => by cases ht⟩
  | @suspended _ _ k _ _ hhosts hk hwake =>
    refine ⟨Host.finite_of_hosts hhosts, fun t ht => ?_⟩
    have hinnermost := finite_caller.2 ⟨hk.innermost.frame, hk.innermost.registers⟩
    rcases List.mem_append.1 ht with ht | ht
    · rcases List.mem_append.1 ht with ht | ht
      · exact hinnermost t ht
      · obtain ⟨caller, hcaller, ht⟩ := List.mem_flatMap.1 ht
        exact finite_of_waits hk.callers caller hcaller t ht
    · cases hcase : k.wake with
      | yield retry =>
        rw [hcase] at ht
        cases ht
      | receive target timeout =>
        rw [hcase] at ht hwake
        cases timeout with
        | none => cases ht
        | some after => exact List.mem_singleton.1 ht ▸ hwake after rfl

/-- The first of what two steps come to holds finite floats only. -/
theorem finite_of_follows {p q : Progress} (h : finite.Follows p q) : p.Finite := by
  cases h with
  | running hchains => exact finite_of_chains hchains
  | yielded _ hchains => exact finite_of_chains hchains
  | halted hhalts => exact finite_of_halts hhalts

/-- A step of a chain keeps its floats finite. -/
theorem finite_step {linker : Linker} {c : Chain} (hc : c.Finite)
    (hlaws : ∀ code, linker.get? c.state.frame.code = some code → finite.Laws linker code) :
    (c.step linker).Finite := by
  have hhosts := hosts_finite hc.host
  have hs : finite.Related c.state c.state :=
    ⟨rfl, rfl, hhosts.world, hhosts.process, hhosts.slots, finite_frame.1 hc.frame⟩
  have hcallers := waits_finite hc.callers
  refine finite_of_follows (q := c.step linker) ?_
  cases hcode : linker.get? c.state.frame.code with
  | none =>
    rw [Chain.step_eq_abort hcode]
    exact Coupling.abort_follows _ hhosts hcallers
  | some code =>
    rw [Chain.step_eq_settle hcode]
    obtain hresults | ⟨mark, world, hworld, hrun⟩ :=
      Coupling.results_execute (hlaws code hcode) c.callers hs (fun _ _ _ => trivial)
        fun _ _ _ _ => ⟨trivial, fun command _ _ => ⟨Coupling.fits_of_forall (fun _ => trivial)
          (fun _ => trivial) (fun _ => trivial) (fun _ => trivial) command, fun _ _ _ => trivial⟩⟩
    · exact uniform_finite.settle_follows hresults hcallers
    · have hwake : finite.GoodWake (.yield true) := rfl
      have hnoted : finite.Related (c.state.noted mark world c.state.frame.pc)
          (c.state.noted mark world c.state.frame.pc) :=
        ⟨rfl, rfl, hworld, hs.goodProcess, hs.stack, { hs.goodFrame with }⟩
      rw [hrun]
      exact uniform_finite.suspend_follows hnoted hcallers hwake

/-! ## Whole runs -/

section Runs

variable {linker : Linker}

/-- Chains with finite floats keep them finite until they halt. -/
theorem finite_run (hlaws : ∀ ref code, linker.get? ref = some code → finite.Laws linker code)
    {fuel : Nat} {c : Chain} (hc : c.Finite) {halt : Halt} (h : c.run linker fuel = some halt) :
    halt.Finite := by
  induction fuel generalizing c with
  | zero => cases h
  | succ fuel ih =>
    have hstep := finite_step hc fun code hcode => hlaws _ code hcode
    rw [Chain.run] at h
    cases hcase : c.step linker with
    | running next =>
      rw [hcase] at h hstep
      exact ih hstep h
    | halted halt' =>
      rw [hcase] at h hstep
      exact Option.some.inj h ▸ hstep

/-- The chain of a call. -/
theorem finite_start (hhost : host.Finite) (harguments : ∀ t ∈ arguments, t.Finite)
    (module : ModuleRef) (entry : Nat) : (Chain.start module entry arguments host).Finite :=
  finite_of_chains
    (uniform_finite.chains_start (hosts_finite hhost) rfl harguments module entry)

/-- A suspended chain goes on. -/
theorem finite_chain (hhost : host.Finite) {k : Continuation} (hk : ∀ t ∈ k.terms, t.Finite)
    (r : Resumption) : (k.chain r host).Finite := by
  have hinnermost : Caller.Finite ⟨k.frame, k.registers⟩ :=
    fun t ht => hk t (List.mem_append_left _ ht)
  obtain ⟨hframe, hregisters⟩ := finite_caller.1 hinnermost
  have hcallers : ∀ caller ∈ k.callers, caller.Finite := fun caller hcaller t ht =>
    hk t (List.mem_append_right _ (List.mem_flatMap.2 ⟨caller, hcaller, ht⟩))
  exact finite_of_chains (uniform_finite.chains_resume (hosts_finite hhost) rfl
    ⟨⟨rfl, rfl, hframe, hregisters⟩, waits_finite hcallers, rfl⟩ r)

/-- A call by name. -/
theorem finite_callExport
    (hlaws : ∀ ref code, linker.get? ref = some code → finite.Laws linker code)
    (hresolve : ∀ id target, linker.resolve? id = some target → finite.GoodCallable target)
    (hhost : host.Finite) (harguments : ∀ t ∈ arguments, t.Finite) {fuel : Nat}
    {module function : Atom} {halt : Halt}
    (h : callExport linker fuel module function arguments host = some halt) : halt.Finite := by
  unfold callExport at h
  cases htarget : linker.resolve? ⟨module, function, arguments.length⟩ with
  | none =>
    rw [htarget] at h
    cases h
    -- The fault that there is no such function is an atom.
    refine ⟨hhost, fun t ht => ?_⟩
    obtain rfl := List.mem_singleton.1 ht
    trivial
  | some target =>
    rw [htarget] at h
    have hgood := hresolve _ _ htarget
    cases target with
    | code ref entry arity captured =>
      have hall := List.forall_mem_append.2 ⟨harguments, hgood.2⟩
      exact finite_run hlaws (finite_start hhost hall ref entry) h
    | native id f =>
      exact finite_of_halts
        (uniform_finite.native_halts hgood harguments (hosts_finite hhost) rfl h h)

/-- What calls come to that are given finite floats only, in their arguments and by their hosts: how
they end, and all that they go through, step after step and however often they wait. -/
inductive Reached (linker : Linker) : Progress → Prop where
  /-- A call ends, or waits. -/
  | call {fuel : Nat} {module function : Atom} {arguments : List Term} {host : Host} {halt : Halt} :
    (∀ t ∈ arguments, t.Finite) → host.Finite →
    callExport linker fuel module function arguments host = some halt →
    Reached linker (.halted halt)
  /-- A call of code begins. -/
  | start {name function : Atom} {arguments captured : List Term} {host : Host} {module : ModuleRef}
      {entry arity : Nat} : (∀ t ∈ arguments, t.Finite) → host.Finite →
    linker.resolve? ⟨name, function, arguments.length⟩ =
      some (.code module entry arity captured) →
    Reached linker (.running (Chain.start module entry (arguments ++ captured) host))
  /-- A chain takes a step. -/
  | step {c : Chain} : Reached linker (.running c) → Reached linker (c.step linker)
  /-- A chain that waits goes on, after messages have arrived or anything else has happened. -/
  | resume {before after : Host} {k : Continuation} {r : Resumption} :
    Reached linker (.halted ⟨before, .suspended k⟩) → after.Finite →
    Reached linker (.running (k.chain r after))

/-- Everything that is reached has finite floats only, if the laws of the coupling hold. -/
theorem Reached.finite (hlaws : ∀ ref code, linker.get? ref = some code → finite.Laws linker code)
    (hresolve : ∀ id target, linker.resolve? id = some target → finite.GoodCallable target)
    {p : Progress} (h : Reached linker p) : p.Finite := by
  induction h with
  | call harguments hhost hcall => exact finite_callExport hlaws hresolve hhost harguments hcall
  | start harguments hhost htarget =>
    obtain ⟨-, hcaptured⟩ := hresolve _ _ htarget
    exact finite_start hhost (List.forall_mem_append.2 ⟨harguments, hcaptured⟩) _ _
  | step _ ih => exact finite_step ih fun code hcode => hlaws _ code hcode
  | resume _ hafter ih =>
    exact finite_chain hafter (fun t ht => ih.outcome t (List.mem_append_left _ ht)) _

/-- What a linker binds names to may be called. -/
theorem goodCallable_of_resolve {module : Module → Prop}
    (hlinker : linker.Built Native.IsErlang module) {id : FunctionId} {target : Callable}
    (h : linker.resolve? id = some target) : finite.GoodCallable target := by
  cases target with
  | native id' f =>
    obtain ⟨g, hg, rfl⟩ := hlinker.resolve?_native h
    have hkeeps := hg.keeps Term.isFinite_of_isPlain Term.floatLaws_isFinite
    exact ⟨hkeeps.ofArity Term.isFinite_of_isPlain _, hg.posts.ofArity _⟩
  | code ref entry arity captured =>
    obtain ⟨rfl, -⟩ := Linker.resolve?_code h
    exact ⟨trivial, fun t ht => by cases ht⟩

/-- Only finite floats exist at run time, if none but finite ones are written in the texts of the
modules: for every linker that was built from the natives of `erlang` and such modules, the
constants are finite, and so is every float in whatever calls come to that are given finite floats
only. -/
theorem floats_stay_finite
    (hlinker : linker.Built Native.IsErlang fun m =>
      ∃ text, Module.parse text = .ok m ∧ Listing.FiniteText text) :
    (∀ ref code, linker.get? ref = some code → ∀ t ∈ code.module.constants, t.Finite) ∧
      ∀ p, Reached linker p → p.Finite := by
  have hconstants : ∀ ref code, linker.get? ref = some code →
      ∀ t ∈ code.module.constants, t.Finite := by
    intro ref code hcode
    obtain ⟨text, hparse, htext⟩ := hlinker.loaded hcode
    exact Module.finite_constants hparse htext
  have hresolve : ∀ id target, linker.resolve? id = some target → finite.GoodCallable target :=
    fun _ _ => goodCallable_of_resolve hlinker
  refine ⟨hconstants, fun p => Reached.finite (fun ref code hcode => ?_) hresolve⟩
  refine uniform_finite.laws (hconstants ref code hcode) (fun i target htarget => ?_) hresolve
  -- An import was bound by an earlier state of the linker, in which the name stood for the same.
  obtain ⟨earlier, id, hbuilt, -, hname⟩ := hlinker.binding hcode htarget
  exact goodCallable_of_resolve hbuilt hname

end Runs

/-! ## Two texts -/

open Listing (textOf)
open Operand (tagged)

/-- A module with a function that multiplies its argument by a float and puts the product in front
of a list of floats. -/
def scaling : String :=
  textOf [
    tagged "module" ["m"],
    tagged "exports" ["[" ++ tagged "f" ["1"] ++ "]"],
    tagged "function" ["f", "1", "1"],
    tagged "label" ["1"],
    tagged "gc_bif2" [tagged "f" ["0"], "1", tagged "extfunc" ["erlang", "'*'", "2"],
      tagged "x" ["0"], tagged "float" ["1.5"], tagged "x" ["0"]],
    tagged "put_list" [tagged "x" ["0"], tagged "literal" ["[-2.5e-3]"], tagged "x" ["0"]],
    "return"]

/-- A linker with the module of a text and the natives of `erlang`. -/
def linkerOf (text : String) : Linker := ((Linker.withErlang.load (.ofText text)).link 0).2

/-- The floats in the text are finite, the argument is, and so is the result. -/
theorem floats_stay_finite_scaling :
    (linkerOf scaling).Built Native.IsErlang (fun m =>
      ∃ text, Module.parse text = .ok m ∧ Listing.FiniteText text) ∧
    ∃ halt value, Reached (linkerOf scaling) (.halted halt) ∧ halt.outcome = .returned value ∧
      value = .list [.float ⟨0x4008000000000000⟩, .float ⟨0xbf647ae147ae147b⟩] ∧
      value.Finite := by
  have hruns : (Module.parse scaling).toOption.isSome = true ∧ Listing.FiniteText scaling ∧
      (callExport (linkerOf scaling) 20 "m" "f" [.float ⟨0x4000000000000000⟩] {}).map
        Halt.outcome =
          some (.returned (.list [.float ⟨0x4008000000000000⟩, .float ⟨0xbf647ae147ae147b⟩])) := by
    decide +kernel
  obtain ⟨hsome, htext, hruns⟩ := hruns
  obtain ⟨halt, hcall, houtcome⟩ := Option.map_eq_some_iff.1 hruns
  have hbuilt : (linkerOf scaling).Built Native.IsErlang (fun m =>
      ∃ text, Module.parse text = .ok m ∧ Listing.FiniteText text) :=
    .link 0 (.load _ ⟨scaling, Module.parse_ofText hsome, htext⟩ (Linker.built_withErlang _))
  have hreached : Reached (linkerOf scaling) (.halted halt) :=
    .call (by decide) ⟨by decide, by decide, by decide⟩ hcall
  have hfinite : halt.Finite := (floats_stay_finite hbuilt).2 _ hreached
  refine ⟨hbuilt, halt, _, hreached, houtcome, rfl, hfinite.outcome _ ?_⟩
  rw [houtcome]
  exact List.mem_cons_self

/-- A module with a function that returns a float which is too large. -/
def overflowing : String :=
  textOf [
    tagged "module" ["m"],
    tagged "exports" ["[" ++ tagged "f" ["0"] ++ "]"],
    tagged "function" ["f", "0", "1"],
    tagged "label" ["1"],
    tagged "move" [tagged "float" ["1.0e309"], tagged "x" ["0"]],
    "return"]

/-- The text is accepted, infinity is among the constants of its module, and the function returns
it. -/
theorem overflowing_returns_infinity :
    Module.parse overflowing = .ok (.ofText overflowing) ∧
      .float (.infinity false) ∈ (Module.ofText overflowing).constants ∧
      (callExport (linkerOf overflowing) 20 "m" "f" [] {}).map Halt.outcome =
        some (.returned (.float (.infinity false))) ∧
      ¬ (Term.float (.infinity false)).Finite := by
  have hruns : (Module.parse overflowing).toOption.isSome = true ∧
      .float (.infinity false) ∈ (Module.ofText overflowing).constants ∧
      (callExport (linkerOf overflowing) 20 "m" "f" [] {}).map Halt.outcome =
        some (.returned (.float (.infinity false))) := by
    decide +kernel
  obtain ⟨hsome, hmem, hreturned⟩ := hruns
  exact ⟨Module.parse_ofText hsome, hmem, hreturned, by decide⟩

end Machine

end ErlangMachine
