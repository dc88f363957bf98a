import ErlangMachine.Proofs.ControlFlow

/-!
# The stack after a call

A call leaves the stack as it found it. Whether it ends with a result or with a fault that nothing
caught, after any number of suspensions and through any tail calls, calls and caught faults, the
process has the same slots with the same contents as before. While it runs, no activation writes or
removes a slot that was there before it began: a command leaves those slots alone whatever it comes
to, and so does the step that follows from it, unless the activation is left. Then the slots stay
that were there before the activation that goes on.

The condition is that no source operand reads a catch tag, and that nothing brings one in from
outside. A program that copies a catch tag can end a protected region of one activation in another,
and then a fault cuts the stack back too far. A tag that an earlier run has left in the mailbox does
the same without any source operand that reads it (`invoke_loses_slot`). `invoke_keeps_stack` states
all this. Its proof is `Policy.anchored_of_visits` for the policy that forbids catch tags outside of
slots and nothing else.
-/

namespace ErlangMachine.Machine

/-- The policy that forbids catch tags outside of stack slots, and nothing else. -/
def Policy.untagged : Policy where
  entry _ _ := True
  constant _ _ := True
  valueTable _ _ := True
  arityTable _ _ := True
  error _ := True

/-- The slots that were on the stack when an activation began. -/
def State.found (s : State) : List Term := s.process.stack.drop (s.process.depth - s.frame.base)

/-- The state that a command leaves, whatever it comes to. -/
def leftBy : EStateM.Result Stop State Flow → State
  | .ok _ s => s
  | .error _ s => s

/-- What a step of a chain does not do to the stack. -/
structure Chain.SparesStack (linker : Linker) (c : Chain) : Prop where
  /-- The slots that the running activation found are all there. -/
  base_le : c.state.frame.base ≤ c.state.process.depth
  /-- Its command leaves them alone, also if it raises a fault. -/
  command : ∀ code, linker.get? c.state.frame.code = some code →
    c.state.found <:+ (leftBy ((execute linker code c.callers).run c.state)).process.stack
  /-- The step leaves them alone if the activation goes on or waits for another one. -/
  inward : ∀ next, c.step linker = .running next → c.callers.length ≤ next.callers.length →
    c.state.found <:+ next.state.process.stack
  /-- If the activation ends, then the step leaves alone what the one that goes on has found. -/
  outward : ∀ next, c.step linker = .running next → next.callers.length ≤ c.callers.length →
    next.state.found <:+ c.state.process.stack
  /-- If the chain is suspended, then the step leaves them alone, too. -/
  suspended : ∀ host k, c.step linker = .halted ⟨host, .suspended k⟩ →
    c.state.found <:+ host.process.stack
  /-- If the machine gives up, then the step leaves them alone. -/
  broken : ∀ host e, c.step linker = .halted ⟨host, .broken e⟩ →
    c.state.found <:+ host.process.stack

/-- The untagged policy keeps its promises for all linkers whose natives and constants are free of
catch tags. -/
theorem Policy.laws_untagged {linker : Linker}
    (hlinker : linker.Built (fun _ f => f.Keeps untagged.leaf)
      fun m => ∀ t ∈ m.constants, untagged.Clean t) : untagged.Laws linker where
  ordinary _ _ := trivial
  noModule _ _ _ _ := trivial
  constant _ _ _ t hcode _ ht := hlinker.loaded hcode t (Array.mem_of_getElem? ht)
  noConstant _ _ _ _ _ _ := trivial
  valueTable _ _ _ _ _ _ _ _ _ _ := trivial
  noValueTable _ _ _ _ _ _ := trivial
  arityTable _ _ _ _ _ _ _ _ _ _ := trivial
  noArityTable _ _ _ _ _ _ := trivial
  binding _ _ _ _ hcode h := cleanCallable_of_binding hlinker (fun _ _ _ _ _ _ => trivial) hcode h
  resolve _ _ h := cleanCallable_of_resolve hlinker (fun _ _ _ _ _ _ => trivial) h
  unknown _ _ _ _ _ _ _ _ := trivial
  next _ _ _ _ _ _ _ _ _ := trivial
  fits _ _ _ _ _ command _ _ _ _ _ _ _ :=
    Coupling.fits_of_forall (fun _ => trivial) (fun _ => trivial) (fun _ => trivial)
      (fun _ => trivial) command

namespace Policy

variable {P : Policy} {linker : Linker} {below : List Term}

/-- What an activation found is what its policy says. -/
theorem Keeps.found_eq {s : State} (hs : P.Keeps below s) : s.found = below := by
  obtain ⟨hbase, own, hstack, -⟩ := hs.stack
  unfold State.found Process.depth
  rw [hbase, hstack, List.length_append, Nat.add_sub_cancel, List.drop_left]

/-- A step of an anchored chain spares the stack. -/
theorem Anchored.sparesStack (laws : P.Laws linker) {bottom : List Term} {c : Chain}
    (h : P.Anchored bottom c) (htag : ¬ c.state.ReadsTag linker) : c.SparesStack linker := by
  obtain ⟨below, hs, hwaiting⟩ := h
  have hfound := hs.found_eq
  have hsettled := step_settled laws hs hwaiting htag
  -- The second part is about running the command alone, the others about the step as a whole.
  refine ⟨?_, ?_, ?_, ?_, ?_, ?_⟩
  · rw [hs.base_eq]
    exact hs.suffix.length_le
  · intro code hcode
    rw [hfound]
    rcases execute_cases laws c.callers hcode hs htag with hresults | ⟨s', hheld, hs'⟩
    · cases hrun : (execute linker code c.callers).run c.state with
      | ok flow s =>
        rw [hrun] at hresults
        exact (Keeps.of_related hresults.2).suffix
      | error stop s =>
        rw [hrun] at hresults
        exact (Keeps.of_related hresults.2.2).suffix
    · rw [hheld]
      exact hs'.suffix
  · intro next hstep hle
    rw [hstep] at hsettled
    rw [hfound]
    cases hsettled with
    | running _ _ hinward _ => exact hinward hle
  · intro next hstep hle
    rw [hstep] at hsettled
    cases hsettled with
    | running hkeeps _ _ houtward =>
      rw [hkeeps.found_eq]
      exact (houtward hle).trans hs.suffix
  · intro host k hstep
    rw [hstep] at hsettled
    rw [hfound]
    cases hsettled with
    | suspended hsuffix _ => exact hsuffix
  · intro host e hstep
    rw [hstep] at hsettled
    rw [hfound]
    cases hsettled with
    | broken _ hsuffix => exact hsuffix

/-- A chain that ends with a result or a fault leaves the stack on which it began. -/
theorem Anchored.stack_eq (laws : P.Laws linker) {bottom : List Term} {c : Chain} {halt : Halt}
    (h : P.Anchored bottom c) (htag : ¬ c.state.ReadsTag linker)
    (hstep : c.step linker = .halted halt) (hover : halt.outcome.IsOver) :
    halt.process.stack = bottom := by
  obtain ⟨below, hs, hwaiting⟩ := h
  have hsettled := step_settled laws hs hwaiting htag
  rw [hstep] at hsettled
  cases hsettled with
  | returned hstack => exact hstack
  | faulted hstack => exact hstack
  | broken _ _ => exact hover.elim
  | suspended _ _ => exact hover.elim

end Policy

/-- A call leaves the stack as it found it, and no activation touches what was there before it. -/
theorem invoke_keeps_stack {linker : Linker}
    (hlinker : linker.Built (fun _ f => f.Keeps Policy.untagged.leaf)
      fun m => ∀ t ∈ m.constants, Policy.untagged.Clean t)
    (target : Callable) (htarget : Policy.untagged.CleanCallable target) (arguments : List Term)
    (harguments : ∀ t ∈ arguments, Policy.untagged.Clean t) (host : Host)
    (hhost : Policy.untagged.Fit host) :
    (∀ halt, Stops linker Policy.untagged.Fit target arguments host halt →
      halt.outcome.IsOver → halt.process.stack = host.process.stack) ∧
    ∀ c, Visits linker Policy.untagged.Fit target arguments host c → c.SparesStack linker := by
  have laws := Policy.laws_untagged hlinker
  refine ⟨fun halt hstops hover => ?_, fun c hc => ?_⟩
  · rcases hstops.cases with ⟨c, hc, hstep⟩ | ⟨hprocess, -⟩
    · have hanchored := Policy.anchored_of_visits laws htarget harguments hhost hc
      exact hanchored.stack_eq laws hc.not_readsTag hstep hover
    · rw [hprocess]
  · have hanchored := Policy.anchored_of_visits laws htarget harguments hhost hc
    exact hanchored.sparesStack laws hc.not_readsTag

/-- The call that is held up in a protected region and then catches the fault of its callee, which
has taken two slots, leaves the one slot that it found. -/
theorem invoke_keeps_stack_patched :
    ∃ halt, Stops patchedLinker Policy.untagged.Fit (.code ⟨"m", 0⟩ 4 1 []) [.integer 1] patchedHost
      halt ∧ halt.outcome = .returned patchedFault.catchValue ∧
      halt.process.stack = patchedHost.process.stack := by
  have hlinker : patchedLinker.Built (fun _ f => f.Keeps Policy.untagged.leaf)
      fun m => ∀ t ∈ m.constants, Policy.untagged.Clean t :=
    (built_patchedLinker _).mono (fun _ _ => id) fun _ hm => hm.2
  have hclean : ∀ t ∈ [Term.integer 1], Policy.untagged.Clean t := by
    simp [Policy.Clean, Term.Every, Policy.leaf]
  have htarget : Policy.untagged.CleanCallable (.code ⟨"m", 0⟩ 4 1 []) :=
    ⟨trivial, fun t ht => by cases ht⟩
  have hwaiting : Policy.untagged.Fit patchedWaiting := .of_nil rfl rfl
  have hstops := stops_patched hwaiting
  refine ⟨_, hstops, rfl, ?_⟩
  exact (invoke_keeps_stack hlinker _ htarget _ hclean _ (.of_nil rfl rfl)).1 _ hstops trivial

/-- The process that has sent a catch tag to itself, with two slots on its stack. -/
def leakedKept : Host := { leaked with process.stack := [.atom "second", .atom "first"] }

/-- The fault that the call raises. -/
def leakedFault : Fault :=
  { Fault.ifClause with trace := [.tuple [.atom "m", .atom "f", .integer 0]] }

/-- The process when the call has returned. -/
def leakedLost : Host where
  world := leaked.world
  process :=
    { registers := #[leakedFault.catchValue]
      stack := [.nil, .atom "first"]
      lastFault := some leakedFault }

/-- What a call finds matters, though no source operand in it reads a catch tag. Once a process has
a catch tag of `m` in its mailbox, `m:f/0` comes to a handler with a lower depth than its own base,
takes a slot in the place of the one that is lost and returns. -/
theorem invoke_loses_slot :
    leakingLinker.Built (fun _ _ => True) (fun m => ∃ a, Assembler.Reached a ∧ a.finish = .ok m) ∧
    callExport leakingLinker 20 "m" "leak" [.pid 1] {} = some ⟨leaked, .returned leakedTag⟩ ∧
    (∃ halt, Stops leakingLinker (fun _ => True) (.code ⟨"m", 0⟩ 33 0 []) [] leakedKept halt ∧
      halt.outcome.IsOver ∧ halt.process.stack = [.nil, .atom "first"] ∧
      leakedKept.process.stack = [.atom "second", .atom "first"]) ∧
    ∃ c, Visits leakingLinker (fun _ => True) (.code ⟨"m", 0⟩ 33 0 []) [] leakedKept c ∧
      c.state.frame.base = 2 ∧ c.state.process.depth = 1 ∧ ¬ c.SparesStack leakingLinker := by
  have hclear : (Chain.start ⟨"m", 0⟩ 33 [] leakedKept).Clear leakingLinker :=
    Chain.clear_of_runsClear 20 (by decide +kernel)
  refine ⟨built_leakingLinker, callExport_leaking, ?_, ?_⟩
  · have hinvoke : invoke leakingLinker 20 (.code ⟨"m", 0⟩ 33 0 []) [] leakedKept =
        some ⟨leakedLost, .returned leakedFault.catchValue⟩ := by
      decide +kernel
    refine ⟨_, .first ?_ hinvoke, trivial, rfl, rfl⟩
    rintro _ _ _ _ ⟨rfl⟩
    exact hclear
  · have hrun : ((Chain.start ⟨"m", 0⟩ 33 [] leakedKept).after? leakingLinker 5).map
        (fun c => (c.state.frame.base, c.state.process.depth)) = some (2, 1) := by
      decide +kernel
    obtain ⟨c, hafter, hdepths⟩ := Option.map_eq_some_iff.1 hrun
    obtain ⟨hbase, hdepth⟩ := Prod.mk.inj hdepths
    have hstart : Visits leakingLinker (fun _ => True) (.code ⟨"m", 0⟩ 33 0 []) [] leakedKept
        (Chain.start ⟨"m", 0⟩ 33 [] leakedKept) :=
      .start rfl (hclear _ .refl)
    have hvisits := hstart.passes hclear (Chain.passes_of_after? hafter)
    refine ⟨c, hvisits, hbase, hdepth, fun hspares => ?_⟩
    have hle := hspares.base_le
    rw [hbase, hdepth] at hle
    exact absurd hle (by decide)

end ErlangMachine.Machine
