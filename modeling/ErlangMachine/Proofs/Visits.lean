import ErlangMachine.Proofs.Execution
import ErlangMachine.Proofs.Sessions

/-!
# Everything that a call goes through

A call goes through many chains: one after each step, and one each time that it was suspended and
goes on. `Visits` gathers them and `Stops` gathers the points at which the call stops, for good or
not. Nothing is said about who lets a suspended call go on, when, and what happens to the world in
between. Only the stack has to be left to the process while it waits, and a condition `fit` on
processes and worlds has to hold when it goes on.

Both speak of runs in which no source operand reads a catch tag. Between two suspensions a run has
no choice, so `Chain.Clear` can say it of everything that a chain goes through by itself, and
`Chain.runsClear` decides it for a run that stops.
-/

namespace ErlangMachine.Machine

namespace Chain

/-- A chain comes to another by itself. -/
inductive Passes (linker : Linker) (c : Chain) : Chain → Prop where
  /-- After no step. -/
  | refl : Passes linker c c
  /-- After one more step. -/
  | step {last next : Chain} : Passes linker c last → last.step linker = .running next →
    Passes linker c next

/-- No command on the way of a chain has a source operand that reads a catch tag. -/
def Clear (linker : Linker) (c : Chain) : Prop :=
  ∀ last, c.Passes linker last → ¬ last.state.ReadsTag linker

end Chain

/-- The call is over: it has a result, or a fault that nothing caught. -/
def Outcome.IsOver : Outcome → Prop
  | .returned _ | .faulted _ => True
  | .suspended _ | .broken _ => False

section Visits

variable (linker : Linker) (fit : Host → Prop) (target : Callable) (arguments : List Term)
  (host : Host)

/-- The chains that a call goes through, step by step and however often it waits, in a run in which
no source operand reads a catch tag. When the call goes on, the process has the stack with which it
was suspended and is otherwise one that is fit. -/
inductive Visits : Chain → Prop where
  /-- The call begins. -/
  | start {module : ModuleRef} {entry arity : Nat} {captured : List Term} :
    target = .code module entry arity captured →
    ¬ (Chain.start module entry (arguments ++ captured) host).state.ReadsTag linker →
    Visits (Chain.start module entry (arguments ++ captured) host)
  /-- The chain goes on by itself. -/
  | step {c next : Chain} : Visits c → c.step linker = .running next →
    ¬ next.state.ReadsTag linker → Visits next
  /-- The chain was suspended and goes on. -/
  | resume {c : Chain} {before after : Host} {k : Continuation} {r : Resumption} : Visits c →
    c.step linker = .halted ⟨before, .suspended k⟩ → after.process.stack = before.process.stack →
    fit after → ¬ (k.chain r after).state.ReadsTag linker → Visits (k.chain r after)

/-- The stops that a call comes to, the first and all later ones, in a run in which no source
operand reads a catch tag. -/
inductive Stops : Halt → Prop where
  /-- The call itself stops. -/
  | first {fuel : Nat} {halt : Halt} :
    (∀ module entry arity captured, target = .code module entry arity captured →
      (Chain.start module entry (arguments ++ captured) host).Clear linker) →
    invoke linker fuel target arguments host = some halt → Stops halt
  /-- The call was suspended, went on and stops again. -/
  | later {fuel : Nat} {before after : Host} {k : Continuation} {r : Resumption} {halt : Halt} :
    Stops ⟨before, .suspended k⟩ → after.process.stack = before.process.stack → fit after →
    (k.chain r after).Clear linker → resume linker fuel k r after = some halt → Stops halt

variable {linker fit target arguments host}

/-- No chain that a call goes through reads a catch tag. -/
theorem Visits.not_readsTag {c : Chain} (h : Visits linker fit target arguments host c) :
    ¬ c.state.ReadsTag linker := by
  cases h with
  | start _ hclear => exact hclear
  | step _ _ hclear => exact hclear
  | resume _ _ _ _ hclear => exact hclear

/-- All that a chain passes through belongs to the call if the chain does. -/
theorem Visits.passes {c last : Chain} (h : Visits linker fit target arguments host c)
    (hclear : c.Clear linker) (hpasses : c.Passes linker last) :
    Visits linker fit target arguments host last := by
  induction hpasses with
  | refl => exact h
  | step hpasses hstep ih => exact .step ih hstep (hclear _ (.step hpasses hstep))

/-- A chain passes through what the chain after its first step passes through. -/
theorem Chain.Passes.after {c next last : Chain} (h : next.Passes linker last)
    (hstep : c.step linker = .running next) : c.Passes linker last := by
  induction h with
  | refl => exact .step .refl hstep
  | step _ hlast ih => exact .step ih hlast

/-- A chain that ends does so in a step of a chain that it passes through. -/
theorem Chain.Ends.passes {c : Chain} {halt : Halt} (h : c.Ends linker halt) :
    ∃ last, c.Passes linker last ∧ last.step linker = .halted halt := by
  induction h with
  | halted hstep => exact ⟨_, .refl, hstep⟩
  | running hstep _ ih =>
    obtain ⟨last, hpasses, hlast⟩ := ih
    exact ⟨last, hpasses.after hstep, hlast⟩

/-- A call stops in a step of a chain that it goes through, or it is the call of a native, which
leaves the process alone and is over at once. -/
theorem Stops.cases {halt : Halt} (h : Stops linker fit target arguments host halt) :
    (∃ c, Visits linker fit target arguments host c ∧ c.step linker = .halted halt) ∨
      halt.process = host.process ∧ halt.outcome.IsOver := by
  induction h with
  | @first fuel halt hclear hinvoke =>
    cases htarget : target with
    | native id f =>
      right
      rw [htarget] at hinvoke
      cases hinvoke
      refine ⟨rfl, ?_⟩
      split
      · trivial
      · trivial
    | code module entry arity captured =>
      left
      rw [htarget] at hinvoke
      have hstart := hclear module entry arity captured htarget
      obtain ⟨last, hpasses, hlast⟩ := (Chain.ends_iff_run.2 ⟨fuel, hinvoke⟩ : Chain.Ends linker
        (Chain.start module entry (arguments ++ captured) host) halt).passes
      exact ⟨last, (Visits.start rfl (hstart _ .refl)).passes hstart hpasses, hlast⟩
  | @later fuel before after k r halt _ hstack hfit hclear hresume ih =>
    rcases ih with ⟨c, hvisits, hstep⟩ | ⟨-, hover⟩
    · left
      obtain ⟨last, hpasses, hlast⟩ := (Chain.ends_iff_resume.2 ⟨fuel, hresume⟩).passes
      have hnext := Visits.resume hvisits hstep hstack hfit (hclear _ .refl)
      exact ⟨last, hnext.passes hclear hpasses, hlast⟩
    · exact hover.elim

end Visits

/-! ## Runs that can be checked -/

/-- Whether a term is a catch tag. -/
def isTag : Term → Bool
  | .catchTag .. => true
  | _ => false

/-- A source reads a catch tag if it is a place where one stands. -/
theorem readsTag_place_iff {s : State} {place : Place} :
    (Source.place place).ReadsTag s ↔ (s.at? place).any isTag = true := by
  constructor
  · rintro ⟨handler, outer, h⟩
    rw [h]
    rfl
  · intro h
    cases hat : s.at? place with
    | none =>
      rw [hat] at h
      cases h
    | some t =>
      rw [hat] at h
      cases t with
      | catchTag handler outer => exact ⟨handler, outer, hat⟩
      | _ => cases h

instance (s : State) : (source : Source) → Decidable (source.ReadsTag s)
  | .place _ => decidable_of_iff' _ readsTag_place_iff
  | .constant _ => .isFalse id
  | .float _ => .isFalse id

instance (s : State) (command : Command) : Decidable (command.ReadsTag s) :=
  inferInstanceAs (Decidable (∃ source ∈ command.sources, source.ReadsTag s))

/-- Whether the command about to run reads a catch tag. -/
def State.readsTag (linker : Linker) (s : State) : Bool :=
  ((linker.get? s.frame.code).bind fun code => code.commandAt? s.frame.pc).any fun command =>
    command.ReadsTag s

/-- The check finds every command that reads a catch tag. -/
theorem State.readsTag_of_readsTag {linker : Linker} {s : State} (h : s.ReadsTag linker) :
    s.readsTag linker = true := by
  obtain ⟨code, command, hcode, hcommand, hread⟩ := h
  unfold State.readsTag
  rw [hcode, Option.bind_some, hcommand]
  exact decide_eq_true hread

namespace Chain

variable {linker : Linker}

/-- Whether a chain stops within so many steps and reads no catch tag before. -/
def runsClear (linker : Linker) : Nat → Chain → Bool
  | 0, _ => false
  | fuel + 1, c => !c.state.readsTag linker && match c.step linker with
    | .running next => runsClear linker fuel next
    | .halted _ => true

/-- What follows a chain that runs clear runs clear. -/
theorem runsClear_step {fuel : Nat} {c next : Chain} (h : c.runsClear linker fuel = true)
    (hstep : c.step linker = .running next) : ∃ fuel', next.runsClear linker fuel' = true := by
  cases fuel with
  | zero => cases h
  | succ fuel =>
    rw [runsClear, hstep, Bool.and_eq_true] at h
    exact ⟨fuel, h.2⟩

/-- A chain that runs clear reads no catch tag. -/
theorem not_readsTag_of_runsClear {fuel : Nat} {c : Chain} (h : c.runsClear linker fuel = true) :
    ¬ c.state.ReadsTag linker := by
  intro hread
  cases fuel with
  | zero => cases h
  | succ fuel =>
    rw [runsClear, State.readsTag_of_readsTag hread] at h
    cases h

/-- The check is right about everything that the chain goes through. -/
theorem clear_of_runsClear (fuel : Nat) {c : Chain} (h : c.runsClear linker fuel = true) :
    c.Clear linker := by
  intro last hpasses
  have hlast : ∃ fuel', last.runsClear linker fuel' = true := by
    induction hpasses with
    | refl => exact ⟨fuel, h⟩
    | step _ hstep ih =>
      obtain ⟨fuel', hfuel⟩ := ih
      exact runsClear_step hfuel hstep
  obtain ⟨fuel', hfuel⟩ := hlast
  exact not_readsTag_of_runsClear hfuel

/-- The chain after so many steps, if it has not halted before. -/
def after? (linker : Linker) : Nat → Chain → Option Chain
  | 0, c => some c
  | n + 1, c =>
    match c.step linker with
    | .running next => after? linker n next
    | .halted _ => none

/-- A chain passes through what follows after some steps. -/
theorem passes_of_after? {n : Nat} {c last : Chain} (h : c.after? linker n = some last) :
    c.Passes linker last := by
  induction n generalizing c with
  | zero =>
    cases h
    exact .refl
  | succ n ih =>
    rw [after?] at h
    cases hstep : c.step linker with
    | running next =>
      rw [hstep] at h
      exact (ih h).after hstep
    | halted halt =>
      rw [hstep] at h
      cases h

end Chain

end ErlangMachine.Machine
