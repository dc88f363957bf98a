import ErlangMachine.Machine.Execute
import ErlangMachine.Proofs.Subterms

/-!
# Coupled executions

Two runs of a command are coupled when they start in states that belong together, end in the same
way, and leave states that belong together again. A `Coupling` says what belongs together: both
states have the same process, the same frame but for the mark that leaves out a check for
preemption, and the same world but for its pace, and all that they hold has the properties that the
coupling asks for. A state coupled with itself is a state that satisfies an invariant, so the same
rules serve for comparing two runs and for following one.

`Coupling.Laws` gathers what a coupling must promise. The rules below then say of each action that
commands are made of that it keeps states coupled, and `Coupling.Sim.bind` puts actions together.
-/

namespace ErlangMachine

/-- A world apart from its pace. -/
def World.calm (w : World) : World := { w with interval := none, checks := 0 }

/-- The pace of a world: how often it preempts, and how near it is to doing so. -/
def World.pace (w : World) : Option Nat × Nat := (w.interval, w.checks)

/-- A world is known by its pace and what it is apart from that. -/
theorem World.eq_of_calm {w w' : World} (hcalm : w.calm = w'.calm) (hpace : w.pace = w'.pace) :
    w = w' := by
  obtain ⟨self, mailbox, sent, interval, checks, nextBuffer, kept⟩ := w
  obtain ⟨self', mailbox', sent', interval', checks', nextBuffer', kept'⟩ := w'
  simp only [calm, pace, World.mk.injEq, Prod.mk.injEq] at hcalm hpace
  simp only [hcalm, hpace]

/-- The terms that are neither floats nor closures nor catch tags. -/
def Term.IsPlain : Term → Prop
  | .float _ | .closure .. | .catchTag .. => False
  | _ => True

namespace Machine

/-- A frame apart from the mark that leaves out a check for preemption. -/
def Frame.calm (f : Frame) : Frame := { f with skipYield := false }

/-- Frames that are the same apart from the mark agree in all that does not depend on it. -/
theorem Frame.congr_of_calm {α : Type} {f f' : Frame} (h : f.calm = f'.calm) (view : Frame → α)
    (hview : ∀ f, view f.calm = view f) : view f = view f' := by
  rw [← hview f, h, hview f']

/-- What stands at a place: a register, or a stack slot of the activation. -/
def State.at? (s : State) : Place → Option Term
  | .x n => some (s.process.x n)
  | .y n => if n < s.process.depth - s.frame.base then s.process.stack[n]? else none

/-- The errors that stand for a program that is not well made, as opposed to words that refer to
nothing and a stack that has sunk too low. -/
def Error.IsOrdinary : Error → Prop
  | .unimplementedOpcode .. | .missingEntry .. | .stackBelowBase .. => False
  | _ => True

/-- What two coupled states have in common, and what holds of all that is in them. -/
structure Coupling where
  /-- Holds of every term inside the terms of the state, catch tags in stack slots apart. -/
  leaf : Term → Prop
  /-- Where the code of a module may be entered. -/
  entry : ModuleRef → Nat → Prop
  /-- Holds of the handlers of the activation. -/
  handler : Handler → Prop
  /-- Where the code of the activation may go on. -/
  offset : Nat → Prop
  /-- The module of the activation. -/
  module : ModuleRef → Prop
  /-- Holds of the stack of an activation that found it at some depth. -/
  stack : Nat → List Term → Prop
  /-- How the paces of the two worlds are related. -/
  pace : Option Nat × Nat → Option Nat × Nat → Prop
  /-- How the answers to a check for preemption are related. -/
  yields : Bool → Bool → Prop
  /-- Holds of the terms that the world has for others: what was sent to them and what they hold on
  to. -/
  abroad : Term → Prop
  /-- The natives that may be called. -/
  native : Native → Prop
  /-- The errors that may come up. -/
  error : Error → Prop
  /-- The places in the pool of constants that commands may name. -/
  constant : Nat → Prop
  /-- The value tables that commands may name. -/
  valueTable : Nat → Prop
  /-- The arity tables that commands may name. -/
  arityTable : Nat → Prop

namespace Coupling

variable (C : Coupling)

/-- A term that may stand in a register. -/
def Good (t : Term) : Prop := t.Every C.leaf

/-- A term that may stand in a stack slot: a catch tag may, too. -/
def Slot (t : Term) : Prop :=
  C.Good t ∨ ∃ handler outer, t = .catchTag handler outer ∧ ∀ h ∈ handler :: outer, C.handler h

/-- A fault that may be raised. -/
def GoodFault (fault : Fault) : Prop := ∀ t ∈ fault.terms, C.Good t

/-- The result of a native. -/
def GoodResult : Except Fault Term → Prop
  | .ok t => C.Good t
  | .error fault => C.GoodFault fault

/-- Something that may be called. -/
def GoodCallable : Callable → Prop
  | .native _ native => C.native native
  | .code module entry _ captured => C.entry module entry ∧ ∀ t ∈ captured, C.Good t

/-- A label that may be missing. -/
def Label (label : Option Nat) : Prop := ∀ target ∈ label, C.offset target

/-- Worlds that belong together. -/
structure Worlds (w w' : World) : Prop where
  /-- They differ at most in their pace. -/
  calm : w.calm = w'.calm
  /-- Their paces are related. -/
  pace : C.pace w.pace w'.pace
  /-- The messages are good. -/
  messages : ∀ t ∈ w.mailbox.messages, C.Good t
  /-- Messages to others are of terms that may be abroad, receivers included. -/
  sent : ∀ m ∈ w.sent, C.abroad m.1 ∧ C.abroad m.2
  /-- The terms that others hold on to may be abroad. -/
  kept : ∀ t ∈ w.kept, C.abroad t

/-- A process with good contents, its stack apart. -/
structure GoodProcess (p : Process) : Prop where
  /-- The registers hold good terms. -/
  registers : ∀ t ∈ p.registers, C.Good t
  /-- The float registers hold good floats. -/
  floats : ∀ x ∈ p.floats, C.leaf (.float x)
  /-- The fault that a handler received last is good. -/
  lastFault : ∀ fault ∈ p.lastFault, C.GoodFault fault

/-- A frame with good contents. -/
structure GoodFrame (f : Frame) : Prop where
  /-- The code is that of the activation's module. -/
  module : C.module f.code
  /-- The code may go on at the offset. -/
  pc : C.offset f.pc
  /-- The handlers are good. -/
  handlers : ∀ h ∈ f.handlers, C.handler h
  /-- The elements of the tuple under construction are good. -/
  tuple : ∀ draft ∈ f.tuple, ∀ t ∈ draft.elements, C.Good t
  /-- The first prefetched source is good. -/
  first : C.Good f.fetched.1
  /-- The second prefetched source is good. -/
  second : C.Good f.fetched.2

/-- States that belong together. -/
structure Related (s s' : State) : Prop where
  /-- They have the same process. -/
  process : s.process = s'.process
  /-- They have the same frame, but for the mark that leaves out a check. -/
  frame : s.frame.calm = s'.frame.calm
  /-- Their worlds belong together. -/
  world : C.Worlds s.world s'.world
  /-- The process is good. -/
  goodProcess : C.GoodProcess s.process
  /-- The stack is good. -/
  stack : C.stack s.frame.base s.process.stack
  /-- The frame is good. -/
  goodFrame : C.GoodFrame s.frame

/-- What a coupling promises about the code that runs. -/
structure Laws (linker : Linker) (code : LoadedModule) : Prop where
  /-- Plain terms are good. -/
  plain : ∀ t : Term, t.IsPlain → C.leaf t
  /-- A closure is good where its code may be entered. -/
  closure : ∀ module entry arity environment,
    C.leaf (.closure module entry arity environment) ↔ C.entry module entry
  /-- Where a catch tag counts as a good term, its handlers are good. -/
  tag : ∀ handler outer, C.leaf (.catchTag handler outer) → ∀ h ∈ handler :: outer, C.handler h
  /-- Finite floats are good. -/
  finite : ∀ x : Binary64, x.isFinite → C.leaf (.float x)
  /-- The negation of a good float is good. -/
  neg : ∀ x : Binary64, C.leaf (.float x) → C.leaf (.float x.neg)
  /-- An integer as a float is good. -/
  ofInt : ∀ i : Int64, C.leaf (.float (.ofInt i.toInt))
  /-- Good terms may go abroad. -/
  abroad : ∀ t, C.Good t → C.abroad t
  /-- The activation's code may be entered where it may go on. -/
  entry : ∀ module target, C.module module → C.offset target → C.entry module target
  /-- A slot of the activation holds what a slot may hold. -/
  stackRead : ∀ base stack n t, C.stack base stack → n < stack.length - base →
    stack[n]? = some t → C.Slot t
  /-- The activation may write its slots. -/
  stackWrite : ∀ base stack n t, C.stack base stack → n < stack.length - base → C.Slot t →
    C.stack base (stack.set n t)
  /-- The activation may take slots. -/
  stackAllocate : ∀ base stack n, C.stack base stack → C.stack base (List.replicate n .nil ++ stack)
  /-- The activation may give its slots back. -/
  stackRelease : ∀ base stack n, C.stack base stack → base ≤ stack.length →
    n ≤ stack.length - base → C.stack base (stack.drop n)
  /-- If the stack can sink too low, then that error may come up. -/
  stackBase : ∀ base stack, C.stack base stack → stack.length < base →
    C.error (.stackBelowBase base stack.length)
  /-- A handler that goes back to the present depth is good. -/
  handler : ∀ base stack kind target, C.stack base stack → C.offset target →
    C.handler ⟨kind, target, stack.length⟩
  /-- The errors of programs that are not well made may come up. -/
  ordinary : ∀ e : Error, e.IsOrdinary → C.error e
  /-- A constant is good. -/
  constant : ∀ i, C.constant i → ∀ t, code.module.constants[i]? = some t → C.Good t
  /-- If a constant can be missing, then that error may come up. -/
  noConstant : ∀ i, C.constant i → code.module.constants[i]? = none →
    C.error (.missingEntry "constant" i)
  /-- The targets of a value table are offsets to go on at. -/
  valueTable : ∀ i, C.valueTable i → ∀ table, code.module.valueTables[i]? = some table →
    ∀ value target, table.lookup value = some target → C.offset target
  /-- If a value table can be missing, then that error may come up. -/
  noValueTable : ∀ i, C.valueTable i → code.module.valueTables[i]? = none →
    C.error (.missingEntry "value table" i)
  /-- The targets of an arity table are offsets to go on at. -/
  arityTable : ∀ i, C.arityTable i → ∀ table, code.module.arityTables[i]? = some table →
    ∀ arity target, table.lookup arity = some target → C.offset target
  /-- If an arity table can be missing, then that error may come up. -/
  noArityTable : ∀ i, C.arityTable i → code.module.arityTables[i]? = none →
    C.error (.missingEntry "arity table" i)
  /-- What an import is bound to may be called. -/
  binding : ∀ i target, code.binding? i = some target → C.GoodCallable target
  /-- What a name stands for may be called. -/
  resolve : ∀ id target, linker.resolve? id = some target → C.GoodCallable target
  /-- A native gives the same result in worlds that belong together, and leaves such worlds. -/
  native : ∀ f arguments w w', C.native f → (∀ t ∈ arguments, C.Good t) → C.Worlds w w' →
    (f arguments w).1 = (f arguments w').1 ∧ C.GoodResult (f arguments w).1 ∧
      C.Worlds (f arguments w).2 (f arguments w').2
  /-- A check for preemption gives related answers and leaves worlds that belong together. -/
  checkYield : ∀ w w', C.Worlds w w' →
    C.yields w.checkYield.1 w'.checkYield.1 ∧ C.Worlds w.checkYield.2 w'.checkYield.2

/-! ## Actions that keep states coupled -/

/-- A good fault, or an error that may come up. -/
def GoodStop : Stop → Prop
  | .fault fault => C.GoodFault fault
  | .broken e => C.error e

/-- Results that belong together: values that belong together or the same stop, and in either case
states that belong together. What holds of the values may depend on the state that goes with the
first. -/
def Results {α : Type} (V : α → α → State → Prop) :
    EStateM.Result Stop State α → EStateM.Result Stop State α → Prop
  | .ok a s, .ok a' s' => V a a' s ∧ C.Related s s'
  | .error stop s, .error stop' s' => stop = stop' ∧ C.GoodStop stop ∧ C.Related s s'
  | _, _ => False

/-- Actions that lead from states that belong together to results that do. -/
def Sim {α : Type} (V : α → α → State → Prop) (m m' : Exec α) : Prop :=
  ∀ s s', C.Related s s' → C.Results V (m.run s) (m'.run s')

/-- One value, which has a property. -/
def Same {α : Type} (Q : α → Prop) (a a' : α) (_ : State) : Prop := a = a' ∧ Q a

/-- Nothing is said of the value. -/
def Done (_ _ : Unit) (_ : State) : Prop := True

variable {C}

section Rules

variable {α β : Type} {V : α → α → State → Prop} {W : β → β → State → Prop}

/-- Results that belong together still do where less is said of the values. -/
theorem Results.mono {W : α → α → State → Prop} {r r' : EStateM.Result Stop State α}
    (h : C.Results V r r') (hVW : ∀ a a' s, V a a' s → W a a' s) : C.Results W r r' := by
  cases r with
  | ok a s =>
    cases r' with
    | ok a' s' => exact ⟨hVW a a' s h.1, h.2⟩
    | error stop' s' => exact h.elim
  | error stop s =>
    cases r' with
    | ok a' s' => exact h.elim
    | error stop' s' => exact h

theorem Sim.pure {a a' : α} (h : ∀ s, V a a' s) : C.Sim V (Pure.pure a) (Pure.pure a') := by
  intro s s' hs
  exact ⟨h s, hs⟩

/-- Results that belong together, and what follows on them. -/
theorem Results.bind {m m' : Exec α} {k k' : α → Exec β} {s s' : State}
    (hm : C.Results V (m.run s) (m'.run s'))
    (hk : ∀ a a' s s', V a a' s → C.Related s s' → C.Results W ((k a).run s) ((k' a').run s')) :
    C.Results W ((m >>= k).run s) ((m' >>= k').run s') := by
  rw [EStateM.run_bind, EStateM.run_bind]
  cases hr : m.run s with
  | ok a s₁ =>
    cases hr' : m'.run s' with
    | ok a' s₁' =>
      rw [hr, hr'] at hm
      exact hk a a' s₁ s₁' hm.1 hm.2
    | error stop' s₁' =>
      rw [hr, hr'] at hm
      exact hm.elim
  | error stop s₁ =>
    cases hr' : m'.run s' with
    | ok a' s₁' =>
      rw [hr, hr'] at hm
      exact hm.elim
    | error stop' s₁' =>
      rw [hr, hr'] at hm
      exact hm

/-- One action after another, where the second may rely on the state that the first leaves. -/
theorem Sim.bindAt {m m' : Exec α} {k k' : α → Exec β} (hm : C.Sim V m m')
    (hk : ∀ a a' s s', V a a' s → C.Related s s' → C.Results W ((k a).run s) ((k' a').run s')) :
    C.Sim W (m >>= k) (m' >>= k') :=
  fun s s' hs => (hm s s' hs).bind hk

theorem Sim.bind {m m' : Exec α} {k k' : α → Exec β} (hm : C.Sim V m m')
    (hk : ∀ a a' s, V a a' s → C.Sim W (k a) (k' a')) : C.Sim W (m >>= k) (m' >>= k') :=
  hm.bindAt fun a a' s s' ha hs => hk a a' s ha s s' hs

theorem Sim.seq {m m' : Exec Unit} {k k' : Unit → Exec β} (hm : C.Sim Done m m')
    (hk : C.Sim W (k ()) (k' ())) : C.Sim W (m >>= k) (m' >>= k') :=
  hm.bind fun _ _ _ _ => hk

/-- An action after another that gives one value with a property. -/
theorem Sim.bindSame {Q : α → Prop} {m m' : Exec α} {k k' : α → Exec β}
    (hm : C.Sim (Same Q) m m') (hk : ∀ a, Q a → C.Sim W (k a) (k' a)) :
    C.Sim W (m >>= k) (m' >>= k') := by
  refine hm.bind ?_
  rintro a _ s ⟨rfl, ha⟩
  exact hk a ha

/-- Raising a good fault. -/
theorem Sim.raise {fault : Fault} (h : C.GoodFault fault) :
    C.Sim V (Exec.raise fault) (Exec.raise fault) := by
  intro s s' hs
  exact ⟨rfl, h, hs⟩

/-- Giving up with an error that may come up. -/
theorem Sim.abort {e : Error} (h : C.error e) : C.Sim V (Exec.abort e) (Exec.abort e) := by
  intro s s' hs
  exact ⟨rfl, h, hs⟩

/-- Looking at the state. -/
theorem Sim.get : C.Sim (fun s s' _ => C.Related s s') (MonadState.get : Exec State)
    MonadState.get := by
  intro s s' hs
  exact ⟨hs, hs⟩

/-- Values of computations that may raise a good fault. -/
theorem Sim.liftFault {result result' : Except Fault α}
    (hok : ∀ a, result = .ok a → ∃ a', result' = .ok a' ∧ ∀ s, V a a' s)
    (herror : ∀ fault, result = .error fault → result' = .error fault ∧ C.GoodFault fault) :
    C.Sim V (Exec.liftFault result) (Exec.liftFault result') := by
  cases result with
  | ok a =>
    obtain ⟨a', ha', h⟩ := hok a rfl
    rw [ha']
    exact Sim.pure h
  | error fault =>
    obtain ⟨hfault, h⟩ := herror fault rfl
    rw [hfault]
    exact Sim.raise h

/-- The entry of a table, where the error of a missing one may come up. -/
theorem Sim.entry {Q : α → Prop} {table : String} {index : Nat} {found : Option α}
    (hsome : ∀ a, found = some a → Q a)
    (hnone : found = none → C.error (.missingEntry table index)) :
    C.Sim (Same Q) (Exec.entry table index found) (Exec.entry table index found) := by
  cases found with
  | some a => exact Sim.pure fun _ => ⟨rfl, hsome a rfl⟩
  | none => exact Sim.abort (hnone rfl)

end Rules

end Coupling

end Machine

end ErlangMachine
