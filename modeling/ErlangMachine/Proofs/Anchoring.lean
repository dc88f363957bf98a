import ErlangMachine.Proofs.Natives
import ErlangMachine.Proofs.Visits

/-!
# Activations on a shared stack

All activations of a call chain share one stack. An activation owns the slots above the depth at
which it began; what is below belongs to the activations that wait for it and, at the bottom, to
whoever started the chain. This module shows that every activation leaves the slots below its own
untouched, over whole runs with calls, faults, suspensions and resumptions.

What stands in the way of that are handlers: a fault cuts the stack back to the depth that its
handler names, and the end of a protected region puts handlers back that were kept in a catch tag.
So the invariant speaks of both. Catch tags stand in the slots of the activation that made them and
nowhere else, and all handlers in them and in force name depths that are not below its own slots. A
source operand that reads a catch tag could carry it elsewhere, which is why runs must not have one.

A `Policy` adds to this where code may be and which entries of tables it may name, so that the same
proof serves for control flow. `Policy.anchored` is the coupling of one activation, given what the
stack holds below its slots. `Policy.Anchored` says of a chain that all its activations are fine,
and `Policy.step_settled` that a step keeps it so.
-/

namespace ErlangMachine

namespace Machine

/-- What running code is held to. -/
structure Policy where
  /-- Where the code of a module may be entered or go on. -/
  entry : ModuleRef → Nat → Prop
  /-- The constants that the code of a module may name. -/
  constant : ModuleRef → Nat → Prop
  /-- The value tables that the code of a module may name. -/
  valueTable : ModuleRef → Nat → Prop
  /-- The arity tables that the code of a module may name. -/
  arityTable : ModuleRef → Nat → Prop
  /-- The errors that may come up. -/
  error : Error → Prop

namespace Policy

variable {target : Callable} {fault : Fault} {s : State} {arguments : List Term} {c : Chain}

variable (P : Policy)

/-- No catch tags, and closures only of code where it may be entered. -/
def leaf : Term → Prop
  | .catchTag .. => False
  | .closure module entry _ _ => P.entry module entry
  | _ => True

/-- A term all of whose parts are allowed. -/
def Clean (t : Term) : Prop := t.Every P.leaf

/-- A fault all of whose terms are clean. -/
def CleanFault (fault : Fault) : Prop := ∀ t ∈ fault.terms, P.Clean t

/-- Something that may be called. -/
def CleanCallable : Callable → Prop
  | .native _ f => f.Keeps P.leaf
  | .code module entry _ captured => P.entry module entry ∧ ∀ t ∈ captured, P.Clean t

/-- A handler of an activation whose slots begin at a depth. -/
def Handles (module : ModuleRef) (base : Nat) (h : Handler) : Prop :=
  base ≤ h.depth ∧ P.entry module h.label

/-- What may stand in a slot of an activation: a clean term, or a catch tag with its handlers. -/
def Owns (module : ModuleRef) (base : Nat) (t : Term) : Prop :=
  P.Clean t ∨ ∃ handler outer, t = .catchTag handler outer ∧
    ∀ h ∈ handler :: outer, P.Handles module base h

/-- The coupling of an activation of a module that found `below` on the stack. -/
def anchored (module : ModuleRef) (below : List Term) : Coupling where
  leaf := P.leaf
  entry := P.entry
  handler := P.Handles module below.length
  offset := P.entry module
  module := (· = module)
  stack base stack := base = below.length ∧
    ∃ own, stack = own ++ below ∧ ∀ t ∈ own, P.Owns module below.length t
  pace := Eq
  yields := Eq
  abroad _ := True
  native := Native.Keeps P.leaf
  error := P.error
  constant := P.constant module
  valueTable := P.valueTable module
  arityTable := P.arityTable module

/-- What a policy promises about a linker. -/
structure Laws (linker : Linker) : Prop where
  /-- The errors of programs that are not well made may come up. -/
  ordinary : ∀ e : Error, e.IsOrdinary → P.error e
  /-- If code can be missing, then that error may come up. -/
  noModule : ∀ module entry, P.entry module entry → linker.get? module = none →
    P.error (.missingEntry "module" module.place)
  /-- Constants are clean. -/
  constant : ∀ module code i t, linker.get? module = some code → P.constant module i →
    code.module.constants[i]? = some t → P.Clean t
  /-- If a constant can be missing, then that error may come up. -/
  noConstant : ∀ module code i, linker.get? module = some code → P.constant module i →
    code.module.constants[i]? = none → P.error (.missingEntry "constant" i)
  /-- Value tables lead to where code may go on. -/
  valueTable : ∀ module code i table value target, linker.get? module = some code →
    P.valueTable module i → code.module.valueTables[i]? = some table →
    table.lookup value = some target → P.entry module target
  /-- If a value table can be missing, then that error may come up. -/
  noValueTable : ∀ module code i, linker.get? module = some code → P.valueTable module i →
    code.module.valueTables[i]? = none → P.error (.missingEntry "value table" i)
  /-- Arity tables lead to where code may go on. -/
  arityTable : ∀ module code i table arity target, linker.get? module = some code →
    P.arityTable module i → code.module.arityTables[i]? = some table →
    table.lookup arity = some target → P.entry module target
  /-- If an arity table can be missing, then that error may come up. -/
  noArityTable : ∀ module code i, linker.get? module = some code → P.arityTable module i →
    code.module.arityTables[i]? = none → P.error (.missingEntry "arity table" i)
  /-- What an import is bound to may be called. -/
  binding : ∀ module code i target, linker.get? module = some code →
    code.binding? i = some target → P.CleanCallable target
  /-- What a name stands for may be called. -/
  resolve : ∀ id target, linker.resolve? id = some target → P.CleanCallable target
  /-- If a word can be no opcode, then that error may come up. -/
  unknown : ∀ module code pc word, linker.get? module = some code → P.entry module pc →
    code.module.code[pc]? = some word → Opcode.ofWord? word = none →
    P.error (.unimplementedOpcode word pc)
  /-- Code may go on after an instruction. -/
  next : ∀ module code pc word opcode, linker.get? module = some code → P.entry module pc →
    code.module.code[pc]? = some word → Opcode.ofWord? word = some opcode →
    P.entry module (pc + 1 + opcode.family.layout.length)
  /-- Instructions name what they may name. -/
  fits : ∀ module code pc word opcode command rest below, linker.get? module = some code →
    P.entry module pc → code.module.code[pc]? = some word → Opcode.ofWord? word = some opcode →
    Command.decode opcode.family (code.operandsAt pc opcode) = .ok (command, rest) →
    (P.anchored module below).Fits command


variable {P : Policy} {linker : Linker} {module : ModuleRef} {below : List Term}

/-- Worlds of one run that belong together are one. -/
theorem eq_of_worlds {w w' : World} (h : (P.anchored module below).Worlds w w') : w = w' :=
  World.eq_of_calm h.calm h.pace

/-- A world belongs to itself if its messages are clean. -/
theorem worlds_self {w : World} (h : ∀ t ∈ w.mailbox.messages, P.Clean t) :
    (P.anchored module below).Worlds w w :=
  ⟨rfl, rfl, h, fun _ _ => ⟨trivial, trivial⟩, fun _ _ => trivial⟩

/-- A check for preemption delivers no messages. -/
theorem messages_checkYield (w : World) :
    w.checkYield.2.mailbox.messages = w.mailbox.messages := by
  unfold World.checkYield
  cases w.interval with
  | none => rfl
  | some interval =>
    dsimp only
    split
    · rfl
    · rfl

/-- Plain terms are allowed. -/
theorem leaf_plain (t : Term) (ht : t.IsPlain) : P.leaf t := by
  cases t
  case float => exact ht.elim
  case closure => exact ht.elim
  case catchTag => exact ht.elim
  all_goals trivial

/-- What an activation may call does not depend on the activation. -/
theorem goodCallable_iff :
    (P.anchored module below).GoodCallable target ↔ P.CleanCallable target := by
  cases target with
  | native id f => exact Iff.rfl
  | code module entry arity captured => exact Iff.rfl

/-- The coupling of an activation keeps its promises if the policy keeps its own. -/
theorem Laws.anchored (laws : P.Laws linker) {code : LoadedModule}
    (hcode : linker.get? module = some code) : (P.anchored module below).Laws linker code where
  plain := leaf_plain
  closure := fun _ _ _ _ => Iff.rfl
  tag := fun _ _ h => h.elim
  finite := fun _ _ => trivial
  neg := fun _ _ => trivial
  ofInt := fun _ => trivial
  abroad := fun _ _ => trivial
  entry := by
    rintro _ target rfl htarget
    exact htarget
  -- The stack is what the activation has allocated on top of what it found, and only the former is
  -- within its reach.
  stackRead := by
    rintro _ _ n t ⟨rfl, own, rfl, hown⟩ hn ht
    rw [List.length_append, Nat.add_sub_cancel] at hn
    rw [List.getElem?_append_left hn] at ht
    exact hown t (List.mem_of_getElem? ht)
  stackWrite := by
    rintro _ _ n t ⟨rfl, own, rfl, hown⟩ hn ht
    rw [List.length_append, Nat.add_sub_cancel] at hn
    refine ⟨rfl, own.set n t, List.set_append_left n t hn, fun u hu => ?_⟩
    rcases List.mem_or_eq_of_mem_set hu with hu | rfl
    · exact hown u hu
    · exact ht
  stackAllocate := by
    rintro _ _ n ⟨rfl, own, rfl, hown⟩
    refine ⟨rfl, List.replicate n .nil ++ own, (List.append_assoc _ _ _).symm, fun t ht => ?_⟩
    rcases List.mem_append.1 ht with ht | ht
    · obtain rfl := List.eq_of_mem_replicate ht
      exact .inl trivial
    · exact hown t ht
  stackRelease := by
    rintro _ _ n ⟨rfl, own, rfl, hown⟩ - hn
    rw [List.length_append, Nat.add_sub_cancel] at hn
    refine ⟨rfl, own.drop n, ?_, fun t ht => hown t (List.mem_of_mem_drop ht)⟩
    exact List.drop_append_of_le_length hn
  stackBase := by
    rintro _ _ ⟨rfl, own, rfl, -⟩ hlow
    rw [List.length_append] at hlow
    omega
  handler := by
    rintro _ _ kind target ⟨rfl, own, rfl, -⟩ htarget
    exact ⟨List.length_append ▸ Nat.le_add_left _ _, htarget⟩
  ordinary := laws.ordinary
  constant := fun i hi t ht => laws.constant module code i t hcode hi ht
  noConstant := fun i hi hnone => laws.noConstant module code i hcode hi hnone
  valueTable := fun i hi table htable value target =>
    laws.valueTable module code i table value target hcode hi htable
  noValueTable := fun i hi hnone => laws.noValueTable module code i hcode hi hnone
  arityTable := fun i hi table htable arity target =>
    laws.arityTable module code i table arity target hcode hi htable
  noArityTable := fun i hi hnone => laws.noArityTable module code i hcode hi hnone
  binding := fun i target htarget =>
    goodCallable_iff.2 (laws.binding module code i target hcode htarget)
  resolve := fun id target htarget => goodCallable_iff.2 (laws.resolve id target htarget)
  native := by
    intro f arguments w w' hf harguments hworlds
    obtain rfl := eq_of_worlds hworlds
    obtain ⟨hresult, hmessages⟩ := hf arguments w harguments hworlds.messages
    refine ⟨rfl, ?_, worlds_self hmessages⟩
    cases hcase : (f arguments w).1 with
    | ok t | error fault =>
      rw [hcase] at hresult
      exact hresult
  checkYield := by
    intro w w' hworlds
    obtain rfl := eq_of_worlds hworlds
    refine ⟨rfl, worlds_self ?_⟩
    rw [messages_checkYield]
    exact hworlds.messages

/-! ## Chains -/

variable (P) in
/-- A process that holds nothing but clean terms outside its registers and its stack, in a world
whose messages are clean. -/
structure Fit (host : Host) : Prop where
  /-- The messages are clean. -/
  messages : ∀ t ∈ host.world.mailbox.messages, P.Clean t
  /-- The fault that a handler received last is clean. -/
  lastFault : ∀ fault ∈ host.process.lastFault, P.CleanFault fault

/-- A process without messages and without a fault is fit. -/
theorem Fit.of_nil {host : Host} (hmessages : host.world.mailbox.messages = [])
    (hfault : host.process.lastFault = none) : P.Fit host := by
  refine ⟨fun t ht => ?_, fun fault hmem => ?_⟩
  · rw [hmessages] at ht
    cases ht
  · rw [hfault] at hmem
    cases hmem

variable (P) in
/-- Activations that wait while there is some stack: each of them has its slots on top of what it
found, and the outermost found `bottom`. -/
inductive Waiting (bottom : List Term) : List Caller → List Term → Prop where
  /-- Nothing waits. -/
  | nil : Waiting bottom [] bottom
  /-- The innermost of them has the slots on top. -/
  | cons {caller : Caller} {callers : List Caller} {below stack : List Term} :
    (P.anchored caller.frame.code below).GoodFrame caller.frame →
    (∀ t ∈ caller.registers, P.Clean t) →
    (P.anchored caller.frame.code below).stack caller.frame.base stack →
    Waiting bottom callers below → Waiting bottom (caller :: callers) stack

variable (P) in
/-- The state of an activation that found `below` on the stack and keeps it. -/
def Keeps (below : List Term) (s : State) : Prop := (P.anchored s.frame.code below).Related s s

variable (P) in
/-- A chain all of whose activations keep what they found on the stack; the outermost found
`bottom`. -/
def Anchored (bottom : List Term) (c : Chain) : Prop :=
  ∃ below, P.Keeps below c.state ∧ P.Waiting bottom c.callers below

variable (P) in
/-- The code of a suspended activation may go on where it will. -/
def Wakes (module : ModuleRef) : Wake → Prop
  | .yield _ => True
  | .receive onMessage timeout => P.entry module onMessage ∧ ∀ o ∈ timeout, P.entry module o.1

variable (P) in
/-- What a step of an anchored chain comes to, whose running activation found `below` and has so
many callers. As long as the activation is not left, what it found stays where it is; when it is
left, then what the activation that goes on found was there all the time. -/
inductive Settled (bottom below : List Term) (waiting : Nat) : Progress → Prop where
  /-- The chain goes on. -/
  | running {c : Chain} {below' : List Term} : P.Keeps below' c.state →
    P.Waiting bottom c.callers below' →
    (waiting ≤ c.callers.length → below <:+ c.state.process.stack) →
    (c.callers.length ≤ waiting → below' <:+ below) → Settled bottom below waiting (.running c)
  /-- The chain ends with a result. -/
  | returned {host : Host} {value : Term} : host.process.stack = bottom →
    Settled bottom below waiting (.halted ⟨host, .returned value⟩)
  /-- The chain ends with a fault. -/
  | faulted {host : Host} {fault : Fault} : host.process.stack = bottom →
    Settled bottom below waiting (.halted ⟨host, .faulted fault⟩)
  /-- The machine gives up. -/
  | broken {host : Host} {error : Error} : P.error error → below <:+ host.process.stack →
    Settled bottom below waiting (.halted ⟨host, .broken error⟩)
  /-- The chain is suspended, and it is anchored when it goes on. -/
  | suspended {host : Host} {k : Continuation} : below <:+ host.process.stack →
    (∀ r host', host'.process.stack = host.process.stack → P.Fit host' →
      P.Anchored bottom (k.chain r host')) →
    Settled bottom below waiting (.halted ⟨host, .suspended k⟩)

/-! ## Faults -/

/-- The functions that a fault leaves add only their names to it. -/
theorem cleanFault_leaving (h : P.CleanFault fault) (s : State) :
    P.CleanFault (s.leaving linker fault) :=
  every_leaving leaf_plain h s

/-- The stack of an activation, cut back to a depth that is not below its slots. -/
theorem stack_truncate {base depth : Nat} {p : Process}
    (h : (P.anchored module below).stack base p.stack) (hdepth : below.length ≤ depth) :
    (P.anchored module below).stack base (p.truncate depth).stack := by
  obtain ⟨rfl, own, hstack, hown⟩ := h
  have hcut : p.depth - depth ≤ own.length := by
    unfold Process.depth
    rw [hstack, List.length_append]
    omega
  refine ⟨rfl, own.drop (p.depth - depth), ?_, fun t ht => hown t (List.mem_of_mem_drop ht)⟩
  show p.stack.drop (p.depth - depth) = _
  rw [hstack, List.drop_append_of_le_length hcut]

/-- A state with clean registers in a fit process keeps what its activation found. -/
theorem Keeps.of_fit (hfit : P.Fit s.toHost) (hregisters : ∀ t ∈ s.process.registers, P.Clean t)
    (hstack : (P.anchored s.frame.code below).stack s.frame.base s.process.stack)
    (hframe : (P.anchored s.frame.code below).GoodFrame s.frame) : P.Keeps below s where
  process := rfl
  frame := rfl
  world := worlds_self hfit.messages
  goodProcess := ⟨hregisters, fun _ _ => trivial, hfit.lastFault⟩
  stack := hstack
  goodFrame := hframe

/-- The first of two states that belong together keeps what its activation found. -/
theorem Keeps.of_related {s' : State} (h : (P.anchored module below).Related s s') :
    P.Keeps below s := by
  obtain rfl : s.frame.code = module := h.goodFrame.module
  exact .of_fit ⟨h.world.messages, h.goodProcess.lastFault⟩ h.goodProcess.registers h.stack
    h.goodFrame

namespace Keeps

variable {s : State} (hs : P.Keeps below s)

include hs

/-- The process of a running activation is fit. -/
theorem fit : P.Fit s.toHost := ⟨hs.world.messages, hs.goodProcess.lastFault⟩

/-- What the activation found is at the bottom of the stack. -/
theorem suffix : below <:+ s.process.stack := by
  obtain ⟨-, own, hstack, -⟩ := hs.stack
  exact ⟨own, hstack.symm⟩

/-- What the activation found is as long as it says. -/
theorem base_eq : s.frame.base = below.length := hs.stack.1

/-- What the activation found is all there is when the stack is as deep as on entry. -/
theorem stack_eq (h : s.process.depth = s.frame.base) : s.process.stack = below := by
  refine (hs.suffix.eq_of_length ?_).symm
  rw [← hs.base_eq, ← h]
  rfl

/-- An activation that ends with a fault leaves what it found. -/
theorem stack_unwind : s.unwind.process.stack = below := by
  obtain ⟨hbase, own, hstack, -⟩ := hs.stack
  show s.process.stack.drop (s.process.stack.length - s.frame.base) = below
  rw [hbase, hstack, List.length_append, Nat.add_sub_cancel, List.drop_left]

/-- An activation that hands a fault over to its innermost handler keeps what it found. -/
theorem handle {fault : Fault} (hfault : P.CleanFault fault) {handler : Handler}
    {outer : List Handler} (h : s.frame.handlers = handler :: outer) :
    P.Keeps below (s.handle fault handler outer) := by
  have hhandlers := hs.goodFrame.handlers
  rw [h] at hhandlers
  obtain ⟨hdepth, hlabel⟩ := hhandlers handler List.mem_cons_self
  have hp := hs.goodProcess.handle leaf_plain hfault handler outer
  have hstack := stack_truncate hs.stack hdepth
  have hframe : (P.anchored s.frame.code below).GoodFrame (s.handle fault handler outer).frame :=
    { module := rfl
      pc := hlabel
      handlers := fun h hh => hhandlers h (List.mem_cons_of_mem _ hh)
      tuple := fun _ hd => by cases hd
      first := hs.goodFrame.first
      second := hs.goodFrame.second }
  rw [← stack_handle s fault handler outer] at hstack
  exact .of_fit ⟨hs.fit.messages, hp.lastFault⟩ hp.registers hstack hframe

end Keeps

/-- The arguments of a call with the terms that were captured. -/
theorem clean_append {captured : List Term} (harguments : ∀ t ∈ arguments, P.Clean t)
    (hcaptured : ∀ t ∈ captured, P.Clean t) : ∀ t ∈ arguments ++ captured, P.Clean t := by
  intro t ht
  rcases List.mem_append.1 ht with ht | ht
  · exact harguments t ht
  · exact hcaptured t ht

/-- An activation begins with what it finds. -/
theorem keeps_enter {host : Host} (hfit : P.Fit host) {entry : Nat}
    (hentry : P.entry module entry) (harguments : ∀ t ∈ arguments, P.Clean t) :
    P.Keeps host.process.stack (Chain.start module entry arguments host).state := by
  have hframe : (P.anchored module host.process.stack).GoodFrame
      (.enter module entry host.process.depth) :=
    { module := rfl
      pc := hentry
      handlers := fun _ h => by cases h
      tuple := fun _ h => by cases h
      first := trivial
      second := trivial }
  refine .of_fit ⟨hfit.messages, hfit.lastFault⟩ (fun t ht => harguments t ?_) ?_ hframe
  · exact List.mem_toArray.1 ht
  · exact ⟨rfl, [], rfl, fun _ h => by cases h⟩

/-- The innermost of the activations that wait goes on with its slots as they were. -/
theorem Waiting.resume {bottom stack : List Term} {caller : Caller} {callers : List Caller}
    (h : P.Waiting bottom (caller :: callers) stack) (hfit : P.Fit s.toHost)
    (hstack : s.process.stack = stack) :
    ∃ below, P.Keeps below (s.resumeCaller caller) ∧ P.Waiting bottom callers below ∧
      below <:+ stack := by
  subst hstack
  cases h with
  | @cons _ _ below _ hframe hregisters hslots hwaiting =>
    have hkeeps : P.Keeps below (s.resumeCaller caller) :=
      .of_fit ⟨hfit.messages, hfit.lastFault⟩ hregisters hslots hframe
    exact ⟨below, hkeeps, hwaiting, hkeeps.suffix⟩

/-- If nothing waits, then the running activation found the bottom. -/
theorem Waiting.eq_bottom {bottom : List Term} (h : P.Waiting bottom [] below) :
    below = bottom := by
  cases h
  rfl

/-! ## Steps of a chain -/

section Steps

variable {bottom : List Term} {callers : List Caller}

variable (P) in
/-- What a fault comes to that is raised while an activation runs which found `below` and has so
many callers. It ends in a handler of that activation or of one that waits, or it ends the chain.
Each activation that is left has given its slots back. -/
inductive Raised (bottom below : List Term) (waiting : Nat) : Progress → Prop where
  /-- A handler receives it. -/
  | caught {c : Chain} {below' : List Term} : P.Keeps below' c.state →
    P.Waiting bottom c.callers below' → c.callers.length ≤ waiting →
    (waiting ≤ c.callers.length → below <:+ c.state.process.stack) → below' <:+ below →
    Raised bottom below waiting (.running c)
  /-- No handler does. -/
  | uncaught {host : Host} {fault : Fault} : host.process.stack = bottom →
    Raised bottom below waiting (.halted ⟨host, .faulted fault⟩)

/-- A fault is a way for a step to end. -/
theorem Raised.settled {waiting : Nat} {p : Progress} (h : P.Raised bottom below waiting p) :
    P.Settled bottom below waiting p := by
  cases h with
  | caught hkeeps hwaiting _ hspared hsuffix =>
    exact .running hkeeps hwaiting hspared fun _ => hsuffix
  | uncaught hstack => exact .faulted hstack

/-- A fault that is raised in a caller comes to the same for the activation that it has left. -/
theorem Raised.outward {below' : List Term} {waiting : Nat} {p : Progress}
    (h : P.Raised bottom below' waiting p) (hbelow : below' <:+ below) :
    P.Raised bottom below (waiting + 1) p := by
  cases h with
  | caught hkeeps hwaiting hle _ hsuffix =>
    -- The activation has been left, so nothing is asked of what it found.
    exact .caught hkeeps hwaiting (Nat.le_succ_of_le hle)
      (fun hge => absurd (Nat.le_trans hge hle) (Nat.not_succ_le_self _)) (hsuffix.trans hbelow)
  | uncaught hstack => exact .uncaught hstack

/-- A fault that a handler of the running activation receives. -/
theorem raised_of_handled {handler : Handler} {outer : List Handler} (recent : Nat)
    (hs : P.Keeps below s) (hfault : P.CleanFault fault)
    (hwaiting : P.Waiting bottom callers below) (hcase : s.frame.handlers = handler :: outer) :
    P.Raised bottom below callers.length (Chain.raise linker fault s callers recent) := by
  have hleaving : P.CleanFault (s.leaving linker fault) := cleanFault_leaving hfault s
  have hhandled := hs.handle hleaving hcase
  rw [Chain.raise_handled hcase]
  exact .caught hhandled hwaiting (Nat.le_refl _) (fun _ => hhandled.suffix)
    (List.suffix_refl below)

/-- What a fault comes to. -/
theorem raise_raised (recent : Nat) (hs : P.Keeps below s) (hfault : P.CleanFault fault)
    (hwaiting : P.Waiting bottom callers below) :
    P.Raised bottom below callers.length (Chain.raise linker fault s callers recent) := by
  -- Along the callers that the fault passes through.
  induction callers generalizing s fault recent below with
  | nil =>
    cases hcase : s.frame.handlers with
    | cons handler outer => exact raised_of_handled recent hs hfault hwaiting hcase
    | nil =>
      rw [Chain.raise_nil hcase]
      exact .uncaught (hs.stack_unwind.trans hwaiting.eq_bottom)
  | cons caller callers ih =>
    cases hcase : s.frame.handlers with
    | cons handler outer => exact raised_of_handled recent hs hfault hwaiting hcase
    | nil =>
      rw [Chain.raise_cons hcase]
      have hfit : P.Fit s.unwind.toHost := ⟨hs.fit.messages, hs.fit.lastFault⟩
      obtain ⟨below', hs', hwaiting', hsuffix⟩ := hwaiting.resume hfit hs.stack_unwind
      exact (ih _ hs' (cleanFault_leaving hfault s) hwaiting').outward hsuffix

/-- The running activation goes on, or another one in its place. -/
theorem Settled.stays {recent : Nat} (hkeeps : P.Keeps below s)
    (hwaiting : P.Waiting bottom callers below) :
    P.Settled bottom below callers.length (.running ⟨s, callers, recent⟩) :=
  .running hkeeps hwaiting (fun _ => hkeeps.suffix) fun _ => List.suffix_refl below

/-- The machine gives up, and the stack stays as it is. -/
theorem abort_settled {error : Error} (herror : P.error error) (hs : P.Keeps below c.state) :
    P.Settled bottom below c.callers.length (c.abort error) := by
  obtain ⟨registers, -, habort⟩ := c.abort_eq error
  rw [habort]
  exact .broken herror hs.suffix

/-- What a fault comes to that leaves the running activation, once that has given its slots back. -/
theorem raiseOutside_settled (recent : Nat) (hfit : P.Fit s.toHost) (hfault : P.CleanFault fault)
    (hwaiting : P.Waiting bottom callers below) (hstack : s.process.stack = below) :
    P.Settled bottom below callers.length (Chain.raiseOutside linker fault s callers recent) := by
  cases callers with
  | nil => exact .faulted (hstack.trans hwaiting.eq_bottom)
  | cons caller callers =>
    obtain ⟨below', hs', hwaiting', hsuffix⟩ := hwaiting.resume hfit hstack
    exact ((raise_raised _ hs' hfault hwaiting').outward hsuffix).settled

/-- What a result comes to, once the running activation has given its slots back. -/
theorem leave_settled {value : Term} (recent : Nat) (hfit : P.Fit s.toHost)
    (hvalue : P.Clean value) (hwaiting : P.Waiting bottom callers below)
    (hstack : s.process.stack = below) :
    P.Settled bottom below callers.length (Chain.leave value s callers recent) := by
  cases callers with
  | nil => exact .returned (hstack.trans hwaiting.eq_bottom)
  | cons caller callers =>
    obtain ⟨below', hs', hwaiting', hsuffix⟩ := hwaiting.resume hfit hstack
    have hp := hs'.goodProcess.setX (t := value) trivial 0 hvalue
    have hkeeps : P.Keeps below' { s.resumeCaller caller with
        process := (s.resumeCaller caller).process.setX 0 value } :=
      .of_fit ⟨hs'.fit.messages, hs'.fit.lastFault⟩ hp.registers hs'.stack hs'.goodFrame
    refine .running hkeeps hwaiting' (fun hge => ?_) fun _ => hsuffix
    exact absurd hge (Nat.not_succ_le_self _)

/-- What a call comes to that the running activation waits for. -/
theorem call_settled (htarget : P.CleanCallable target) (harguments : ∀ t ∈ arguments, P.Clean t)
    (hs : P.Keeps below c.state) (hwaiting : P.Waiting bottom c.callers below) :
    P.Settled bottom below c.callers.length (c.call linker target arguments) := by
  cases target with
  | native id f =>
    obtain ⟨hresult, hmessages⟩ := htarget arguments c.state.world harguments hs.fit.messages
    have hafter : P.Keeps below { c.state with world := (f arguments c.state.world).2 } :=
      .of_fit ⟨hmessages, hs.fit.lastFault⟩ hs.goodProcess.registers hs.stack hs.goodFrame
    unfold Chain.call
    dsimp only
    cases hcase : (f arguments c.state.world).1 with
    | ok value =>
      rw [hcase] at hresult
      have hp := hs.goodProcess.setX (t := value) trivial 0 hresult
      have hkeeps : P.Keeps below { c.state with
          world := (f arguments c.state.world).2
          process := c.state.process.setX 0 value } :=
        .of_fit ⟨hmessages, hs.fit.lastFault⟩ hp.registers hs.stack hs.goodFrame
      exact .stays hkeeps hwaiting
    | error fault =>
      rw [hcase] at hresult
      exact (raise_raised _ hafter hresult hwaiting).settled
  | code module entry arity captured =>
    have hentered := keeps_enter hs.fit htarget.1 (clean_append harguments htarget.2)
    refine .running hentered (.cons hs.goodFrame hs.goodProcess.registers hs.stack hwaiting)
      (fun _ => hs.suffix) fun hle => ?_
    exact absurd hle (Nat.not_succ_le_self _)

/-- What a call comes to that takes the place of the running activation, once that has given its
slots back. -/
theorem tailCall_settled (htarget : P.CleanCallable target)
    (harguments : ∀ t ∈ arguments, P.Clean t) (hs : P.Keeps below c.state)
    (hwaiting : P.Waiting bottom c.callers below)
    (hdepth : c.state.process.depth = c.state.frame.base) :
    P.Settled bottom below c.callers.length (c.tailCall linker target arguments) := by
  have hstack := hs.stack_eq hdepth
  cases target with
  | native id f =>
    obtain ⟨hresult, hmessages⟩ := htarget arguments c.state.world harguments hs.fit.messages
    have hfit : P.Fit ⟨(f arguments c.state.world).2, c.state.process⟩ :=
      ⟨hmessages, hs.fit.lastFault⟩
    unfold Chain.tailCall
    dsimp only
    cases hcase : (f arguments c.state.world).1 with
    | ok value =>
      rw [hcase] at hresult
      exact leave_settled _ hfit hresult hwaiting hstack
    | error fault =>
      rw [hcase] at hresult
      exact raiseOutside_settled _ hfit hresult hwaiting hstack
  | code module entry arity captured =>
    have hentered := keeps_enter hs.fit htarget.1 (clean_append harguments htarget.2)
    rw [hstack] at hentered
    exact .stays hentered hwaiting

/-- A suspended activation goes on with its frame, at most at another offset or with another
mark. -/
theorem wakeUp_cases {k : Continuation} (h : P.Wakes k.frame.code k.wake) (r : Resumption) :
    (∃ skipYield, k.wakeUp r = { k.frame with skipYield }) ∨
      ∃ pc, P.entry k.frame.code pc ∧ k.wakeUp r = { k.frame with pc } := by
  unfold Continuation.wakeUp
  cases hwake : k.wake with
  | yield retry => exact .inl ⟨retry, rfl⟩
  | receive onMessage timeout =>
    rw [hwake] at h
    obtain ⟨hmessage, htimeout⟩ := h
    dsimp only
    split
    · exact .inr ⟨_, htimeout _ rfl, rfl⟩
    · exact .inr ⟨_, hmessage, rfl⟩

/-- A chain is suspended, with places to go on at. -/
theorem suspend_settled {wake : Wake} (hs : P.Keeps below c.state)
    (hwaiting : P.Waiting bottom c.callers below) (hwake : P.Wakes c.state.frame.code wake) :
    P.Settled bottom below c.callers.length (c.suspend wake) := by
  refine .suspended hs.suffix fun r host' hstack hfit => ⟨below, ?_, hwaiting⟩
  have hslots := hs.stack
  rw [show c.state.process.stack = host'.process.stack from hstack.symm] at hslots
  unfold Continuation.chain
  rcases wakeUp_cases
      (k := ⟨c.state.frame, c.state.process.registers, wake, c.callers⟩) hwake r with
    ⟨mark, hmark⟩ | ⟨pc, hpc, hmoved⟩
  · rw [hmark]
    exact .of_fit ⟨hfit.messages, hfit.lastFault⟩ hs.goodProcess.registers hslots
      { hs.goodFrame with }
  · rw [hmoved]
    exact .of_fit ⟨hfit.messages, hfit.lastFault⟩ hs.goodProcess.registers hslots
      { hs.goodFrame with pc := hpc }

/-- What follows from a command. -/
theorem settle_settled {r r' : EStateM.Result Stop State Flow}
    (hresults : (P.anchored module below).Results (P.anchored module below).Flows r r')
    (hwaiting : P.Waiting bottom c.callers below) :
    P.Settled bottom below c.callers.length (c.settle linker r) := by
  cases r with
  | error stop s =>
    cases r' with
    | ok flow' s' => exact hresults.elim
    | error stop' s' =>
      obtain ⟨-, hstop, hs⟩ := hresults
      have hkeeps := Keeps.of_related hs
      cases stop with
      | fault fault => exact (raise_raised _ hkeeps hstop hwaiting).settled
      | broken error => exact abort_settled (c := { c with state := s }) hstop hkeeps
  | ok flow s =>
    cases r' with
    | error stop' s' => exact hresults.elim
    | ok flow' s' =>
      obtain ⟨hflows, hs⟩ := hresults
      have hkeeps := Keeps.of_related hs
      -- What wakes the activation leads back into its own module.
      have hmodule : s.frame.code = module := hs.goodFrame.module
      cases hflows with
      | next => exact .stays hkeeps hwaiting
      | leave hvalue hdepth =>
        exact leave_settled _ hkeeps.fit hvalue hwaiting (hkeeps.stack_eq hdepth)
      | call htarget harguments =>
        exact call_settled (c := { c with state := s }) (goodCallable_iff.1 htarget) harguments
          hkeeps hwaiting
      | tailCall htarget harguments hdepth =>
        exact tailCall_settled (c := { c with state := s }) (goodCallable_iff.1 htarget) harguments
          hkeeps hwaiting hdepth
      | receive htarget htimeout =>
        refine suspend_settled (c := { c with state := s }) hkeeps hwaiting ?_
        show P.Wakes s.frame.code _
        rw [hmodule]
        exact ⟨htarget, fun o ho => (htimeout o ho).1⟩
      | @yield _ stop stop' _ =>
        cases stop with
        | false => exact .stays hkeeps hwaiting
        | true => exact suspend_settled (c := { c with state := s }) hkeeps hwaiting trivial

/-- Whatever running a command comes to, the activation keeps what it found. The one case apart is a
call that has to wait for its turn. -/
theorem execute_cases (laws : P.Laws linker) {code : LoadedModule} (callers : List Caller)
    (hcode : linker.get? s.frame.code = some code) (hs : P.Keeps below s)
    (htag : ¬ s.ReadsTag linker) :
    (P.anchored s.frame.code below).Results (P.anchored s.frame.code below).Flows
      ((execute linker code callers).run s) ((execute linker code callers).run s) ∨
    ∃ s', (execute linker code callers).run s = .ok (.suspend (.yield true)) s' ∧
      P.Keeps below s' := by
  have hpc : P.entry s.frame.code s.frame.pc := hs.goodFrame.pc
  refine (Coupling.results_execute (laws.anchored hcode) callers hs
    (fun word hword hnone => laws.unknown _ _ _ _ hcode hpc hword hnone)
    fun word opcode hword hopcode => ⟨laws.next _ _ _ _ _ hcode hpc hword hopcode,
      fun command rest hdecode => ⟨laws.fits _ _ _ _ _ _ _ below hcode hpc hword hopcode hdecode,
        fun hread => ?_⟩⟩).imp_right ?_
  · have hcommand := LoadedModule.commandAt?_eq hword hopcode hdecode
    exact absurd ⟨code, command, hcode, hcommand, hread⟩ htag
  · rintro ⟨mark, world, hworld, hrun⟩
    exact ⟨_, hrun, rfl, rfl, hworld, hs.goodProcess, hs.stack, { hs.goodFrame with }⟩

/-- What a step of a chain comes to. -/
theorem step_settled (laws : P.Laws linker) (hs : P.Keeps below c.state)
    (hwaiting : P.Waiting bottom c.callers below) (htag : ¬ c.state.ReadsTag linker) :
    P.Settled bottom below c.callers.length (c.step linker) := by
  cases hcode : linker.get? c.state.frame.code with
  | none =>
    rw [Chain.step_eq_abort hcode]
    exact abort_settled (laws.noModule _ _ hs.goodFrame.pc hcode) hs
  | some code =>
    rw [Chain.step_eq_settle hcode]
    rcases execute_cases laws c.callers hcode hs htag with hresults | ⟨s', hheld, hs'⟩
    · exact settle_settled hresults hwaiting
    · rw [hheld]
      exact suspend_settled (c := { c with state := s' }) hs' hwaiting trivial

end Steps

/-! ## Whole runs -/

/-- The natives of `erlang` keep terms clean under every policy. -/
theorem built_erlang (module : Module → Prop) :
    Linker.withErlang.Built (fun _ f => f.Keeps P.leaf) module :=
  have hfloats : Native.FloatLaws P.leaf :=
    ⟨fun _ _ => trivial, fun _ _ => trivial, fun _ _ => trivial, fun _ => trivial⟩
  (Linker.built_withErlang module).mono (fun _ _ hf => hf.keeps leaf_plain hfloats) fun _ => id

/-- What a linker binds names to may be called, if its natives keep terms clean and modules export
what may be entered. -/
theorem cleanCallable_of_resolve {module : Module → Prop}
    (hlinker : linker.Built (fun _ f => f.Keeps P.leaf) module)
    (hexport : ∀ ref code name entry, linker.get? ref = some code →
      code.module.exportEntry? name = some entry → P.entry ref entry) {id : FunctionId}
    (h : linker.resolve? id = some target) : P.CleanCallable target := by
  cases target with
  | native id' f =>
    obtain ⟨g, hg, rfl⟩ := hlinker.resolve?_native h
    exact hg.ofArity leaf_plain id.arity
  | code ref entry arity captured =>
    obtain ⟨rfl, code, hcode, hentry⟩ := Linker.resolve?_code h
    exact ⟨hexport ref code _ entry hcode hentry, fun t ht => by cases ht⟩

/-- What a linker has bound imports to may be called, too. -/
theorem cleanCallable_of_binding {module : Module → Prop}
    (hlinker : linker.Built (fun _ f => f.Keeps P.leaf) module)
    (hexport : ∀ ref code name entry, linker.get? ref = some code →
      code.module.exportEntry? name = some entry → P.entry ref entry) {ref : ModuleRef}
    {code : LoadedModule} (hcode : linker.get? ref = some code) {i : Nat}
    (h : code.binding? i = some target) : P.CleanCallable target := by
  obtain ⟨l₀, id, hl₀, hextends, hresolve⟩ := hlinker.binding hcode h
  refine cleanCallable_of_resolve hl₀ (fun ref code name entry hcode hentry => ?_) hresolve
  obtain ⟨code', hcode', hmodule⟩ := hextends ref code hcode
  exact hexport ref code' name entry hcode' (hmodule ▸ hentry)

/-- Every chain that a call goes through is anchored in the stack that the call found. -/
theorem anchored_of_visits (laws : P.Laws linker) {host : Host} (htarget : P.CleanCallable target)
    (harguments : ∀ t ∈ arguments, P.Clean t) (hhost : P.Fit host)
    (h : Visits linker P.Fit target arguments host c) : P.Anchored host.process.stack c := by
  induction h with
  | start heq _ =>
    subst heq
    exact ⟨_, keeps_enter hhost htarget.1 (clean_append harguments htarget.2), .nil⟩
  | @step c next hvisits hstep _ ih =>
    obtain ⟨below, hkeeps, hwaiting⟩ := ih
    have hsettled := step_settled laws hkeeps hwaiting hvisits.not_readsTag
    rw [hstep] at hsettled
    cases hsettled with
    | running hkeeps' hwaiting' _ _ => exact ⟨_, hkeeps', hwaiting'⟩
  | @resume c before after k r hvisits hstep hstack hfit _ ih =>
    obtain ⟨below, hkeeps, hwaiting⟩ := ih
    have hsettled := step_settled laws hkeeps hwaiting hvisits.not_readsTag
    rw [hstep] at hsettled
    cases hsettled with
    | suspended _ hresume => exact hresume r after hstack hfit

end Policy

end Machine

end ErlangMachine
