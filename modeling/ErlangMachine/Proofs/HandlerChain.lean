import ErlangMachine.Listing.Basic
import ErlangMachine.Proofs.Equality
import ErlangMachine.Proofs.Regions
import ErlangMachine.Proofs.Unwinding

/-!
# Handlers come into force and go like a stack

The handlers of an activation belong to the protected regions that it has begun, and the innermost
one comes first. This module follows one activation from its beginning through everything that
happens while it is there: its own commands, the activations that it waits for, suspensions, and
faults. `LivesThrough` pairs each chain on the way with the account of the regions (`Region`), as
long as the activation ends its regions from the innermost outwards and leaves the slots with their
tags alone. `handlers_follow_regions` says that the handlers are those of the open regions all the
time, and what a fault does that comes to the activation.

`Chain.Accounts` is what a step preserves. It has a lemma for each kind of step: a fault comes to
the activation (`step_reached`), one inside it runs (`step_inside`), or it runs itself (`step_own`).
-/

namespace ErlangMachine.Machine

/-! ## What happens to an activation -/

/-- What happens to the regions of an activation in a step. -/
inductive Event where
  /-- Nothing does. -/
  | quiet
  /-- The innermost open region receives a fault. -/
  | received
  /-- A region begins. -/
  | began (region : Region)
  /-- The region with a slot ends. -/
  | ended (position : Nat)

namespace Event

/-- The regions that a step adds to the account. -/
def added : Event → List Region
  | .began region => [region]
  | _ => []

/-- The slot of the region that a step ends. -/
def ended? : Event → Option Nat
  | .ended position => some position
  | _ => none

/-- What a step leaves of the account. -/
def remaining (regions : List Region) : Event → List Region
  | .quiet | .began _ => regions
  | .received => receive regions
  | .ended position => finish position regions

end Event

/-- What a command does to the regions of the activation that runs it. Slots are numbered from the
top of the stack. -/
def Command.event (depth : Nat) : Command → Event
  | .protect kind slot target =>
    .began { handler := ⟨kind, target, depth⟩, slot := some (depth - 1 - slot), isOpen := true,
             intact := true }
  | .unprotect slot => .ended (depth - 1 - slot)
  | _ => .quiet

/-- What the command at the program counter does to the regions of the activation. -/
def State.event (s : State) (code : LoadedModule) : Event :=
  (code.commandAt? s.frame.pc).elim .quiet (Command.event s.process.depth)

/-- A fault that comes to activations one after the other gets as far as the one that has a number
of callers. -/
def comesTo (waiting : Nat) (frames : List Frame) : Bool :=
  waiting < frames.length &&
    (frames.take (frames.length - (waiting + 1))).all (·.handlers.isEmpty)

/-- A command has its activation make way for another. -/
def tailCalls : EStateM.Result Stop State Flow → Bool
  | .ok (.tailCall ..) _ => true
  | _ => false

namespace Chain

/-- In the next step, a fault comes to the activation that has a number of callers. -/
def reached (linker : Linker) (waiting : Nat) (c : Chain) : Bool :=
  ((linker.get? c.state.frame.code).bind fun code =>
    c.faulting? ((execute linker code c.callers).run c.state)).any (comesTo waiting)

/-- In the next step, the running activation makes way for another. -/
def makesWay (linker : Linker) (c : Chain) : Bool :=
  (linker.get? c.state.frame.code).any fun code =>
    tailCalls ((execute linker code c.callers).run c.state)

/-- What the next step does to the regions of the activation that has a number of callers. -/
def event (linker : Linker) (waiting : Nat) (c : Chain) : Event :=
  if c.reached linker waiting then .received
  else if c.callers.length = waiting then
    (linker.get? c.state.frame.code).elim .quiet c.state.event
  else .quiet

/-- The activation that has a number of callers. -/
def activation? (c : Chain) (waiting : Nat) : Option Frame := c.frames.reverse[waiting]?

/-- The account after a step to another chain. -/
def account (linker : Linker) (waiting : Nat) (c : Chain) (regions : List Region) (next : Chain) :
    List Region :=
  let event := c.event linker waiting
  (event.added ++ event.remaining regions).map (Region.sink next.state.process.depth)

/-- A step to another chain in which the activation that has a number of callers does not end, ends
none but its innermost region and leaves the tags of the others alone. -/
structure Orderly (linker : Linker) (waiting : Nat) (c : Chain) (regions : List Region)
    (next : Chain) : Prop where
  /-- The activation is not left. -/
  stays : waiting ≤ next.callers.length
  /-- It does not make way for another. -/
  keepsPlace : c.callers.length = waiting → c.makesWay linker = false
  /-- It does not end a region around an open one. -/
  innermost : ∀ position ∈ (c.event linker waiting).ended?, InnermostAt regions position
  /-- It does not write to the slots of other regions. -/
  spares : c.callers.length = waiting → SparesTags c.state.process next.state.process
    ((c.event linker waiting).remaining regions)

end Chain

/-- The chains that an activation with a number of callers goes through from its beginning, each
with the account of its regions. -/
inductive LivesThrough (linker : Linker) (waiting : Nat) : Chain → List Region → Prop where
  /-- The activation begins. -/
  | start {c : Chain} {module : ModuleRef} {entry : Nat} :
    c.callers.length = waiting → c.state.frame = .enter module entry c.state.process.depth →
    LivesThrough linker waiting c []
  /-- The chain goes on by itself. -/
  | step {c next : Chain} {regions : List Region} :
    LivesThrough linker waiting c regions → c.step linker = .running next →
    c.Orderly linker waiting regions next →
    LivesThrough linker waiting next (c.account linker waiting regions next)
  /-- The chain was suspended and goes on with the stack that it had. -/
  | resume {c : Chain} {regions : List Region} {before after : Host} {k : Continuation}
    {r : Resumption} :
    LivesThrough linker waiting c regions → c.step linker = .halted ⟨before, .suspended k⟩ →
    after.process.stack = before.process.stack →
    (c.callers.length = waiting → SparesTags c.state.process after.process regions) →
    LivesThrough linker waiting (k.chain r after) (regions.map (Region.sink after.process.depth))

/-! ## The invariant -/

/-- The account agrees with an activation: those that it waits for are inside it, its callers are
outside. -/
structure Chain.Accounts (c : Chain) (regions : List Region) (inner : List Frame) (own : Frame)
    (outer : List Frame) : Prop where
  /-- The activations. -/
  frames_eq : c.frames = inner ++ own :: outer
  /-- The handlers in force are those of the open regions. -/
  handlers_eq : own.handlers = openHandlers regions
  /-- The slots hold the tags. -/
  tagged : Tagged c.state.process regions
  /-- The stack is as deep as it has to be. -/
  intact : ∀ r ∈ regions, r.intact → r.handler.depth ≤ c.state.process.depth
  /-- The activations inside began above all that. -/
  above : ∀ f ∈ inner, Above regions f.base

section Activations

variable {waiting : Nat} {inner outer : List Frame} {own : Frame}

/-- A fault gets as far as an activation if those inside it have no handlers. -/
theorem comesTo_append (h : outer.length = waiting) :
    comesTo waiting (inner ++ own :: outer) = inner.all (·.handlers.isEmpty) := by
  have hlength : (inner ++ own :: outer).length = inner.length + (waiting + 1) := by
    rw [List.length_append, List.length_cons, h]
  have htake : (inner ++ own :: outer).take (inner.length + (waiting + 1) - (waiting + 1)) =
      inner := by
    rw [Nat.add_sub_cancel, List.take_left]
  unfold comesTo
  rw [hlength, htake, decide_eq_true (by omega), Bool.true_and]

/-- A fault does not get as far as an activation that is not there. -/
theorem comesTo_of_length_le {frames : List Frame} (h : frames.length ≤ waiting) :
    comesTo waiting frames = false := by
  unfold comesTo
  rw [decide_eq_false (by omega), Bool.false_and]

/-- The activation that has as many callers as there are outside. -/
theorem activation?_eq {c : Chain} (h : c.frames = inner ++ own :: outer) :
    c.activation? outer.length = some own := by
  unfold Chain.activation?
  rw [h]
  simp

/-- A chain has one activation more than callers. -/
theorem length_frames (c : Chain) : c.frames.length = c.callers.length + 1 := by
  unfold Chain.frames
  rw [List.length_cons, List.length_map]

/-- The activation runs itself if it waits for no other. -/
theorem length_callers_eq_iff {c : Chain} (h : c.frames = inner ++ own :: outer) :
    c.callers.length = outer.length ↔ inner = [] := by
  have hlength := congrArg List.length h
  rw [length_frames, List.length_append, List.length_cons] at hlength
  rw [← List.length_eq_zero_iff]
  omega

end Activations

/-! ## Beginning and ending a region -/

section Commands

variable (linker : Linker) (code : LoadedModule) (callers : List Caller)

/-- A slot of the activation, counted from the bottom. -/
theorem tagAt?_slot {p : Process} {slot : Nat} (h : slot < p.depth) {handler : Handler}
    {outer : List Handler} (hslot : p.stack[slot]? = some (.catchTag handler outer)) :
    p.tagAt? (p.depth - 1 - slot) = some (handler, outer) := by
  have hreverse : p.stack.reverse[p.depth - 1 - slot]? = p.stack[slot]? := by
    unfold Process.depth at h ⊢
    rw [List.getElem?_reverse (by omega)]
    congr 1
    omega
  unfold Process.tagAt?
  rw [hreverse, hslot]

/-- A region begins: its handler is in force, and the slot holds a tag that names those that were in
force before. -/
theorem protect_forms (s : State) (kind : HandlerKind) (slot target : Nat) :
    (∃ error t, ((Command.protect kind slot target).run linker code callers).run s =
      .error (.broken error) t) ∨
    ∃ t, ((Command.protect kind slot target).run linker code callers).run s = .ok .next t ∧
      t.frame.handlers = ⟨kind, target, s.process.depth⟩ :: s.frame.handlers ∧
      t.process.depth = s.process.depth ∧ t.process.tagAt? (s.process.depth - 1 - slot) =
        some (⟨kind, target, s.process.depth⟩, s.frame.handlers) := by
  by_cases hn : s.process.depth - s.frame.base ≤ slot
  · refine .inl ⟨.badStackSlot slot (s.process.depth - s.frame.base), s, ?_⟩
    show (Exec.write (.y slot) _ >>= _).run s = _
    rw [EStateM.run_bind, Exec.write_run_missing hn]
  · have hslot : (s.at? (.y slot)).isSome := isSome_at?_y.2 (Nat.lt_of_not_le hn)
    have hdepth : slot < s.process.depth := by omega
    generalize htag : Term.catchTag ⟨kind, target, s.process.depth⟩ s.frame.handlers = tag
    have hwritten : (s.put (.y slot) tag).process.depth = s.process.depth := List.length_set
    have htagAt : (s.put (.y slot) tag).process.tagAt? ((s.put (.y slot) tag).process.depth - 1 -
        slot) = some (⟨kind, target, s.process.depth⟩, s.frame.handlers) := by
      refine tagAt?_slot (by rw [hwritten]; exact hdepth) ?_
      rw [htag]
      exact List.getElem?_set_self hdepth
    rw [hwritten] at htagAt
    subst htag
    exact .inr ⟨_, run_bind_ok (write_run hslot), rfl, hwritten, htagAt⟩

/-- A region ends: the handlers come into force that the tag in its slot names. -/
theorem unprotect_forms (s : State) (slot : Nat) :
    (∃ error t, ((Command.unprotect slot).run linker code callers).run s =
      .error (.broken error) t) ∨
    ∃ handler t, ((Command.unprotect slot).run linker code callers).run s = .ok .next t ∧
      s.process.tagAt? (s.process.depth - 1 - slot) = some (handler, t.frame.handlers) := by
  by_cases hn : s.process.depth - s.frame.base ≤ slot
  · refine .inl ⟨.badStackSlot slot (s.process.depth - s.frame.base), s, ?_⟩
    show (Exec.read (.y slot) >>= _).run s = _
    unfold Exec.read Exec.checkSlot
    simp only [EStateM.run_bind, EStateM.run_get, if_pos hn]
    rfl
  · have hsome : (s.at? (.y slot)).isSome := isSome_at?_y.2 (Nat.lt_of_not_le hn)
    obtain ⟨t, ht⟩ := Option.isSome_iff_exists.1 hsome
    have hread : (Exec.source code (.place (.y slot))).run s = .ok t s := source_run ht
    have hrun : ((Command.unprotect slot).run linker code callers).run s = _ := run_bind_ok hread
    rw [hrun]
    cases t with
    | catchTag handler outer =>
      have hslot : s.process.stack[slot]? = some (.catchTag handler outer) := by
        exact (Option.ite_none_right_eq_some.1 ht).2
      have hwrite : ({ s with frame := { s.frame with handlers := outer } }.at? (.y slot)).isSome :=
        isSome_at?_y.2 (Nat.lt_of_not_le hn)
      exact .inr ⟨handler, _, run_bind_ok (write_run hwrite), tagAt?_slot (by omega) hslot⟩
    | _ => exact .inl ⟨_, _, rfl⟩

/-- The commands that change the handlers in force. -/
theorem protects_of_changes {command : Command} (h : .handlers ∈ command.changes) :
    (∃ kind slot target, command = .protect kind slot target) ∨
      ∃ slot, command = .unprotect slot := by
  cases command with
  | protect kind slot target => exact .inl ⟨kind, slot, target, rfl⟩
  | unprotect slot => exact .inr ⟨slot, rfl⟩
  | call c mode =>
    cases mode with
    | nested => cases h
    | tail slots => simp [Command.changes] at h
  | allocate | release | raise | native | send | loopReceiveEnd | removeMessage | timeout =>
    simp [Command.changes] at h
  | _ => cases h

/-- Other commands do nothing to the regions. -/
theorem event_of_not_changes {command : Command} (h : .handlers ∉ command.changes) (depth : Nat) :
    command.event depth = .quiet := by
  unfold Command.event
  split
  · exact absurd List.mem_cons_self h
  · exact absurd List.mem_cons_self h
  · rfl

/-- What a command does to the handlers in force, next to what it does to the regions. -/
theorem event_forms (s : State) :
    (s.event code = .quiet ∧
      ((execute linker code callers).final s).frame.handlers = s.frame.handlers) ∨
    (∃ error t, (execute linker code callers).run s = .error (.broken error) t) ∨
    (∃ handler position t, s.event code = .began ⟨handler, some position, true, true⟩ ∧
      (execute linker code callers).run s = .ok .next t ∧
      t.frame.handlers = handler :: s.frame.handlers ∧
      t.process.tagAt? position = some (handler, s.frame.handlers)) ∨
    ∃ handler position t, s.event code = .ended position ∧
      (execute linker code callers).run s = .ok .next t ∧
      s.process.tagAt? position = some (handler, t.frame.handlers) := by
  have hkeeps := keeps_execute linker code callers s
  unfold State.event
  cases hcommand : code.commandAt? s.frame.pc with
  | none =>
    rw [hcommand] at hkeeps
    exact .inl ⟨rfl, hkeeps.handlers List.not_mem_nil⟩
  | some command =>
    rw [hcommand] at hkeeps
    -- Only two commands change the handlers; for all others nothing has to be looked at.
    by_cases hchanges : .handlers ∈ command.changes
    · obtain ⟨kind, slot, target, rfl⟩ | ⟨slot, rfl⟩ := protects_of_changes hchanges
      · obtain ⟨pc, hrun⟩ := execute_command hcommand rfl linker callers
        rw [hrun]
        obtain ⟨error, t, hbroken⟩ | ⟨t, hok, hhandlers, -, htag⟩ :=
          protect_forms linker code callers (s.advance pc) kind slot target
        · exact .inr (.inl ⟨error, t, hbroken⟩)
        · exact .inr (.inr (.inl ⟨_, _, t, rfl, hok, hhandlers, htag⟩))
      · obtain ⟨pc, hrun⟩ := execute_command hcommand rfl linker callers
        rw [hrun]
        obtain ⟨error, t, hbroken⟩ | ⟨handler, t, hok, htag⟩ :=
          unprotect_forms linker code callers (s.advance pc) slot
        · exact .inr (.inl ⟨error, t, hbroken⟩)
        · exact .inr (.inr (.inr ⟨handler, _, t, rfl, hok, htag⟩))
    · exact .inl ⟨event_of_not_changes hchanges _, hkeeps.handlers hchanges⟩

/-- A command that a fault follows has done nothing to the handlers in force, and the stack is as
deep as before. -/
theorem handlers_of_fault {c : Chain} {frames : List Frame}
    (h : c.faulting? ((execute linker code callers).run c.state) = some frames)
    (hplace : c.callers.length < frames.length) :
    frames = ((execute linker code callers).final c.state).frame :: c.callers.map (·.frame) ∧
      ((execute linker code callers).final c.state).frame.handlers = c.state.frame.handlers ∧
      ((execute linker code callers).final c.state).process.depth = c.state.process.depth := by
  obtain ⟨hfault, hcall⟩ := early_execute linker code callers c.state
  obtain ⟨hframes, hstops⟩ | ⟨hframes, -⟩ := Chain.faulting?_forms h
  · refine ⟨hframes, ?_, ?_⟩
    · -- Commands that change the handlers go on or break.
      obtain ⟨-, hhandlers⟩ | ⟨error, t, hrun⟩ | ⟨_, _, t, -, hrun, -⟩ | ⟨_, _, t, -, hrun, -⟩ :=
        event_forms linker code callers c.state
      · exact hhandlers
      all_goals
        rw [hrun] at hstops
        simp at hstops
    · obtain ⟨fault, s, hrun⟩ | ⟨target, arguments, s, hrun⟩ := hstops
      · rw [Exec.final_of_error hrun]
        exact hfault fault s hrun
      · rw [Exec.final_of_ok hrun]
        exact hcall target arguments s hrun
  · -- An activation that has made way for a native does not see the fault.
    rw [hframes, List.length_map] at hplace
    omega

end Commands

/-! ## Steps -/

section Landings

variable {linker : Linker} {fault : Fault} {inner outer : List Frame} {own : Frame}
  {stack : List Term} {next : Chain} {l : Landing}

/-- A fault comes down inside an activation, in it, or outside. -/
theorem Landing.Of.place (h : l.Of linker fault (inner ++ own :: outer) stack next) :
    (∃ between, inner = l.passed ++ l.receiver :: between ∧ l.rest = between ++ own :: outer) ∨
    (l.passed = inner ∧ l.receiver = own ∧ l.rest = outer) ∨
    ∃ between, l.passed = inner ++ own :: between ∧ outer = between ++ l.receiver :: l.rest := by
  obtain ⟨front, hpassed, hown⟩ | ⟨front, hinner, hreceiver⟩ :=
    List.append_eq_append_iff.1 h.frames_eq
  · cases front with
    | nil =>
      cases hown
      exact .inr (.inl ⟨by rw [hpassed, List.append_nil], rfl, rfl⟩)
    | cons first front =>
      obtain ⟨rfl, houter⟩ := List.cons.inj hown
      exact .inr (.inr ⟨front, hpassed, houter⟩)
  · cases front with
    | nil =>
      obtain ⟨hreceiver, hrest⟩ := List.cons.inj hreceiver
      exact .inr (.inl ⟨by rw [hinner, List.append_nil], hreceiver, hrest⟩)
    | cons first front =>
      obtain ⟨rfl, hrest⟩ := List.cons.inj hreceiver
      exact .inl ⟨front, hinner, hrest⟩

/-- The activations when a fault has come down. -/
theorem Landing.Of.frames {frames : List Frame} (h : l.Of linker fault frames stack next) :
    next.frames = { l.receiver with
      tuple := none, bits := none, handlers := l.outer, pc := l.handler.label } :: l.rest := by
  unfold Chain.frames
  rw [h.frame_eq, h.callers_eq]

/-- The number of callers when a fault has come down. -/
theorem Landing.Of.length_callers {frames : List Frame} (h : l.Of linker fault frames stack next) :
    next.callers.length = l.rest.length := by
  rw [← h.callers_eq, List.length_map]

end Landings

/-- The activations that a command adds to those that wait began where the one that runs it did, or
where the stack ends. -/
theorem Flow.frames_eq_append (flow : Flow) (s : State) (waiting : List Frame) :
    ∃ front, flow.frames s waiting = front ++ waiting ∧
      ∀ f ∈ front, f.base = s.frame.base ∨ f.base = s.process.depth := by
  have hbegin : ∀ module entry, (Frame.enter module entry s.process.depth).base = s.process.depth :=
    fun _ _ => rfl
  unfold Flow.frames
  split
  · exact ⟨[s.frame], rfl, by simp⟩
  · exact ⟨[s.frame], rfl, by simp⟩
  · exact ⟨[s.frame], rfl, by simp⟩
  · exact ⟨[], rfl, by simp⟩
  · exact ⟨[], rfl, by simp⟩
  · exact ⟨[_, s.frame], rfl, by simp [hbegin]⟩
  · exact ⟨[_], rfl, by simp [hbegin]⟩

/-- An activation that does not make way for another is left, it goes on, or it waits for one that
begins where the stack ends. -/
theorem Flow.frames_of_keepsPlace {flow : Flow} {s : State} (waiting : List Frame)
    (h : tailCalls (.ok flow s) = false) :
    flow.frames s waiting = waiting ∨ flow.frames s waiting = s.frame :: waiting ∨
    ∃ target arguments f, flow = .call target arguments ∧ f.base = s.process.depth ∧
      flow.frames s waiting = f :: s.frame :: waiting := by
  unfold Flow.frames
  split
  · exact .inr (.inl rfl)
  · exact .inr (.inl rfl)
  · exact .inr (.inl rfl)
  · exact .inl rfl
  · exact .inl rfl
  · exact .inr (.inr ⟨_, _, _, rfl, rfl, rfl⟩)
  · cases h

section Steps

variable {linker : Linker} {code : LoadedModule} {c next : Chain} {regions : List Region}
  {inner outer : List Frame} {own : Frame}

/-- The next step finds out whether a fault comes to an activation. -/
theorem Chain.reached_eq (hcode : linker.get? c.state.frame.code = some code) (waiting : Nat) :
    c.reached linker waiting =
      (c.faulting? ((execute linker code c.callers).run c.state)).any (comesTo waiting) := by
  unfold Chain.reached
  rw [hcode]
  rfl

/-- The account after a step agrees with the activation if this holds of the handlers and tags. -/
theorem Chain.accounts_sink {inner' : List Frame} {own' : Frame}
    (hframes : next.frames = inner' ++ own' :: outer)
    (hhandlers : own'.handlers = openHandlers regions)
    (htagged : Tagged next.state.process (regions.map (Region.sink next.state.process.depth)))
    (habove : ∀ f ∈ inner', Above regions f.base) :
    next.Accounts (regions.map (Region.sink next.state.process.depth)) inner' own' outer where
  frames_eq := hframes
  handlers_eq := by rw [openHandlers_sink, hhandlers]
  tagged := htagged
  intact := by
    intro r hr hintact
    obtain ⟨r', -, rfl⟩ := List.mem_map.1 hr
    exact (intact_sink hintact).2
  above := fun f hf => (habove f hf).sink _

/-- What the next step does to the regions of an activation that no fault comes to. -/
theorem Chain.event_of_missed {waiting : Nat} (hmissed : c.reached linker waiting = false) :
    c.event linker waiting = if c.callers.length = waiting then
      (linker.get? c.state.frame.code).elim .quiet c.state.event else .quiet := by
  unfold Chain.event
  rw [hmissed, if_neg Bool.false_ne_true]

/-- A suspended activation goes on with the handlers that it had. -/
theorem handlers_wakeUp (k : Continuation) (r : Resumption) :
    (k.wakeUp r).handlers = k.frame.handlers := by
  unfold Continuation.wakeUp
  split
  · rfl
  · split
    · rfl
    · rfl

namespace Chain.Accounts

variable (h : c.Accounts regions inner own outer)
include h

/-- The stack is above the account. -/
theorem above_depth : Above regions c.state.process.depth :=
  fun r hr => ⟨fun _ hn => h.tagged.lt_depth hr hn, h.intact r hr⟩

/-- A command of an activation inside leaves the account alone. -/
theorem of_keeps {changes : List Aspect} {s : State} (hwaits : inner ≠ [])
    (hkeeps : c.state.begin.Keeps changes s) :
    SparesTags c.state.process s.process regions ∧ Above regions s.process.depth ∧
      Above regions s.frame.base := by
  obtain ⟨first, rest, rfl⟩ := List.exists_cons_of_ne_nil hwaits
  have hfirst : c.state.frame = first := (List.cons.inj h.frames_eq).1
  have habove : Above regions c.state.frame.base := h.above _ (hfirst ▸ List.mem_cons_self)
  refine ⟨habove.sparesTags h.tagged hkeeps.below, habove.depth h.tagged hkeeps.below h.intact, ?_⟩
  rw [hkeeps.base]
  exact habove

/-- The activations to which a fault comes. If the activation has not made way for a native, then it
is one of them, with the handlers that it had, and the stack has not sunk. -/
theorem of_fault {frames : List Frame}
    (hfault : c.faulting? ((execute linker code c.callers).run c.state) = some frames)
    (hplace : inner = [] → outer.length < frames.length) :
    ∃ inner' own', frames = inner' ++ own' :: outer ∧ own'.handlers = openHandlers regions ∧
      (inner = [] → inner' = []) ∧ (∀ f ∈ inner', Above regions f.base) ∧
      (inner ≠ [] → own' = own ∧ SparesTags c.state.process
        ((execute linker code c.callers).final c.state).process regions) ∧
      Above regions ((execute linker code c.callers).final c.state).process.depth := by
  have hkeeps := keeps_execute linker code c.callers c.state
  -- Either the activation runs itself, or it waits for the first of those inside.
  cases hinner : inner with
  | nil =>
    have hlength := (length_callers_eq_iff h.frames_eq).2 hinner
    have hlong := hplace hinner
    rw [← hlength] at hlong
    subst hinner
    obtain ⟨hown, houter⟩ := List.cons.inj h.frames_eq
    obtain ⟨hframes, hhandlers, hdepth⟩ := handlers_of_fault linker code c.callers hfault hlong
    refine ⟨[], ((execute linker code c.callers).final c.state).frame, ?_, ?_, fun _ => rfl,
      by simp, by simp, ?_⟩
    · rw [hframes, houter]
      rfl
    · rw [hhandlers, hown, h.handlers_eq]
    · rw [hdepth]
      exact h.above_depth
  | cons first rest =>
    subst hinner
    obtain ⟨hspares, hdepth, hbase⟩ := h.of_keeps (by simp) hkeeps
    obtain ⟨-, hcallers⟩ := List.cons.inj h.frames_eq
    have hrest : ∀ f ∈ rest, Above regions f.base :=
      fun f hf => h.above f (List.mem_cons_of_mem first hf)
    obtain ⟨hframes, -⟩ | ⟨hframes, -⟩ := Chain.faulting?_forms hfault
    · refine ⟨((execute linker code c.callers).final c.state).frame :: rest, own, ?_,
        h.handlers_eq, by simp, ?_, fun _ => ⟨rfl, hspares⟩, hdepth⟩
      · rw [hframes, hcallers]
        rfl
      · intro f hf
        rcases List.mem_cons.1 hf with rfl | hf
        · exact hbase
        · exact hrest f hf
    · exact ⟨rest, own, hframes.trans hcallers, h.handlers_eq, by simp, hrest,
        fun _ => ⟨rfl, hspares⟩, hdepth⟩

/-- The activation waits, and no fault comes to it: it stays as it is. -/
theorem step_inside (hwaits : inner ≠ []) (hmissed : c.reached linker outer.length = false)
    (hstep : c.step linker = .running next) :
    ∃ inner', next.Accounts (c.account linker outer.length regions next) inner' own outer := by
  have hevent : c.event linker outer.length = .quiet := by
    rw [Chain.event_of_missed hmissed, if_neg fun hlength =>
      hwaits ((length_callers_eq_iff h.frames_eq).1 hlength)]
  unfold Chain.account
  rw [hevent]
  obtain ⟨code, hcode, ⟨frames, fault, l, hfault, -, hlanding⟩ | ⟨-, flow, s, hrun, hnext⟩⟩ :=
    Chain.step_forms hstep
  · obtain ⟨inner', own', rfl, -, -, habove, hsame, -⟩ :=
      h.of_fault hfault fun hinner => absurd hinner hwaits
    obtain ⟨rfl, hspares⟩ := hsame hwaits
    rw [Chain.reached_eq hcode, hfault, Option.any_some, comesTo_append rfl] at hmissed
    -- Some activation inside has a handler, so that one receives the fault.
    have hinside : ¬ ∀ f ∈ inner', f ∈ l.passed := by
      intro hpassed
      have hall : inner'.all (·.handlers.isEmpty) = true := by
        rw [List.all_eq_true]
        intro f hf
        rw [hlanding.bare f (hpassed f hf)]
        rfl
      rw [hmissed] at hall
      cases hall
    obtain ⟨between, rfl, hrest⟩ | ⟨hpassed, -⟩ | ⟨between, hpassed, -⟩ := hlanding.place
    · refine ⟨_ :: between, accounts_sink (by rw [hlanding.frames, hrest]; rfl) h.handlers_eq
        (h.tagged.sink (hspares.cut hlanding.stack_suffix)) fun f hf => ?_⟩
      rcases List.mem_cons.1 hf with rfl | hf
      · exact habove l.receiver (List.mem_append_right _ List.mem_cons_self)
      · exact habove f (List.mem_append_right _ (List.mem_cons_of_mem _ hf))
    · exact absurd (fun f hf => hpassed ▸ hf) hinside
    · exact absurd (fun f hf => hpassed ▸ List.mem_append_left _ hf) hinside
  · have hkeeps := keeps_execute linker code c.callers c.state
    rw [Exec.final_of_ok hrun] at hkeeps
    obtain ⟨hspares, hdepth, hbase⟩ := h.of_keeps hwaits hkeeps
    obtain ⟨first, rest, rfl⟩ := List.exists_cons_of_ne_nil hwaits
    have hcallers : c.callers.map (·.frame) = rest ++ own :: outer := (List.cons.inj h.frames_eq).2
    obtain ⟨front, hfront, hbases⟩ := flow.frames_eq_append s (rest ++ own :: outer)
    refine ⟨front ++ rest, accounts_sink ?_ h.handlers_eq
      (h.tagged.sink (hspares.cut (hnext.stack_eq ▸ List.suffix_rfl))) fun f hf => ?_⟩
    · rw [hnext.frames_eq, hcallers, hfront, List.append_assoc]
    · rcases List.mem_append.1 hf with hf | hf
      · rcases hbases f hf with heq | heq
        · rw [heq]
          exact hbase
        · rw [heq]
          exact hdepth
      · exact h.above f (List.mem_cons_of_mem first hf)

/-- A fault comes to the activation. -/
theorem of_reached (hreached : c.reached linker outer.length = true) :
    ∃ code inner' own', linker.get? c.state.frame.code = some code ∧
      c.faulting? ((execute linker code c.callers).run c.state) =
        some (inner' ++ own' :: outer) ∧
      (∀ f ∈ inner', f.handlers = []) ∧ own'.handlers = openHandlers regions ∧
      (∀ f ∈ inner', Above regions f.base) ∧
      (inner ≠ [] → SparesTags c.state.process
        ((execute linker code c.callers).final c.state).process regions) ∧
      Above regions ((execute linker code c.callers).final c.state).process.depth := by
  obtain ⟨frames, hframes, hcomes⟩ := (Option.any_eq_true _ _).1 hreached
  obtain ⟨code, hcode, hfault⟩ := Option.bind_eq_some_iff.1 hframes
  have hlong : outer.length < frames.length := by
    refine Nat.lt_of_not_le fun hle => ?_
    rw [comesTo_of_length_le hle] at hcomes
    cases hcomes
  obtain ⟨inner', own', rfl, hhandlers, -, habove, hsame, hdepth⟩ :=
    h.of_fault hfault fun _ => hlong
  rw [comesTo_append rfl, List.all_eq_true] at hcomes
  exact ⟨code, inner', own', hcode, hfault, fun f hf => List.isEmpty_iff.1 (hcomes f hf), hhandlers,
    habove, fun hwaits => (hsame hwaits).2, hdepth⟩

/-- The innermost open region receives a fault that comes to the activation. -/
theorem step_reached (hreached : c.reached linker outer.length = true)
    (hstep : c.step linker = .running next)
    (horderly : c.Orderly linker outer.length regions next) :
    ∃ own', next.Accounts (c.account linker outer.length regions next) [] own' outer := by
  have hevent : c.event linker outer.length = .received := by
    unfold Chain.event
    rw [if_pos hreached]
  obtain ⟨code, inner', own', hcode, hfault, hbare, hhandlers, -, hspares, -⟩ :=
    h.of_reached hreached
  obtain ⟨fault, -, ⟨-, host, hhalted⟩ | ⟨l, next', hrunning, hlanding⟩⟩ :=
    Chain.settle_faulting linker hfault
  all_goals rw [Chain.step_eq_settle hcode] at hstep
  · cases hstep.symm.trans hhalted
  · cases hstep.symm.trans hrunning
    obtain ⟨between, rfl, -⟩ | ⟨-, hreceiver, hrest⟩ | ⟨between, -, houter⟩ := hlanding.place
    · -- The activations inside have no handlers.
      have hnone := hbare l.receiver (List.mem_append_right _ List.mem_cons_self)
      rw [hlanding.handlers_eq] at hnone
      cases hnone
    · have hopen : openHandlers regions = l.handler :: l.outer := by
        rw [← hhandlers, ← hreceiver, hlanding.handlers_eq]
      obtain ⟨region, rest, hregions, -, hothers⟩ := openHandlers_eq_cons hopen
      have htags : SparesTags c.state.process next.state.process (receive regions) := by
        by_cases hinner : inner = []
        · have hown := horderly.spares ((length_callers_eq_iff h.frames_eq).2 hinner)
          rw [hevent] at hown
          exact hown
        · exact (sparesTags_receive (hspares hinner)).cut hlanding.stack_suffix
      unfold Chain.account
      rw [hevent]
      refine ⟨_, accounts_sink (by rw [hlanding.frames, hrest]; rfl) ?_
        ((tagged_receive h.tagged).sink htags) (by simp)⟩
      exact hothers.symm.trans (openHandlers_receive hregions).symm
    · -- It cannot come down outside, since the activation has not been left.
      have hstays := horderly.stays
      have hlength := congrArg List.length houter
      rw [List.length_append, List.length_cons] at hlength
      rw [hlanding.length_callers] at hstays
      omega

/-- The activation begins a region. -/
theorem begin_region {s : State} {handler : Handler} {position : Nat}
    (hframes : next.frames = s.frame :: outer)
    (hstack : next.state.process.stack = s.process.stack)
    (hnew : s.frame.handlers = handler :: openHandlers regions)
    (htag : s.process.tagAt? position = some (handler, openHandlers regions))
    (hspares : SparesTags c.state.process next.state.process regions) :
    next.Accounts ((⟨handler, some position, true, true⟩ :: regions).map
      (Region.sink next.state.process.depth)) [] s.frame outer := by
  refine accounts_sink hframes (by rw [hnew]; rfl) ⟨fun n hn => ?_, h.tagged.sink hspares⟩ (by simp)
  obtain rfl := Option.some.inj (mem_slot_sink.1 hn).1
  have hslot : next.state.process.tagAt? position = s.process.tagAt? position := by
    unfold Process.tagAt?
    rw [hstack]
  rw [hslot, htag, openHandlers_sink]
  rfl

/-- The activation ends its innermost region. -/
theorem end_region {s : State} {handler : Handler} {position : Nat}
    (hframes : next.frames = s.frame :: outer) (hinnermost : InnermostAt regions position)
    (htag : c.state.process.tagAt? position = some (handler, s.frame.handlers))
    (hspares : SparesTags c.state.process next.state.process (finish position regions)) :
    next.Accounts ((finish position regions).map (Region.sink next.state.process.depth)) [] s.frame
      outer := by
  obtain ⟨above, region, rest, rfl, hslot, habove⟩ := hinnermost
  have hfinish : finish position (above ++ region :: rest) = rest :=
    finish_eq rest hslot fun a ha => (habove a ha).2
  obtain ⟨htagged, hrest⟩ := h.tagged.of_append
  have hnamed : (handler, s.frame.handlers) = (region.handler, openHandlers rest) :=
    Option.some.inj (htag.symm.trans (htagged position hslot))
  rw [hfinish] at hspares ⊢
  exact accounts_sink hframes (Prod.mk.inj hnamed).2 (hrest.sink hspares) (by simp)

/-- The activation does nothing to its regions. -/
theorem go_on {flow : Flow} {s : State} (hruns : inner = [])
    (hrun : (execute linker code c.callers).run c.state = .ok flow s)
    (hframes : next.frames = flow.frames s outer) (hstays : outer.length ≤ next.callers.length)
    (hplace : tailCalls (.ok flow s) = false)
    (hsame : s.frame.handlers = openHandlers regions)
    (hspares : SparesTags c.state.process next.state.process regions) :
    ∃ inner', next.Accounts (regions.map (Region.sink next.state.process.depth)) inner' s.frame
      outer := by
  subst hruns
  have htagged := h.tagged.sink hspares
  obtain hleft | hsingle | ⟨target, arguments, f, rfl, hbase, hcalls⟩ :=
    Flow.frames_of_keepsPlace outer hplace
  · -- The activation has not been left.
    have hcount := length_frames next
    rw [hframes, hleft] at hcount
    omega
  · exact ⟨[], accounts_sink (hframes.trans hsingle) hsame htagged (by simp)⟩
  · -- The one that it calls begins where the stack ends.
    have hdepth := (early_execute linker code c.callers c.state).2 target arguments s hrun
    refine ⟨[f], accounts_sink (hframes.trans hcalls) hsame htagged fun g hg => ?_⟩
    rw [List.mem_singleton.1 hg, hbase, hdepth]
    exact h.above_depth

/-- The activation runs, and no fault follows from its command. -/
theorem step_own (hruns : inner = []) (hmissed : c.reached linker outer.length = false)
    (hstep : c.step linker = .running next)
    (horderly : c.Orderly linker outer.length regions next) :
    ∃ inner' own',
      next.Accounts (c.account linker outer.length regions next) inner' own' outer := by
  have hlength := (length_callers_eq_iff h.frames_eq).2 hruns
  have hplace := horderly.keepsPlace hlength
  have hspares := horderly.spares hlength
  have hinnermost := horderly.innermost
  obtain ⟨hown, hcallers⟩ : c.state.frame = own ∧ c.callers.map (·.frame) = outer := by
    subst hruns
    exact List.cons.inj h.frames_eq
  have hhandlers : c.state.frame.handlers = openHandlers regions := by rw [hown, h.handlers_eq]
  obtain ⟨code, hcode, ⟨frames, fault, l, hfault, -, hlanding⟩ | ⟨-, flow, s, hrun, hnext⟩⟩ :=
    Chain.step_forms hstep
  · -- A fault would come to the activation, or it would have been left.
    have hlong : outer.length < frames.length := by
      have hcount := congrArg List.length hlanding.frames_eq
      have hstays := horderly.stays
      rw [List.length_append, List.length_cons] at hcount
      rw [hlanding.length_callers] at hstays
      omega
    obtain ⟨inner', own', rfl, -, hnil, -⟩ := h.of_fault hfault fun _ => hlong
    rw [Chain.reached_eq hcode, hfault, Option.any_some, comesTo_append rfl, hnil hruns] at hmissed
    cases hmissed
  -- No fault follows, so the event is the one of the command.
  have hframes := hnext.frames_eq
  rw [hcallers] at hframes
  have hevent := Chain.event_of_missed hmissed
  rw [if_pos hlength, hcode, Option.elim_some] at hevent
  unfold Chain.makesWay at hplace
  rw [hcode, Option.any_some, hrun] at hplace
  unfold Chain.account
  rw [hevent] at hspares hinnermost ⊢
  obtain ⟨hquiet, hsame⟩ | ⟨error, t, hbroken⟩ | ⟨handler, position, t, hbegan, hok, hnew, htag⟩ |
      ⟨handler, position, t, hended, hok, htag⟩ := event_forms linker code c.callers c.state
  · rw [hquiet] at hspares ⊢
    rw [Exec.final_of_ok hrun, hhandlers] at hsame
    obtain ⟨inner', haccounts⟩ :=
      h.go_on hruns hrun hframes horderly.stays hplace hsame hspares
    exact ⟨inner', s.frame, haccounts⟩
  · rw [hrun] at hbroken
    cases hbroken
  · cases hrun.symm.trans hok
    rw [hbegan] at hspares ⊢
    rw [hhandlers] at hnew htag
    exact ⟨[], s.frame, h.begin_region hframes hnext.stack_eq hnew htag hspares⟩
  · cases hrun.symm.trans hok
    rw [hended] at hspares hinnermost ⊢
    exact ⟨[], s.frame, h.end_region hframes (hinnermost position rfl) htag hspares⟩

/-- A step keeps the account in agreement with the activation. -/
theorem step (hstep : c.step linker = .running next)
    (horderly : c.Orderly linker outer.length regions next) :
    ∃ inner' own',
      next.Accounts (c.account linker outer.length regions next) inner' own' outer := by
  cases hreached : c.reached linker outer.length with
  | true => exact ⟨[], h.step_reached hreached hstep horderly⟩
  | false =>
    by_cases hruns : inner = []
    · exact h.step_own hruns hreached hstep horderly
    · obtain ⟨inner', haccounts⟩ := h.step_inside hruns hreached hstep
      exact ⟨inner', own, haccounts⟩

/-- A suspended chain goes on, and the activation has the handlers that it had. -/
theorem wakeUp {before : Host} {k : Continuation}
    (hstep : c.step linker = .halted ⟨before, .suspended k⟩) (r : Resumption) (after : Host) :
    ∃ inner' own', (k.chain r after).frames = inner' ++ own' :: outer ∧
      own'.handlers = openHandlers regions ∧ (∀ f ∈ inner', Above regions f.base) ∧
      (inner ≠ [] → SparesTags c.state.process before.process regions) := by
  obtain ⟨code, wake, s, hcode, hrun, hk, hprocess⟩ := Chain.step_suspended hstep
  have hframe : k.frame = s.frame := by rw [hk]
  have hframes : (k.chain r after).frames = k.wakeUp r :: c.callers.map (·.frame) := by
    rw [hk]
    rfl
  have hkeeps := keeps_execute linker code c.callers c.state
  rw [Exec.final_of_ok hrun] at hkeeps
  by_cases hruns : inner = []
  · subst hruns
    obtain ⟨hown, hcallers⟩ := List.cons.inj h.frames_eq
    refine ⟨[], k.wakeUp r, by rw [hframes, hcallers]; rfl, ?_, by simp, by simp⟩
    rw [handlers_wakeUp, hframe, ← h.handlers_eq, ← hown]
    -- Commands that change the handlers go on or break.
    obtain ⟨-, hsame⟩ | ⟨error, t, hother⟩ | ⟨_, _, t, -, hother, -⟩ | ⟨_, _, t, -, hother, -⟩ :=
      event_forms linker code c.callers c.state
    · rw [Exec.final_of_ok hrun] at hsame
      exact hsame
    all_goals cases hrun.symm.trans hother
  · obtain ⟨hspares, -, hbase⟩ := h.of_keeps hruns hkeeps
    obtain ⟨first, rest, rfl⟩ := List.exists_cons_of_ne_nil hruns
    have hcallers : c.callers.map (·.frame) = rest ++ own :: outer := (List.cons.inj h.frames_eq).2
    refine ⟨k.wakeUp r :: rest, own, by rw [hframes, hcallers]; rfl, h.handlers_eq, ?_, ?_⟩
    · intro f hf
      rcases List.mem_cons.1 hf with rfl | hf
      · rw [base_wakeUp, hframe]
        exact hbase
      · exact h.above f (List.mem_cons_of_mem first hf)
    · intro _
      rw [hprocess]
      exact hspares

/-- A suspended chain goes on with the stack that it had, and the account still agrees with the
activation. -/
theorem resume {before after : Host} {k : Continuation} (r : Resumption)
    (hstep : c.step linker = .halted ⟨before, .suspended k⟩)
    (hstack : after.process.stack = before.process.stack)
    (hspares : c.callers.length = outer.length →
      SparesTags c.state.process after.process regions) :
    ∃ inner' own', (k.chain r after).Accounts (regions.map (Region.sink after.process.depth)) inner'
      own' outer := by
  obtain ⟨inner', own', hframes, hhandlers, habove, hinside⟩ := h.wakeUp hstep r after
  have htags : SparesTags c.state.process after.process regions := by
    by_cases hruns : inner = []
    · exact hspares ((length_callers_eq_iff h.frames_eq).2 hruns)
    · exact (hinside hruns).cut (hstack ▸ List.suffix_rfl)
  exact ⟨inner', own', accounts_sink hframes hhandlers (h.tagged.sink htags) habove⟩

end Chain.Accounts

end Steps

/-! ## Whole runs -/

/-- The account agrees with the activation in everything that it goes through. -/
theorem LivesThrough.accounts {linker : Linker} {waiting : Nat} {c : Chain} {regions : List Region}
    (h : LivesThrough linker waiting c regions) :
    ∃ inner own outer, outer.length = waiting ∧ c.Accounts regions inner own outer := by
  -- What one step and one suspension preserve is preserved by all.
  induction h with
  | @start c module entry hwaiting hframe =>
    refine ⟨[], c.state.frame, c.callers.map (·.frame), by rw [List.length_map, hwaiting], ?_⟩
    exact ⟨rfl, by rw [hframe]; rfl, trivial, by simp, by simp⟩
  | step _ hstep horderly ih =>
    obtain ⟨inner, own, outer, rfl, haccounts⟩ := ih
    obtain ⟨inner', own', haccounts'⟩ := haccounts.step hstep horderly
    exact ⟨inner', own', outer, rfl, haccounts'⟩
  | resume _ hstep hstack hspares ih =>
    obtain ⟨inner, own, outer, rfl, haccounts⟩ := ih
    obtain ⟨inner', own', haccounts'⟩ := haccounts.resume _ hstep hstack hspares
    exact ⟨inner', own', outer, rfl, haccounts'⟩

/-- A fault that comes to an activation with an open region: the innermost one receives it, and the
stack is as deep as when that region was begun unless it has been less deep since. -/
theorem Chain.Accounts.receives {linker : Linker} {c : Chain} {regions : List Region}
    {inner outer : List Frame} {own : Frame} (h : c.Accounts regions inner own outer)
    {region : Region} {rest : List Region} (hopen : regions.filter (·.isOpen) = region :: rest)
    (hreached : c.reached linker outer.length = true) :
    ∃ next, c.step linker = .running next ∧ next.callers.length = outer.length ∧
      next.state.frame.pc = region.handler.label ∧
      next.state.frame.handlers = rest.map (·.handler) ∧
      next.state.frame.tuple = none ∧ next.state.frame.bits = none ∧
      (region.intact → next.state.process.depth = region.handler.depth) := by
  obtain ⟨code, inner', own', hcode, hfault, hbare, hhandlers, habove, -, hdepth⟩ :=
    h.of_reached hreached
  have hown : own'.handlers = region.handler :: rest.map (·.handler) := by
    rw [hhandlers]
    unfold openHandlers
    rw [hopen]
    rfl
  have hmem : region ∈ regions := List.filter_sublist.subset (hopen ▸ List.mem_cons_self)
  obtain ⟨fault, -, ⟨hall, -⟩ | ⟨l, next, hrunning, hlanding⟩⟩ :=
    Chain.settle_faulting linker hfault
  · -- The activation has a handler.
    rw [hall own' (by simp)] at hown
    cases hown
  · obtain ⟨between, rfl, -⟩ | ⟨rfl, rfl, hrest⟩ | ⟨between, hpassed, -⟩ := hlanding.place
    · have hnone := hbare l.receiver (by simp)
      rw [hlanding.handlers_eq] at hnone
      cases hnone
    · obtain ⟨hhandler, houter⟩ := List.cons.inj (hlanding.handlers_eq.symm.trans hown)
      rw [Chain.step_eq_settle hcode]
      refine ⟨next, hrunning, by rw [hlanding.length_callers, hrest], ?_⟩
      rw [hlanding.frame_eq]
      refine ⟨congrArg Handler.label hhandler, houter, rfl, rfl, fun hintact => ?_⟩
      have hle := hlanding.depth_le
      rw [hhandler] at hle
      refine Nat.le_antisymm hle (hlanding.le_depth _ ((hdepth region hmem).2 hintact) ?_ ?_)
      · exact fun f hf => (habove f hf region hmem).2 hintact
      · exact Nat.le_of_eq (congrArg Handler.depth hhandler.symm)
    · rw [hlanding.bare own' (by rw [hpassed]; simp)] at hown
      cases hown

/-- The handlers of an activation come into force and go like a stack. They are those of the open
regions, innermost first, all the time. While the activation waits for another it stays as it is,
and so do its handlers while it is suspended. A fault that comes to it goes to the first of them and
leaves the others in force, with nothing under construction and the stack as deep as when the region
began, unless it has been less deep since. -/
theorem handlers_follow_regions {linker : Linker} {waiting : Nat} {c : Chain}
    {regions : List Region} (h : LivesThrough linker waiting c regions) :
    (∃ own, c.activation? waiting = some own ∧ own.handlers = openHandlers regions) ∧
    (waiting < c.callers.length → c.reached linker waiting = false → ∀ next,
      c.step linker = .running next → next.activation? waiting = c.activation? waiting) ∧
    (∀ before k r after, c.step linker = .halted ⟨before, .suspended k⟩ →
      ((k.chain r after).activation? waiting).map (·.handlers) = some (openHandlers regions)) ∧
    (∀ region rest, regions.filter (·.isOpen) = region :: rest → c.reached linker waiting →
      ∃ next, c.step linker = .running next ∧ next.callers.length = waiting ∧
        next.state.frame.pc = region.handler.label ∧
        next.state.frame.handlers = rest.map (·.handler) ∧
        next.state.frame.tuple = none ∧ next.state.frame.bits = none ∧
        (region.intact → next.state.process.depth = region.handler.depth)) := by
  obtain ⟨inner, own, outer, rfl, haccounts⟩ := h.accounts
  have hown := activation?_eq haccounts.frames_eq
  refine ⟨⟨own, hown, haccounts.handlers_eq⟩, ?_, ?_, fun _ _ => haccounts.receives⟩
  · intro hwaits hmissed next hstep
    have hinner : inner ≠ [] := fun hruns =>
      Nat.ne_of_gt hwaits ((length_callers_eq_iff haccounts.frames_eq).2 hruns)
    obtain ⟨inner', hnext⟩ := haccounts.step_inside hinner hmissed hstep
    rw [hown, activation?_eq hnext.frames_eq]
  · intro before k r after hstep
    obtain ⟨inner', own', hframes, hhandlers, -⟩ := haccounts.wakeUp hstep r after
    rw [activation?_eq hframes, Option.map_some, hhandlers]

/-! ## Two regions, a call and a suspension -/

instance (linker : Linker) (waiting : Nat) (c : Chain) (regions : List Region) (next : Chain) :
    Decidable (c.Orderly linker waiting regions next) :=
  decidable_of_iff (waiting ≤ next.callers.length ∧
      (c.callers.length = waiting → c.makesWay linker = false) ∧
      (∀ position ∈ (c.event linker waiting).ended?, InnermostAt regions position) ∧
      (c.callers.length = waiting → SparesTags c.state.process next.state.process
        ((c.event linker waiting).remaining regions)))
    ⟨fun ⟨a, b, d, e⟩ => ⟨a, b, d, e⟩, fun ⟨a, b, d, e⟩ => ⟨a, b, d, e⟩⟩

/-- Follows an activation for so many steps, as long as they are orderly. Whenever the chain is
suspended, it goes on since time has run out. -/
def Chain.follow? (linker : Linker) (waiting : Nat) : Nat → Chain → List Region →
    Option (Chain × List Region)
  | 0, c, regions => some (c, regions)
  | n + 1, c, regions =>
    match c.step linker with
    | .running next =>
      if c.Orderly linker waiting regions next then
        next.follow? linker waiting n (c.account linker waiting regions next)
      else none
    | .halted ⟨before, .suspended k⟩ =>
      if c.callers.length = waiting → SparesTags c.state.process before.process regions then
        (k.chain .timedOut before).follow? linker waiting n
          (regions.map (Region.sink before.process.depth))
      else none
    | .halted _ => none

/-- What `follow?` comes to is on the way of the activation. -/
theorem LivesThrough.of_follow? {linker : Linker} {waiting n : Nat} {c last : Chain}
    {regions regions' : List Region} (h : LivesThrough linker waiting c regions)
    (hfollow : c.follow? linker waiting n regions = some (last, regions')) :
    LivesThrough linker waiting last regions' := by
  induction n generalizing c regions with
  | zero =>
    cases hfollow
    exact h
  | succ n ih =>
    unfold Chain.follow? at hfollow
    split at hfollow
    · rename_i next hstep
      obtain ⟨horderly, hrest⟩ := Option.ite_none_right_eq_some.1 hfollow
      exact ih (.step h hstep horderly) hrest
    · rename_i before k hstep
      obtain ⟨hspares, hrest⟩ := Option.ite_none_right_eq_some.1 hfollow
      exact ih (.resume h hstep rfl hspares) hrest
    · cases hfollow

/-- A module with two functions. The first begins two regions and calls the second, which waits for
a message until time runs out and then fails to match a value. -/
def guardingListing : Listing where
  name := "m"
  exports := #[⟨"f", 0⟩]
  functions := #[
    ⟨⟨"f", 0⟩, 2, #[
      ⟨.label, [.int 1]⟩,
      ⟨.funcInfo, [.atom "m", .atom "f", .int 0]⟩,
      ⟨.label, [.int 2]⟩,
      ⟨.allocate, [.int 2, .int 0]⟩,
      ⟨.tryBegin, [.y 0, .label 3]⟩,
      ⟨.catchBegin, [.y 1, .label 4]⟩,
      ⟨.call, [.int 0, .label 6]⟩,
      ⟨.label, [.int 4]⟩,
      ⟨.catchEnd, [.y 1]⟩,
      ⟨.label, [.int 3]⟩,
      ⟨.tryCase, [.y 0]⟩,
      ⟨.deallocate, [.int 2]⟩,
      ⟨.ret, []⟩]⟩,
    ⟨⟨"g", 0⟩, 6, #[
      ⟨.label, [.int 5]⟩,
      ⟨.funcInfo, [.atom "m", .atom "g", .int 0]⟩,
      ⟨.label, [.int 6]⟩,
      ⟨.waitTimeout, [.label 6, .int 1]⟩,
      ⟨.badmatch, [.atom "a"]⟩]⟩]

/-- A linker with the module of the listing. -/
def guardingLinker : Linker :=
  ((Linker.withErlang.load (guardingListing.toModule.toOption.getD default)).link 0).2

/-- The first function begins, and another activation waits for it. -/
def guardingStart : Chain := { Chain.start ⟨"m", 0⟩ 4 [] {} with callers := [default] }

/-- The regions of the first function while it waits for the second. -/
def guardingRegions : List Region :=
  [⟨⟨.catchValue, 17, 2⟩, some 0, true, true⟩, ⟨⟨.tryClauses, 19, 2⟩, some 1, true, true⟩]

/-- The chain in which the second function fails to match a value. -/
def guardingChain : Chain :=
  ((guardingStart.follow? guardingLinker 1 9 []).map (·.1)).getD default

/-- Both regions are open when the second function fails, after a call and a suspension. -/
theorem livesThrough_guarding : LivesThrough guardingLinker 1 guardingChain guardingRegions := by
  have hstart : LivesThrough guardingLinker 1 guardingStart [] := .start rfl rfl
  refine hstart.of_follow? (n := 9) ?_
  decide +kernel

/-- The inner one receives the fault of the second function. -/
theorem handlers_follow_regions_call :
    LivesThrough guardingLinker 1 guardingChain guardingRegions ∧
      guardingChain.callers.length = 2 ∧
      ∃ next, guardingChain.step guardingLinker = .running next ∧ next.callers.length = 1 ∧
        next.state.frame.pc = 17 ∧ next.state.frame.handlers = [⟨.tryClauses, 19, 2⟩] ∧
        next.state.process.depth = 2 := by
  have hreached : guardingChain.reached guardingLinker 1 = true := by decide +kernel
  have hcallers : guardingChain.callers.length = 2 := by decide +kernel
  obtain ⟨-, -, -, hreceives⟩ := handlers_follow_regions livesThrough_guarding
  obtain ⟨next, hstep, hwaiting, hpc, hhandlers, -, -, hdepth⟩ := hreceives _ _ rfl hreached
  exact ⟨livesThrough_guarding, hcallers, next, hstep, hwaiting, hpc, hhandlers, hdepth rfl⟩

end ErlangMachine.Machine
