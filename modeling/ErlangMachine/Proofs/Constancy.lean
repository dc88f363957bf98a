import ErlangMachine.Proofs.StraightCode

/-!
# What commands leave alone

Most commands change registers and slots of their activation. Few commands change the handlers in
force, the fault that a handler received last, the number of slots on the stack, or the mailbox.
`Command.changes` lists what a command may change of these, and `keeps_execute` says that it changes
nothing else. No command changes which code runs, the base of its activation, or a slot below that
base (`State.Keeps`).

A command that raises a fault, or waits for a call, does so before it takes or gives back slots
(`early_execute`), and only commands that call are followed by a call (`quiet_run`).
-/

namespace ErlangMachine

/-- Who a process is, and its mailbox. -/
def World.mail (w : World) : Nat × Mailbox := (w.self, w.mailbox)

/-- A check for preemption leaves the mailbox alone. -/
theorem World.mail_checkYield (w : World) : w.checkYield.2.mail = w.mail := by
  unfold World.checkYield
  split
  · rfl
  · split
    · rfl
    · rfl

namespace Machine

/-- What only few commands change. -/
inductive Aspect where
  /-- The handlers in force. -/
  | handlers
  /-- The fault that a handler received last. -/
  | lastFault
  /-- The number of slots. -/
  | depth
  /-- The mailbox, and who the process is. -/
  | mail
  deriving DecidableEq

/-- What a command may change of that. -/
def Command.changes : Command → List Aspect
  | .allocate _ | .release _ | .call _ (.tail _) => [.depth]
  | .protect .. | .unprotect _ => [.handlers]
  | .raise => [.lastFault]
  | .native .. | .send | .loopReceiveEnd _ | .removeMessage | .timeout => [.mail]
  | _ => []

/-- One state has become another, and nothing has changed but what is listed, registers, slots of
the activation and what else there is in the world. -/
structure State.Keeps (changes : List Aspect) (s t : State) : Prop where
  /-- The same code runs. -/
  code : t.frame.code = s.frame.code
  /-- The activation began at the same depth. -/
  base : t.frame.base = s.frame.base
  /-- The command that runs last stands at the same offset. -/
  lastPc : t.frame.lastPc = s.frame.lastPc
  /-- Slots below that depth are as they were. -/
  below : ∀ slots, slots <:+ s.process.stack → slots.length ≤ s.frame.base →
    slots <:+ t.process.stack
  /-- The handlers in force. -/
  handlers : .handlers ∉ changes → t.frame.handlers = s.frame.handlers
  /-- The fault that a handler received last. -/
  lastFault : .lastFault ∉ changes → t.process.lastFault = s.process.lastFault
  /-- The number of slots. -/
  depth : .depth ∉ changes → t.process.depth = s.process.depth
  /-- The mailbox. -/
  mail : .mail ∉ changes → t.world.mail = s.world.mail

namespace State.Keeps

variable {changes : List Aspect} {s t u : State}

theorem refl (changes : List Aspect) (s : State) : s.Keeps changes s :=
  ⟨rfl, rfl, rfl, fun _ h _ => h, fun _ => rfl, fun _ => rfl, fun _ => rfl, fun _ => rfl⟩

/-- One change after another. -/
theorem trans (h : s.Keeps changes t) (h' : t.Keeps changes u) : s.Keeps changes u where
  code := h'.code.trans h.code
  base := h'.base.trans h.base
  lastPc := h'.lastPc.trans h.lastPc
  below := by
    intro slots hslots hlength
    have hbase : slots.length ≤ t.frame.base := by rw [h.base]; exact hlength
    exact h'.below slots (h.below slots hslots hlength) hbase
  handlers := fun hmem => (h'.handlers hmem).trans (h.handlers hmem)
  lastFault := fun hmem => (h'.lastFault hmem).trans (h.lastFault hmem)
  depth := fun hmem => (h'.depth hmem).trans (h.depth hmem)
  mail := fun hmem => (h'.mail hmem).trans (h.mail hmem)

/-- What changes little changes no more than that. -/
theorem mono {changes' : List Aspect} (h : s.Keeps changes t) (hsub : changes ⊆ changes') :
    s.Keeps changes' t where
  code := h.code
  base := h.base
  lastPc := h.lastPc
  below := h.below
  handlers := fun hmem => h.handlers fun hmem' => hmem (hsub hmem')
  lastFault := fun hmem => h.lastFault fun hmem' => hmem (hsub hmem')
  depth := fun hmem => h.depth fun hmem' => hmem (hsub hmem')
  mail := fun hmem => h.mail fun hmem' => hmem (hsub hmem')

end State.Keeps

/-- What is called after a command, with its arguments. -/
def Flow.called? : Flow → Option (Callable × List Term)
  | call target arguments | tailCall target arguments => some (target, arguments)
  | _ => none

/-! ## Actions -/

/-- The state that a result leaves. -/
def stateOf {α : Type} : EStateM.Result Stop State α → State
  | .ok _ s => s
  | .error _ s => s

namespace Exec

/-- The state in which an action ends, whether or not it ends as it should. -/
def final {α : Type} (action : Exec α) (s : State) : State := stateOf (action.run s)

/-- An action that changes nothing of interest but what is listed. -/
def Keeps {α : Type} (changes : List Aspect) (action : Exec α) : Prop :=
  ∀ s : State, s.Keeps changes (action.final s)

section Actions

variable {α β : Type} {changes : List Aspect} {action : Exec α}

/-- The state in which an action ends as it should. -/
theorem final_of_ok {s t : State} {a : α} (h : action.run s = .ok a t) : action.final s = t := by
  unfold final
  rw [h]
  rfl

/-- The state in which an action ends otherwise. -/
theorem final_of_error {s t : State} {e : Stop} (h : action.run s = .error e t) :
    action.final s = t := by
  unfold final
  rw [h]
  rfl

/-- One action after another. -/
theorem Keeps.bind {k : α → Exec β} (h : action.Keeps changes) (hk : ∀ a, (k a).Keeps changes) :
    (action >>= k).Keeps changes := by
  intro s
  have hs := h s
  cases hrun : action.run s with
  | ok a t =>
    have hbind : (action >>= k).final s = (k a).final t := by
      unfold final
      rw [EStateM.run_bind, hrun]
    rw [final_of_ok hrun] at hs
    rw [hbind]
    exact hs.trans (hk a t)
  | error e t =>
    have hbind : (action >>= k).run s = .error e t := by rw [EStateM.run_bind, hrun]
    rw [final_of_error hrun] at hs
    rw [final_of_error hbind]
    exact hs

theorem keeps_pure (a : α) : Keeps changes (pure a) := State.Keeps.refl changes

theorem keeps_get : Keeps changes get := State.Keeps.refl changes

theorem keeps_process : Keeps changes process := State.Keeps.refl changes

theorem keeps_frame : Keeps changes frame := State.Keeps.refl changes

theorem keeps_raise (fault : Fault) : Keeps changes (raise fault : Exec α) :=
  State.Keeps.refl changes

theorem keeps_abort (error : Error) : Keeps changes (abort error : Exec α) :=
  State.Keeps.refl changes

/-- A value or a fault. -/
theorem keeps_liftFault (result : Except Fault α) : Keeps changes (liftFault result) := by
  cases result with
  | ok a => exact keeps_pure a
  | error fault => exact keeps_raise fault

/-- A value or an error. -/
theorem keeps_liftError (result : Except Error α) : Keeps changes (liftError result) := by
  cases result with
  | ok a => exact keeps_pure a
  | error e => exact keeps_abort e

/-- An entry of a table. -/
theorem keeps_entry (table : String) (index : Nat) (found : Option α) :
    Keeps changes (entry table index found) := by
  cases found with
  | some a => exact keeps_pure a
  | none => exact keeps_abort _

end Actions

section Places

variable {changes : List Aspect}

/-- A change of the world that leaves the mailbox alone. -/
theorem keeps_modifyWorld {f : World → World} (h : ∀ w, (f w).mail = w.mail) :
    Keeps changes (modifyWorld f) :=
  fun s => ⟨rfl, rfl, rfl, fun _ h _ => h, fun _ => rfl, fun _ => rfl, fun _ => rfl,
    fun _ => h s.world⟩

theorem keeps_setWorld (f : World → World) : Keeps [.mail] (modifyWorld f) :=
  fun _ => ⟨rfl, rfl, rfl, fun _ h _ => h, fun _ => rfl, fun _ => rfl, fun _ => rfl,
    fun hmem => absurd (List.mem_singleton.2 rfl) hmem⟩

/-- A change of the process that leaves its stack and its last fault alone. -/
theorem keeps_modifyProcess {f : Process → Process}
    (h : ∀ p, (f p).stack = p.stack ∧ (f p).lastFault = p.lastFault) :
    Keeps changes (modifyProcess f) := by
  intro s
  obtain ⟨hstack, hlast⟩ := h s.process
  have hdepth : (f s.process).depth = s.process.depth := congrArg List.length hstack
  exact ⟨rfl, rfl, rfl, fun _ hslots _ => hstack ▸ hslots, fun _ => rfl, fun _ => hlast,
    fun _ => hdepth, fun _ => rfl⟩

/-- A change of the frame that leaves its code, its base, the place of the last command and its
handlers alone. -/
theorem keeps_modifyFrame {f : Frame → Frame}
    (h : ∀ g, (f g).code = g.code ∧ (f g).base = g.base ∧ (f g).lastPc = g.lastPc ∧
      (f g).handlers = g.handlers) : Keeps changes (modifyFrame f) := by
  intro s
  obtain ⟨hcode, hbase, hlastPc, hhandlers⟩ := h s.frame
  exact ⟨hcode, hbase, hlastPc, fun _ hslots _ => hslots, fun _ => hhandlers, fun _ => rfl,
    fun _ => rfl, fun _ => rfl⟩

/-- A test whether there is a slot. -/
theorem keeps_checkSlot (n : Nat) : Keeps changes (checkSlot n) := by
  refine keeps_get.bind fun s => ?_
  dsimp only
  split
  · exact keeps_abort _
  · exact keeps_pure _

/-- Reading. -/
theorem keeps_read (place : Place) : Keeps changes (read place) := by
  cases place with
  | x n => exact keeps_process.bind fun _ => keeps_pure _
  | y n => exact (keeps_checkSlot n).bind fun _ => keeps_process.bind fun _ => keeps_liftError _

/-- The slots below a depth do not change when one above it does. -/
theorem suffix_set {slots stack : List Term} (h : slots <:+ stack) {n : Nat}
    (hn : n < stack.length - slots.length) (t : Term) : slots <:+ stack.set n t := by
  obtain ⟨front, rfl⟩ := h
  have hfront : n < front.length := by simpa using hn
  exact ⟨front.set n t, (List.set_append_left n t hfront).symm⟩

/-- A slot that the activation does not have cannot be written. -/
theorem write_run_missing {s : State} {n : Nat} (h : s.process.depth - s.frame.base ≤ n)
    (t : Term) : (write (.y n) t).run s =
      .error (.broken (.badStackSlot n (s.process.depth - s.frame.base))) s := by
  unfold write checkSlot
  simp only [EStateM.run_bind, EStateM.run_get, if_pos h]
  rfl

/-- A place that the activation does not have cannot be written. -/
theorem write_run_none {s : State} {place : Place} (h : ¬ (s.at? place).isSome) (t : Term) :
    ∃ e, (write place t).run s = .error (.broken e) s := by
  cases place with
  | x n => exact absurd rfl h
  | y n => exact ⟨_, write_run_missing (Nat.le_of_not_lt fun hlt => h (isSome_at?_y.2 hlt)) t⟩

/-- Writing. A slot of the activation is above its base. -/
theorem keeps_write (place : Place) (t : Term) : Keeps changes (write place t) := by
  cases place with
  | x n =>
    unfold write
    exact keeps_modifyProcess fun _ => ⟨rfl, rfl⟩
  | y n =>
    intro s
    by_cases hn : s.process.depth - s.frame.base ≤ n
    · rw [final_of_error (write_run_missing hn t)]
      exact .refl changes s
    · have hslot : (s.at? (.y n)).isSome := isSome_at?_y.2 (Nat.lt_of_not_le hn)
      rw [final_of_ok (write_run hslot)]
      refine ⟨rfl, rfl, rfl, fun slots hslots hlength => ?_, fun _ => rfl, fun _ => rfl,
        fun _ => List.length_set, fun _ => rfl⟩
      have habove : n < s.process.stack.length - slots.length := by
        unfold Process.depth at hn
        omega
      exact suffix_set hslots habove t

/-- A source. -/
theorem keeps_source (code : LoadedModule) (source : Source) :
    Keeps changes (Exec.source code source) := by
  cases source with
  | place slot => exact keeps_read slot
  | constant i => exact keeps_entry _ _ _
  | float n => exact keeps_process.bind fun _ => keeps_pure _

theorem keeps_takeFirst : Keeps changes takeFirst :=
  keeps_frame.bind fun _ => Keeps.bind (keeps_modifyFrame fun _ => ⟨rfl, rfl, rfl, rfl⟩) fun _ =>
    keeps_pure _

theorem keeps_takeSecond : Keeps changes takeSecond :=
  keeps_frame.bind fun _ => Keeps.bind (keeps_modifyFrame fun _ => ⟨rfl, rfl, rfl, rfl⟩) fun _ =>
    keeps_pure _

/-! ## Control -/

/-- An action after which this is called, or nothing. -/
def Calls (called : Option (Callable × List Term)) (action : Exec Flow) : Prop :=
  ∀ s flow t, action.run s = .ok flow t → flow.called? = called

/-- Only the last action matters. -/
theorem calls_bind {α : Type} {called : Option (Callable × List Term)} {action : Exec α}
    {k : α → Exec Flow} (h : ∀ a, Calls called (k a)) : Calls called (action >>= k) := by
  intro s flow t hrun
  rw [EStateM.run_bind] at hrun
  cases haction : action.run s with
  | ok a u =>
    rw [haction] at hrun
    exact h a u flow t hrun
  | error e u =>
    rw [haction] at hrun
    cases hrun

theorem calls_pure (flow : Flow) : Calls flow.called? (pure flow) := by
  intro s flow' t hrun
  cases hrun
  rfl

/-- An action that changes nothing of interest but what is listed, and after which nothing is
called. -/
structure Quiet (changes : List Aspect) (action : Exec Flow) : Prop where
  /-- What it changes. -/
  keeps : Keeps changes action
  /-- Nothing is called. -/
  calls : Calls none action

theorem Keeps.before {α : Type} {action : Exec α} {k : α → Exec Flow} (h : action.Keeps changes)
    (hk : ∀ a, (k a).Quiet changes) : (action >>= k).Quiet changes :=
  ⟨h.bind fun a => (hk a).keeps, calls_bind fun a => (hk a).calls⟩

theorem quiet_pure {flow : Flow} (h : flow.called? = none) : Quiet changes (pure flow) :=
  ⟨keeps_pure flow, h ▸ calls_pure flow⟩

theorem quiet_raise (fault : Fault) : Quiet changes (raise fault) :=
  ⟨keeps_raise fault, fun _ _ _ hrun => by cases hrun⟩

theorem quiet_abort (error : Error) : Quiet changes (abort error) :=
  ⟨keeps_abort error, fun _ _ _ hrun => by cases hrun⟩

theorem quiet_next : Quiet changes (pure .next) := quiet_pure rfl

theorem quiet_suspend (wake : Wake) : Quiet changes (pure (.suspend wake)) := quiet_pure rfl

theorem quiet_writeLast (place : Place) (t : Term) :
    Quiet changes (write place t >>= fun _ => pure Flow.next) :=
  (keeps_write place t).before fun _ => quiet_next

theorem quiet_goto (pc : Nat) : Quiet changes (goto pc) :=
  Keeps.before (keeps_modifyFrame fun _ => ⟨rfl, rfl, rfl, rfl⟩) fun _ => quiet_next

/-- A failure. -/
theorem quiet_fail (label : Option Nat) : Quiet changes (fail label) := by
  cases label with
  | some target => exact quiet_goto target
  | none => exact quiet_raise _

/-- A test. -/
theorem quiet_branch (passed : Bool) (label : Option Nat) :
    Quiet changes (branch passed label) := by
  unfold branch
  split
  · exact quiet_next
  · exact quiet_fail label

/-- A result, or a failure. -/
theorem quiet_deliver (dest : Place) (label : Option Nat) (result : Option Term) :
    Quiet changes (deliver dest label result) := by
  cases result with
  | some t => exact quiet_writeLast dest t
  | none => exact quiet_fail label

/-- A test whether the stack is as it was. -/
theorem keeps_checkBalance : Keeps changes checkBalance := by
  refine keeps_get.bind fun s => ?_
  split
  · exact keeps_abort _
  · exact keeps_pure _

/-- Slots are given back if the activation has as many, and nothing happens otherwise. -/
theorem release_cases (n : Nat) (s : State) :
    (∃ error, (release n).run s = .error (.broken error) s) ∨
      (n ≤ s.process.depth - s.frame.base ∧
        (release n).run s = .ok () { s with process := s.process.release n }) := by
  unfold release
  simp only [EStateM.run_bind, EStateM.run_get]
  by_cases hbase : s.process.depth < s.frame.base
  · rw [if_pos hbase]
    exact .inl ⟨_, rfl⟩
  · rw [if_neg hbase]
    by_cases hn : s.process.depth - s.frame.base < n
    · rw [if_pos hn]
      exact .inl ⟨_, rfl⟩
    · rw [if_neg hn]
      exact .inr ⟨Nat.le_of_not_lt hn, rfl⟩

/-- The slots that are given back are above the base. -/
theorem keeps_release (n : Nat) : Keeps [.depth] (release n) := by
  intro s
  obtain ⟨error, hrun⟩ | ⟨hn, hrun⟩ := release_cases n s
  · rw [final_of_error hrun]
    exact .refl _ s
  · rw [final_of_ok hrun]
    refine ⟨rfl, rfl, rfl, fun slots hslots hlength => ?_, fun _ => rfl, fun _ => rfl,
      fun hmem => ?_, fun _ => rfl⟩
    · obtain ⟨front, hstack⟩ := hslots
      have hlen := congrArg List.length hstack
      rw [List.length_append] at hlen
      unfold Process.depth at hn
      have hfront : n ≤ front.length := by omega
      show slots <:+ s.process.stack.drop n
      rw [← hstack, List.drop_append_of_le_length hfront]
      exact List.suffix_append _ _
    · exact absurd (List.mem_singleton.2 rfl) hmem

end Places

/-! ## Bit strings -/

section BitStrings

variable {changes : List Aspect}

/-- A cursor. -/
theorem keeps_cursor (place : Place) (operation : String) :
    Keeps changes (cursor place operation) := by
  cases place with
  | x n =>
    refine Keeps.bind (keeps_modifyProcess fun _ => ⟨rfl, rfl⟩) fun _ =>
      (keeps_read (.x n)).bind fun t => ?_
    split
    · exact keeps_pure _
    · exact keeps_abort _
  | y n =>
    refine (keeps_read (.y n)).bind fun t => ?_
    split
    · exact keeps_pure _
    · exact keeps_abort _

/-- A cursor that has moved, or a failure. -/
theorem quiet_advance (place : Place) (label : Option Nat) (c : Option BitString.Cursor) :
    Quiet changes (advance place label c) := by
  cases c with
  | some c => exact quiet_writeLast place _
  | none => exact quiet_fail label

/-- What was read, or a failure. -/
theorem quiet_deliverRead (place dest : Place) (label : Option Nat)
    (result : Option Term × BitString.Cursor) :
    Quiet changes (deliverRead place dest label result) :=
  (keeps_write place _).before fun _ => quiet_deliver dest label result.1

/-- A constant that is a bit string. -/
theorem keeps_literalBits (code : LoadedModule) (index : Nat) :
    Keeps changes (literalBits code index) := by
  refine (keeps_source code _).bind fun t => ?_
  split
  · exact keeps_pure _
  · exact keeps_abort _

/-- A matching command. -/
theorem quiet_matching (code : LoadedModule) (command : MatchCommand) :
    Quiet changes (command.run code) := by
  cases command with
  | start label slots dest => exact keeps_takeFirst.before fun _ => quiet_deliver dest label _
  | get type place unit encoding dest label =>
    refine keeps_takeFirst.before fun t => ?_
    split
    · exact quiet_fail label
    · exact (keeps_cursor place _).before fun _ => quiet_deliverRead place dest label _
  | skip place unit label =>
    refine keeps_takeFirst.before fun t => ?_
    split
    · exact quiet_fail label
    · exact (keeps_cursor place _).before fun _ => quiet_advance place label _
  | testTail place size label | testUnit place unit label =>
    exact (keeps_cursor place _).before fun _ => quiet_branch _ label
  | literal place index label =>
    exact (keeps_literalBits code index).before fun _ =>
      (keeps_cursor place _).before fun _ => quiet_advance place label _
  | getUtf form place encoding dest label =>
    exact (keeps_cursor place _).before fun _ => quiet_deliverRead place dest label _
  | skipUtf form place encoding label =>
    exact (keeps_cursor place _).before fun _ =>
      (keeps_write place _).before fun _ => quiet_branch _ label
  | save place slot | restore place slot =>
    refine (keeps_cursor place _).before fun c => ?_
    split
    · exact quiet_advance place none _
    · exact quiet_abort _
  | toBits place =>
    refine (keeps_read place).before fun t => ?_
    split
    · exact quiet_writeLast place _
    · exact quiet_next

theorem keeps_writeBits (dest : Place) (b : BitString) : Keeps changes (writeBits dest b) :=
  keeps_get.bind fun _ => Keeps.bind (keeps_modifyWorld fun _ => rfl) fun _ => keeps_write dest _

/-- The bit string under construction. -/
theorem keeps_builder (operation : String) : Keeps changes (builder operation) := by
  refine keeps_frame.bind fun f => ?_
  split
  · exact keeps_pure _
  · exact keeps_abort _

/-- A builder that is complete or goes on. -/
theorem quiet_publish (b : BitString.Builder) (dest : Place) : Quiet changes (publish b dest) := by
  unfold publish
  split
  · exact Keeps.before (keeps_modifyFrame fun _ => ⟨rfl, rfl, rfl, rfl⟩) fun _ =>
      (keeps_writeBits dest _).before fun _ => quiet_next
  · exact Keeps.before (keeps_modifyFrame fun _ => ⟨rfl, rfl, rfl, rfl⟩) fun _ => quiet_next

theorem quiet_openBuilder (b : BitString.Builder) (dest : Place) :
    Quiet changes (openBuilder b dest) :=
  (keeps_writeBits dest _).before fun _ => quiet_publish b dest

/-- What a builder has become, or a failure. -/
theorem quiet_extend (dest : Place) (label : Option Nat) (b : Option BitString.Builder) :
    Quiet changes (extend dest label b) := by
  cases b with
  | some b => exact quiet_publish b dest
  | none => exact quiet_fail label

/-- A building command. -/
theorem quiet_building (code : LoadedModule) (callers : List Caller) (command : BuildCommand) :
    Quiet changes (command.run code callers) := by
  cases command with
  | init unit dest label =>
    refine keeps_takeFirst.before fun t => ?_
    split
    · exact quiet_openBuilder _ dest
    · exact quiet_fail label
  | initWritable => exact (keeps_writeBits _ _).before fun _ => quiet_next
  | append unit dest label =>
    refine keeps_takeFirst.before fun extra => keeps_takeSecond.before fun t => ?_
    split
    · split
      · exact keeps_get.before fun _ => quiet_openBuilder _ dest
      · exact quiet_fail label
    · exact quiet_fail label
  | put type unit encoding label =>
    refine keeps_takeFirst.before fun size => keeps_takeSecond.before fun value => ?_
    split
    · exact quiet_fail label
    · exact (keeps_builder _).before fun b => quiet_extend b.2 label _
  | putLiteral index =>
    exact (keeps_literalBits code index).before fun _ =>
      (keeps_builder _).before fun b => quiet_extend b.2 none _
  | putUtf form encoding label =>
    refine keeps_takeFirst.before fun t => ?_
    split
    · exact quiet_fail label
    · exact (keeps_builder _).before fun b => quiet_extend b.2 label _
  | utf8Size dest label | utf16Size dest label =>
    exact keeps_takeFirst.before fun _ => quiet_deliver dest label _
  | add unit dest label =>
    exact keeps_takeFirst.before fun _ => keeps_takeSecond.before fun _ =>
      quiet_deliver dest label _

end BitStrings

/-! ## Calls, messages, faults -/

section Calls

variable {changes : List Aspect} (linker : Linker) (code : LoadedModule)

/-- A native that is called by its import. -/
theorem keeps_callNative (index : Nat) (arguments : List Term) :
    Keeps [.mail] (callNative code index arguments) := by
  unfold callNative
  split
  · exact keeps_get.bind fun _ => (keeps_setWorld _).bind fun _ => keeps_pure _
  · exact keeps_pure _

/-- What a callee stands for. -/
theorem keeps_callee (c : Callee) : Keeps changes (callee linker code c) := by
  refine keeps_process.bind fun p => ?_
  cases c with
  | offset arity target => exact keeps_frame.bind fun _ => keeps_pure _
  | imported arity index => exact (keeps_liftFault _).bind fun _ => keeps_pure _
  | named arity =>
    dsimp only
    split
    · exact (keeps_liftFault _).bind fun _ => keeps_pure _
    · exact keeps_raise _
  | value arity => exact (keeps_liftFault _).bind fun _ => keeps_pure _

theorem keeps_checkYield : Keeps changes checkYield :=
  fun s => ⟨rfl, rfl, rfl, fun _ h _ => h, fun _ => rfl, fun _ => rfl, fun _ => rfl,
    fun _ => s.world.mail_checkYield⟩

/-- A float that goes to its place. -/
theorem quiet_writeFloat (dest : FloatPlace) (v : Binary64) :
    Quiet changes (Command.run.writeFloat dest v) := by
  cases dest with
  | float n => exact Keeps.before (keeps_modifyProcess fun _ => ⟨rfl, rfl⟩) fun _ => quiet_next
  | place place => exact quiet_writeLast place _

/-- New slots are above the base. -/
theorem keeps_allocate (n : Nat) : Keeps [.depth] (modifyProcess (·.allocate n)) := by
  intro s
  refine ⟨rfl, rfl, rfl, fun slots hslots _ => ?_, fun _ => rfl, fun _ => rfl, fun hmem => ?_,
    fun _ => rfl⟩
  · exact hslots.trans (List.suffix_append _ _)
  · exact absurd (List.mem_singleton.2 rfl) hmem

/-- Other handlers are put in force. -/
theorem keeps_setHandlers (f : List Handler → List Handler) :
    Keeps [.handlers] (modifyFrame fun g => { g with handlers := f g.handlers }) :=
  fun _ => ⟨rfl, rfl, rfl, fun _ h _ => h, fun hmem => absurd (List.mem_singleton.2 rfl) hmem,
    fun _ => rfl, fun _ => rfl, fun _ => rfl⟩

/-- The last fault is forgotten. -/
theorem keeps_forget :
    Keeps [.lastFault] (modifyProcess fun p => { p with lastFault := none }) :=
  fun _ => ⟨rfl, rfl, rfl, fun _ h _ => h, fun _ => rfl,
    fun hmem => absurd (List.mem_singleton.2 rfl) hmem, fun _ => rfl, fun _ => rfl⟩

/-- A call. Slots are given back only by one that takes the place of its activation. -/
theorem keeps_call (c : Callee) (mode : CallMode) (callers : List Caller) :
    Keeps (Command.call c mode).changes ((Command.call c mode).run linker code callers) := by
  refine (keeps_callee linker code c).bind fun r => ?_
  cases mode with
  | nested => exact keeps_pure _
  | tail slots =>
    cases slots with
    | none => exact keeps_checkBalance.bind fun _ => keeps_pure _
    | some n =>
      exact (keeps_release n).bind fun _ => keeps_checkBalance.bind fun _ => keeps_pure _

/-- A native that a command stands for. -/
theorem quiet_native (count index : Nat) (label : Option Nat) (dest : Place)
    (callers : List Caller) :
    Quiet [.mail] ((Command.native count index label dest).run linker code callers) := by
  rcases count with - | - | count
  case' zero => refine Keeps.before (keeps_pure []) ?_
  case' succ.zero => refine keeps_takeFirst.before fun a => Keeps.before (keeps_pure [a]) ?_
  case' succ.succ =>
    refine keeps_takeFirst.before fun a => keeps_takeSecond.before fun b =>
      Keeps.before (keeps_pure [a, b]) ?_
  -- The rest is the same for any number of arguments.
  all_goals
    intro arguments
    refine (keeps_callNative code index arguments).before fun result => ?_
    cases result with
    | ok value => exact quiet_writeLast dest value
    | error fault =>
      cases label with
      | some target => exact quiet_goto target
      | none => exact quiet_raise fault

/-- A command that is no call changes nothing of interest but what is listed for it, and nothing is
called. -/
theorem quiet_run (callers : List Caller) {command : Command} (h : command.isCall = false) :
    Quiet command.changes (command.run linker code callers) := by
  cases command with
  | fetch first second =>
    cases second with
    | none =>
      exact (keeps_source code first).before fun _ =>
        Keeps.before (keeps_modifyFrame fun _ => ⟨rfl, rfl, rfl, rfl⟩) fun _ => quiet_next
    | some second =>
      exact (keeps_source code first).before fun _ => (keeps_source code second).before fun _ =>
        Keeps.before (keeps_modifyFrame fun _ => ⟨rfl, rfl, rfl, rfl⟩) fun _ => quiet_next
  | ensureRegisters n =>
    exact Keeps.before (keeps_modifyProcess fun _ => ⟨rfl, rfl⟩) fun _ => quiet_next
  | ret => exact keeps_checkBalance.before fun _ => keeps_process.before fun _ => quiet_pure rfl
  | jump target => exact quiet_goto target
  | functionClause | ifEnd => exact quiet_raise _
  | badmatch | caseEnd | tryCaseEnd => exact keeps_takeFirst.before fun _ => quiet_raise _
  | allocate n => exact (keeps_allocate n).before fun _ => quiet_next
  | release n => exact (keeps_release n).before fun _ => quiet_next
  | init dest => exact quiet_writeLast dest _
  | move dest => exact keeps_takeFirst.before fun _ => quiet_writeLast dest _
  | putList dest =>
    exact keeps_takeFirst.before fun _ => keeps_takeSecond.before fun _ => quiet_writeLast dest _
  | getList head tail =>
    refine keeps_takeFirst.before fun t => ?_
    split
    · exact (keeps_write head _).before fun _ => quiet_writeLast tail _
    · exact quiet_raise _
  | getElement index dest => exact keeps_takeFirst.before fun _ => quiet_deliver dest none _
  | beginTuple arity dest =>
    rw [Command.run]
    split
    · exact quiet_writeLast dest _
    · exact Keeps.before (keeps_modifyFrame fun _ => ⟨rfl, rfl, rfl, rfl⟩) fun _ => quiet_next
  | putElement position =>
    refine keeps_takeFirst.before fun value => keeps_frame.before fun f => ?_
    split
    · exact quiet_abort _
    · dsimp only
      split
      · -- What would follow does not matter, since the machine has given up.
        exact ⟨State.Keeps.refl _, fun _ _ _ hrun => by cases hrun⟩
      · split
        · exact Keeps.before (keeps_modifyFrame fun _ => ⟨rfl, rfl, rfl, rfl⟩) fun _ =>
            quiet_writeLast _ _
        · exact Keeps.before (keeps_modifyFrame fun _ => ⟨rfl, rfl, rfl, rfl⟩) fun _ => quiet_next
  | setElement place index =>
    refine keeps_takeFirst.before fun value => (keeps_read place).before fun t => ?_
    split
    · split
      · exact quiet_writeLast place _
      · exact quiet_raise _
    · exact quiet_raise _
  | typeTest test label | testArity label arity =>
    exact keeps_takeFirst.before fun _ => quiet_branch _ label
  | testFunctionArity label | compare comparison label =>
    exact keeps_takeFirst.before fun _ => keeps_takeSecond.before fun _ => quiet_branch _ label
  | selectValue default index =>
    exact keeps_takeFirst.before fun _ => (keeps_entry _ _ _).before fun _ => quiet_goto _
  | selectArity default index =>
    refine keeps_takeFirst.before fun t => ?_
    split
    · exact (keeps_entry _ _ _).before fun _ => quiet_goto _
    · exact quiet_goto default
  | call c mode => cases h
  | makeFun target arity captured =>
    exact keeps_process.before fun _ => keeps_frame.before fun _ => quiet_writeLast _ _
  | native count index label dest => exact quiet_native linker code count index label dest callers
  | send =>
    exact keeps_process.before fun _ => keeps_get.before fun _ =>
      (keeps_liftFault _).before fun _ => (keeps_setWorld _).before fun _ =>
        (keeps_write _ _).before fun _ => keeps_checkYield.before fun stop =>
          quiet_pure (by cases stop <;> rfl)
  | loopReceive target dest =>
    refine keeps_get.before fun s => ?_
    split
    · exact quiet_writeLast dest _
    · exact quiet_goto target
  | loopReceiveEnd target => exact (keeps_setWorld _).before fun _ => quiet_goto target
  | removeMessage | timeout => exact (keeps_setWorld _).before fun _ => quiet_next
  | wait target => exact (quiet_goto target).keeps.before fun _ => quiet_suspend _
  | waitTimeout target =>
    refine keeps_takeFirst.before fun t => ?_
    split
    · split
      · exact quiet_next
      · split
        · exact keeps_frame.before fun _ => quiet_suspend _
        · exact quiet_raise _
    · exact quiet_suspend _
    · exact quiet_raise _
  | protect kind slot target =>
    exact keeps_get.before fun _ => (keeps_write _ _).before fun _ =>
      (keeps_setHandlers _).before fun _ => quiet_next
  | unprotect slot =>
    refine (keeps_read _).before fun t => ?_
    split
    · exact (keeps_setHandlers fun _ => _).before fun _ => quiet_writeLast _ _
    · exact quiet_abort _
  | raise =>
    exact keeps_takeFirst.before fun _ => keeps_takeSecond.before fun _ =>
      keeps_process.before fun _ => keeps_forget.before fun _ => keeps_frame.before fun _ =>
        quiet_raise _
  | floatMove source dest =>
    refine (keeps_source code source).before fun t => ?_
    split
    · exact quiet_writeFloat dest _
    · exact quiet_raise _
  | floatConvert source dest =>
    exact (keeps_source code source).before fun _ =>
      (keeps_liftFault _).before fun _ => quiet_writeFloat dest _
  | floatOperation operation a b dest =>
    refine keeps_process.before fun p => ?_
    dsimp only
    split
    · exact quiet_writeFloat _ _
    · exact quiet_raise _
  | floatNegate a dest => exact keeps_process.before fun _ => quiet_writeFloat _ _
  | matching command => exact quiet_matching code command
  | building command => exact quiet_building code callers command

/-- A command changes nothing of interest but what is listed for it. -/
theorem keeps_run (callers : List Caller) (command : Command) :
    Keeps command.changes (command.run linker code callers) := by
  cases hcall : command.isCall with
  | false => exact (quiet_run linker code callers hcall).keeps
  | true =>
    cases command with
    | call c mode => exact keeps_call linker code c mode callers
    | _ => cases hcall

end Calls

/-! ## Faults and calls before the stack changes -/

/-- An action that raises a fault, or waits for a call, only while the stack is as deep as
before. -/
def Early (action : Exec Flow) : Prop :=
  ∀ s, (∀ fault t, action.run s = .error (.fault fault) t → t.process.depth = s.process.depth) ∧
    ∀ target arguments t, action.run s = .ok (.call target arguments) t →
      t.process.depth = s.process.depth

/-- An action that raises no fault. -/
def Sure {α : Type} (action : Exec α) : Prop := ∀ s fault t, action.run s ≠ .error (.fault fault) t

/-- An action that raises no fault and does not wait for a call. -/
def Late (action : Exec Flow) : Prop :=
  action.Sure ∧ ∀ s target arguments t, action.run s ≠ .ok (.call target arguments) t

section Early

variable {α : Type} {changes : List Aspect}

/-- An action that keeps the depth. -/
theorem Keeps.early {action : Exec Flow} (h : action.Keeps changes) (hmem : .depth ∉ changes) :
    action.Early := by
  intro s
  have hdepth := (h s).depth hmem
  constructor
  · intro fault t hrun
    rwa [final_of_error hrun] at hdepth
  · intro target arguments t hrun
    rwa [final_of_ok hrun] at hdepth

/-- An action that keeps the depth, and then another. -/
theorem Keeps.bind_early {action : Exec α} {k : α → Exec Flow} (h : action.Keeps changes)
    (hmem : .depth ∉ changes) (hk : ∀ a, (k a).Early) : (action >>= k).Early := by
  intro s
  have hdepth := (h s).depth hmem
  rw [EStateM.run_bind]
  cases hrun : action.run s with
  | ok a t =>
    rw [final_of_ok hrun] at hdepth
    rw [← hdepth]
    exact hk a t
  | error e t =>
    rw [final_of_error hrun] at hdepth
    constructor
    · intro fault u h
      cases h
      exact hdepth
    · intro target arguments u h
      cases h

/-- An action that neither raises a fault nor waits for a call. -/
theorem Late.early {action : Exec Flow} (h : action.Late) : action.Early :=
  fun s => ⟨fun fault t hrun => absurd hrun (h.1 s fault t),
    fun target arguments t hrun => absurd hrun (h.2 s target arguments t)⟩

/-- How it goes on, if that is not with a call to wait for. -/
theorem late_pure {flow : Flow} (h : ∀ target arguments, flow ≠ .call target arguments) :
    Late (pure flow) := by
  refine ⟨fun s fault t hrun => ?_, fun s target arguments t hrun => ?_⟩
  · cases hrun
  · cases hrun
    exact h target arguments rfl

/-- An action that raises no fault, and then another one. -/
theorem Sure.bind_late {action : Exec α} {k : α → Exec Flow} (h : action.Sure)
    (hk : ∀ a, (k a).Late) : (action >>= k).Late := by
  constructor
  · intro s fault t hrun
    rw [EStateM.run_bind] at hrun
    cases hact : action.run s with
    | ok a u =>
      rw [hact] at hrun
      exact (hk a).1 u fault t hrun
    | error e u =>
      rw [hact] at hrun
      cases hrun
      exact h s fault t hact
  · intro s target arguments t hrun
    rw [EStateM.run_bind] at hrun
    cases hact : action.run s with
    | ok a u =>
      rw [hact] at hrun
      exact (hk a).2 u target arguments t hrun
    | error e u =>
      rw [hact] at hrun
      cases hrun

/-- A test whether the stack is as it was. -/
theorem sure_checkBalance : Sure checkBalance := by
  intro s fault t hrun
  unfold checkBalance at hrun
  simp only [EStateM.run_bind, EStateM.run_get] at hrun
  split at hrun
  · cases hrun
  · cases hrun

/-- Giving slots back. -/
theorem sure_release (n : Nat) : Sure (release n) := by
  intro s fault t hrun
  obtain ⟨error, h⟩ | ⟨-, h⟩ := release_cases n s
  · rw [h] at hrun
    cases hrun
  · rw [h] at hrun
    cases hrun

/-- A command raises a fault, or waits for a call, only while the stack is as deep as before. -/
theorem early_run (linker : Linker) (code : LoadedModule) (callers : List Caller)
    (command : Command) : Early (command.run linker code callers) := by
  have hkeeps := keeps_run linker code callers command
  by_cases hmem : .depth ∈ command.changes
  · cases command with
    | allocate n =>
      have hsure : Sure (modifyProcess (·.allocate n)) := fun s fault t hrun => by cases hrun
      exact (hsure.bind_late fun _ => late_pure (by simp)).early
    | release n => exact ((sure_release n).bind_late fun _ => late_pure (by simp)).early
    | call c mode =>
      refine (keeps_callee linker code c).bind_early List.not_mem_nil fun r => ?_
      cases mode with
      | nested => cases hmem
      | tail slots =>
        have hleave : Late (pure (.tailCall r.1 r.2)) := late_pure (by simp)
        have hbalance := sure_checkBalance.bind_late fun _ => hleave
        cases slots with
        | none => exact hbalance.early
        | some n => exact ((sure_release n).bind_late fun _ => hbalance).early
    | protect | unprotect | raise | native | send | loopReceiveEnd | removeMessage | timeout =>
      simp [Command.changes] at hmem
    | _ => cases hmem
  · exact hkeeps.early hmem

end Early

end Exec

/-! ## Execution -/

section Execution

variable (linker : Linker) (code : LoadedModule) (callers : List Caller)

/-- Noting where the activation is changes nothing of interest. -/
theorem State.keeps_noted (s : State) (mark : Bool) {world : World}
    (h : world = s.world ∨ world = s.world.checkYield.2) (pc : Nat) :
    s.begin.Keeps [] (s.noted mark world pc) := by
  have hmail : world.mail = s.world.mail := by
    rcases h with rfl | rfl
    · rfl
    · exact s.world.mail_checkYield
  exact ⟨rfl, rfl, rfl, fun _ h _ => h, fun _ => rfl, fun _ => rfl, fun _ => rfl, fun _ => hmail⟩

/-- What runs at an offset. Either nothing does, and the machine gives up or a call waits for its
turn, or a command does, in a state in which nothing of interest has changed since the offset was
noted. -/
theorem execute_forms (s : State) :
    (∃ t, s.begin.Keeps [] t ∧
      ((∃ error, (execute linker code callers).run s = .error (.broken error) t) ∨
        (execute linker code callers).run s = .ok (.suspend (.yield true)) t)) ∨
    ∃ command t, code.commandAt? s.frame.pc = some command ∧ s.begin.Keeps [] t ∧
      (execute linker code callers).run s = (command.run linker code callers).run t := by
  obtain ⟨mark, world, hworld, ⟨error, hrun, -⟩ | ⟨word, opcode, hword, hopcode, ⟨-, hrun⟩ |
    ⟨command, rest, hdecode, hrun⟩⟩⟩ := execute_parts linker callers code s
  · exact .inl ⟨_, s.keeps_noted mark hworld _, .inl ⟨error, hrun⟩⟩
  · exact .inl ⟨_, s.keeps_noted mark hworld _, .inr hrun⟩
  · exact .inr ⟨command, _, LoadedModule.commandAt?_eq hword hopcode hdecode,
      s.keeps_noted mark hworld _, hrun⟩

/-- Running what stands at an offset changes nothing of interest but what is listed for the command
there. -/
theorem keeps_execute (s : State) :
    s.begin.Keeps ((code.commandAt? s.frame.pc).elim [] Command.changes)
      ((execute linker code callers).final s) := by
  obtain ⟨t, ht, ⟨error, hrun⟩ | hrun⟩ | ⟨command, t, hcommand, ht, hrun⟩ :=
    execute_forms linker code callers s
  · rw [Exec.final_of_error hrun]
    exact ht.mono (List.nil_subset _)
  · rw [Exec.final_of_ok hrun]
    exact ht.mono (List.nil_subset _)
  · have hfinal : (execute linker code callers).final s =
        (command.run linker code callers).final t := by
      unfold Exec.final
      rw [hrun]
    rw [hfinal, hcommand]
    exact (ht.mono (List.nil_subset _)).trans (Exec.keeps_run linker code callers command t)

/-- A fault is raised, or a call begins that the activation waits for, while the stack is as deep as
before. -/
theorem early_execute : (execute linker code callers).Early := by
  intro s
  obtain ⟨t, ht, ⟨error, hrun⟩ | hrun⟩ | ⟨command, t, -, ht, hrun⟩ :=
    execute_forms linker code callers s
  · rw [hrun]
    exact ⟨by simp, by simp⟩
  · rw [hrun]
    exact ⟨by simp, by simp⟩
  · have hdepth : t.process.depth = s.process.depth := ht.depth List.not_mem_nil
    rw [hrun, ← hdepth]
    exact Exec.early_run linker code callers command t

end Execution

end Machine

end ErlangMachine
