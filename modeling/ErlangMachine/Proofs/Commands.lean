import ErlangMachine.Proofs.BitCommands
import ErlangMachine.Proofs.Operands

/-!
# Commands under a coupling

`Coupling.results_command` says that every command keeps states coupled, provided that its operands
are ones that the coupling allows and that none of its sources reads a catch tag, unless the
coupling allows tags anywhere. The second proviso is for the prefetch commands, which copy what they
read.
-/

namespace ErlangMachine.Machine

/-- A source that stands for a place at which there is a catch tag. -/
def Source.ReadsTag (s : State) : Source → Prop
  | .place slot => ∃ handler outer, s.at? slot = some (.catchTag handler outer)
  | _ => False

/-- The source operands of a command. -/
def Command.sources : Command → List Source
  | .fetch first second => first :: second.toList
  | .floatMove source _ => [source]
  | .floatConvert source _ => [source]
  | _ => []

/-- A command one of whose source operands reads a catch tag. -/
def Command.ReadsTag (s : State) (command : Command) : Prop :=
  ∃ source ∈ command.sources, source.ReadsTag s

open Exec

namespace Coupling

variable {C : Coupling} {linker : Linker} {code : LoadedModule} (laws : C.Laws linker code)

variable (C) in
/-- A source that the coupling allows. -/
def FitsSource (source : Source) : Prop := ∀ i, source = .constant i → C.constant i

variable (C) in
/-- A callee that the coupling allows. -/
def FitsCallee : Callee → Prop
  | .offset _ target => C.offset target
  | _ => True

variable (C) in
/-- A command whose operands the coupling allows. -/
def Fits : Command → Prop
  | .fetch first second => C.FitsSource first ∧ ∀ source ∈ second, C.FitsSource source
  | .jump target => C.offset target
  | .typeTest _ label => C.Label label
  | .testArity label _ => C.Label label
  | .testFunctionArity label => C.Label label
  | .compare _ label => C.Label label
  | .selectValue default table => C.offset default ∧ C.valueTable table
  | .selectArity default table => C.offset default ∧ C.arityTable table
  | .call callee _ => C.FitsCallee callee
  | .makeFun entry _ _ => C.offset entry
  | .native _ _ label _ => C.Label label
  | .loopReceive target _ => C.offset target
  | .loopReceiveEnd target => C.offset target
  | .wait target => C.offset target
  | .waitTimeout target => C.offset target
  | .protect _ _ target => C.offset target
  | .floatMove source _ => C.FitsSource source
  | .floatConvert source _ => C.FitsSource source
  | .matching command => C.FitsMatch command
  | .building command => C.FitsBuild command
  | _ => True

variable (C) in
/-- Catch tags may stand anywhere. -/
def AllowsTags : Prop := ∀ handler outer, C.leaf (.catchTag handler outer)

variable (C) in
/-- What commands may refer to. -/
def Allows : ErlangMachine.Slot × Nat → Prop
  | (.label, target) => C.offset target
  | (.constant, i) => C.constant i
  | (.valueTable, i) => C.valueTable i
  | (.arityTable, i) => C.arityTable i
  | _ => True

/-- A command is allowed if all that it refers to is. -/
theorem fits_of_allows {command : Command} (h : ∀ goal ∈ command.goals, C.Allows goal) :
    C.Fits command := by
  have hlabel : ∀ {label : Option Nat}, (∀ goal ∈ label.toList.map (.label, ·), C.Allows goal) →
      C.Label label := fun h target htarget =>
        h _ (List.mem_map.2 ⟨target, by simpa using htarget, rfl⟩)
  have hsource : ∀ {source : Source}, (∀ goal ∈ source.goals, C.Allows goal) →
      C.FitsSource source := by
    rintro _ h i rfl
    exact h _ List.mem_cons_self
  cases command with
  | fetch first second =>
    refine ⟨hsource fun g hg => h g (List.mem_append_left _ hg), fun source hsecond => ?_⟩
    refine hsource fun g hg => h g (List.mem_append_right _ (List.mem_flatMap.2 ⟨source, ?_, hg⟩))
    simpa using hsecond
  | typeTest | testArity | testFunctionArity | compare | native => exact hlabel h
  | selectValue default table | selectArity default table =>
    exact ⟨h _ List.mem_cons_self, h _ (List.mem_cons_of_mem _ List.mem_cons_self)⟩
  | jump | makeFun | loopReceive | loopReceiveEnd | wait | waitTimeout | protect =>
    exact h _ List.mem_cons_self
  | call callee mode =>
    cases callee with
    | offset arity target => exact h _ List.mem_cons_self
    | _ => trivial
  | floatMove | floatConvert => exact hsource fun g hg => h g (List.mem_append_left _ hg)
  | matching command =>
    cases command with
    | literal place constant label =>
      exact ⟨h _ List.mem_cons_self, hlabel fun g hg => h g (List.mem_cons_of_mem _ hg)⟩
    | save | restore | toBits => trivial
    | _ => exact hlabel h
  | building command =>
    cases command with
    | initWritable => trivial
    | putLiteral constant => exact h _ List.mem_cons_self
    | _ => exact hlabel h
  | _ => trivial

/-- A coupling that allows all operands allows all commands. -/
theorem fits_of_forall (hoffset : ∀ target, C.offset target) (hconstant : ∀ i, C.constant i)
    (hvalues : ∀ i, C.valueTable i) (harities : ∀ i, C.arityTable i) (command : Command) :
    C.Fits command := by
  refine fits_of_allows fun goal _ => ?_
  obtain ⟨slot, n⟩ := goal
  cases slot with
  | label => exact hoffset n
  | constant => exact hconstant n
  | valueTable => exact hvalues n
  | arityTable => exact harities n
  | _ => trivial

/-! ## Calls -/

/-- What a name stands for, or the fault that it stands for nothing. -/
theorem sim_require (laws : C.Laws linker code) {target : Option Callable}
    (h : ∀ c ∈ target, C.GoodCallable c) :
    C.Sim (Same C.GoodCallable) (liftFault (Fault.require target .undefined))
      (liftFault (Fault.require target .undefined)) := by
  cases target with
  | some c => exact Sim.pure fun _ => ⟨rfl, h c rfl⟩
  | none => exact Sim.raise (laws.goodFault_atom _)

section Calls

include laws

/-- What a good function value calls may be called. -/
theorem sim_functionTarget {function : Term} {arguments : List Term} (hf : C.Good function)
    (hargs : ∀ t ∈ arguments, C.Good t) :
    C.Sim (Same C.GoodCallable) (liftFault (functionTarget linker function arguments))
      (liftFault (functionTarget linker function arguments)) := by
  have hbadarity : C.GoodFault (.badarity function arguments) := by
    refine laws.goodFault_about _ (laws.good_tuple fun t ht => ?_)
    rw [List.mem_cons, List.mem_singleton] at ht
    rcases ht with rfl | rfl
    · exact hf
    · exact laws.good_list hargs
  unfold functionTarget
  split
  -- A closure may be entered since it is good; the function of another module goes by its name.
  · rename_i module entry arity environment
    split
    · have hentry : C.entry module entry := (laws.closure _ _ _ _).1 hf.self
      exact Sim.pure fun _ => ⟨rfl, hentry, hf.of_closure⟩
    · exact Sim.raise hbadarity
  · split
    · exact sim_require laws fun c hc => laws.resolve _ c hc
    · exact Sim.raise hbadarity
  · exact Sim.raise (laws.goodFault_about _ hf)

/-- What a callee stands for may be called with its arguments. -/
theorem sim_callee {c : Callee} (h : C.FitsCallee c) :
    C.Sim (Same fun r => C.GoodCallable r.1 ∧ ∀ t ∈ r.2, C.Good t) (callee linker code c)
      (callee linker code c) := by
  refine sim_process.bindSame fun p hp => ?_
  cases c with
  | offset arity target =>
    refine sim_frame.bind fun f f' _ hf => ?_
    have hcode : f.code = f'.code := Frame.congr_of_calm hf.1 Frame.code fun _ => rfl
    have hentry : C.entry f.code target := laws.entry _ _ hf.2.module h
    rw [← hcode]
    exact Sim.pure fun _ => ⟨rfl, ⟨hentry, fun t ht => by cases ht⟩, hp.arguments laws arity⟩
  | imported arity index =>
    exact (sim_require laws fun c hc => laws.binding index c hc).bindSame fun c hc =>
      Sim.pure fun _ => ⟨rfl, hc, hp.arguments laws arity⟩
  | named arity =>
    dsimp only
    split
    · exact (sim_require laws fun c hc => laws.resolve _ c hc).bindSame fun c hc =>
        Sim.pure fun _ => ⟨rfl, hc, hp.arguments laws arity⟩
    · exact Sim.raise (laws.goodFault_atom _)
  | value arity =>
    exact (sim_functionTarget laws (hp.x laws arity) (hp.arguments laws arity)).bindSame
      fun c hc => Sim.pure fun _ => ⟨rfl, hc, hp.arguments laws arity⟩

/-- A native that is called by its import. -/
theorem sim_callNative (index : Nat) {arguments : List Term} (h : ∀ t ∈ arguments, C.Good t) :
    C.Sim (Same C.GoodResult) (callNative code index arguments)
      (callNative code index arguments) := by
  unfold callNative
  split
  · rename_i id native hbinding
    have hnative : C.native native := laws.binding index _ hbinding
    refine Sim.get.bind fun s s' _ hs => ?_
    obtain ⟨hsame, hgood, hworlds⟩ := laws.native native arguments _ _ hnative h hs.world
    refine Sim.seq (sim_modifyWorld fun _ _ _ => hworlds) ?_
    exact Sim.pure fun _ => ⟨hsame, hgood⟩
  · exact Sim.pure fun _ => ⟨rfl, laws.goodFault_atom _⟩

/-- A call, nested or in place of the activation. -/
theorem sim_call {c : Callee} (mode : CallMode) (h : C.FitsCallee c)
    (callers : List Caller) :
    C.Sim C.Flows ((Command.call c mode).run linker code callers)
      ((Command.call c mode).run linker code callers) := by
  have htail : ∀ r : Callable × List Term, C.GoodCallable r.1 ∧ (∀ t ∈ r.2, C.Good t) →
      C.Sim C.Flows (checkBalance >>= fun _ => pure (.tailCall r.1 r.2))
        (checkBalance >>= fun _ => pure (.tailCall r.1 r.2)) := by
    intro r hr
    exact (sim_checkBalance laws).bindAt fun _ _ s s' hbalance hs =>
      ⟨.tailCall hr.1 hr.2 hbalance, hs⟩
  refine (sim_callee laws h).bindSame fun r hr => ?_
  cases mode with
  | nested => exact Sim.pure fun _ => .call hr.1 hr.2
  | tail slots =>
    cases slots with
    | none => exact htail r hr
    | some n => exact (sim_release laws n).seq (htail r hr)

end Calls

/-! ## Messages -/

/-- A message goes the same way in worlds that belong together. -/
theorem Worlds.send (laws : C.Laws linker code) {w w' : World} (hw : C.Worlds w w')
    {receiver message : Term} (hreceiver : C.Good receiver) (hmessage : C.Good message)
    {sent : World} (hsent : w.send receiver message = .ok sent) :
    ∃ sent', w'.send receiver message = .ok sent' ∧ C.Worlds sent sent' := by
  have hself : w.self = w'.self := hw.congr World.self fun _ => rfl
  have hlist : w.sent = w'.sent := hw.congr World.sent fun _ => rfl
  -- A message to the process itself is put into the mailbox.
  have hdeliver :
      C.Worlds (w.mapMailbox (·.deliver message)) (w'.mapMailbox (·.deliver message)) := by
    refine hw.mapMailbox fun m hm t ht => ?_
    rcases List.mem_append.1 ht with ht | ht
    · exact hm t ht
    · obtain rfl := List.mem_singleton.1 ht
      exact hmessage
  -- Any other one leaves the process, so it must be fit for that.
  have hout : C.Worlds { w with sent := w.sent ++ [(receiver, message)] }
      { w' with sent := w'.sent ++ [(receiver, message)] } := by
    rw [← hlist]
    refine hw.setSent fun m hm => ?_
    rcases List.mem_append.1 hm with hm | hm
    · exact hw.sent m hm
    · obtain rfl := List.mem_singleton.1 hm
      exact ⟨laws.abroad _ hreceiver, laws.abroad _ hmessage⟩
  unfold World.send at hsent ⊢
  cases receiver with
  | pid id =>
    dsimp only at hsent ⊢
    -- Both worlds agree on who the process is, so both decide alike.
    by_cases hid : id = w.self
    · rw [if_pos hid] at hsent
      rw [if_pos (hid.trans hself)]
      cases hsent
      exact ⟨_, rfl, hdeliver⟩
    · rw [if_neg hid] at hsent
      rw [if_neg fun h => hid (h.trans hself.symm)]
      cases hsent
      exact ⟨_, rfl, hout⟩
  | atom a =>
    cases hsent
    exact ⟨_, rfl, hout⟩
  | _ => cases hsent

/-- What has no address has none in any world. -/
theorem Worlds.send_error (laws : C.Laws linker code) {w : World} (w' : World) {receiver : Term}
    {message : Term} {fault : Fault} (h : w.send receiver message = .error fault) :
    w'.send receiver message = .error fault ∧ C.GoodFault fault := by
  unfold World.send at h ⊢
  cases receiver with
  | pid id =>
    dsimp only at h
    split at h <;> cases h
  | atom a => cases h
  | _ =>
    cases h
    exact ⟨rfl, laws.goodFault_atom _⟩

section Messages

include laws

/-- Sending. -/
theorem sim_send (callers : List Caller) :
    C.Sim C.Flows (Command.send.run linker code callers)
      (Command.send.run linker code callers) := by
  refine sim_process.bindSame fun p hp => Sim.get.bind fun s s' _ hs => ?_
  have hmessage : C.Good (p.x 1) := hp.x laws 1
  refine Sim.bind (V := fun w w' _ => C.Worlds w w')
    (Sim.liftFault (fun w hw => ?_) fun fault hfault => Worlds.send_error laws _ hfault)
    fun w w' _ hw => ?_
  · obtain ⟨w', hw', hworlds⟩ := hs.world.send laws (hp.x laws 0) hmessage hw
    exact ⟨w', hw', fun _ => hworlds⟩
  · refine Sim.seq (sim_modifyWorld fun _ _ _ => hw) ?_
    refine (sim_write laws (.x 0) hmessage).seq ?_
    -- After a message the process may have to wait for its turn: here the two runs may part.
    refine Sim.bind (V := fun stop stop' _ => C.yields stop stop')
      (Sim.get.bind fun s s' _ hs => ?_) fun stop stop' _ hstop => Sim.pure fun _ => .yield hstop
    obtain ⟨hyields, hworlds⟩ := laws.checkYield _ _ hs.world
    exact Sim.seq (sim_modifyWorld fun _ _ _ => hworlds) (Sim.pure fun _ => hyields)

/-- Looking at the message at the cursor. -/
theorem sim_loopReceive (callers : List Caller) {target : Nat} (dest : Place)
    (h : C.offset target) :
    C.Sim C.Flows ((Command.loopReceive target dest).run linker code callers)
      ((Command.loopReceive target dest).run linker code callers) := by
  refine Sim.get.bind fun s s' _ hs => ?_
  have hmailbox : s.world.mailbox = s'.world.mailbox :=
    hs.world.congr World.mailbox fun _ => rfl
  rw [← hmailbox]
  cases hpeek : s.world.mailbox.peek? with
  | some message =>
    have hmessage : C.Good message := hs.world.messages _ (List.mem_of_getElem? hpeek)
    exact (sim_write laws dest hmessage).seq sim_next
  | none => exact sim_goto h

end Messages

/-! ## Faults -/

/-- A change of the handlers. -/
theorem sim_setHandlers {f : List Handler → List Handler}
    (hgood : ∀ handlers, (∀ h ∈ handlers, C.handler h) → ∀ h ∈ f handlers, C.handler h) :
    C.Sim Done (modifyFrame fun g => { g with handlers := f g.handlers })
      (modifyFrame fun g => { g with handlers := f g.handlers }) :=
  sim_modifyFrame (fun _ => rfl) (fun _ hg => { hg with handlers := hgood _ hg.handlers })
    fun _ => rfl

/-- A fault that is raised again is made of the terms of the last fault and its reason. -/
theorem goodFault_reraise {last : Option Fault} {reason : Term} (here : Option Term)
    (hlast : ∀ fault ∈ last, C.GoodFault fault) (hreason : C.Good reason) :
    C.GoodFault (reraise last reason here) := by
  have herror : C.GoodFault (.error reason) := by
    intro t ht
    obtain rfl : t = reason := by simpa [Fault.terms, Fault.error] using ht
    exact hreason
  unfold reraise
  cases last with
  | none => exact herror
  | some fault =>
    have hfault : C.GoodFault fault := hlast fault rfl
    -- The place where the fault is raised again may be left out of the trace.
    have htrace : ∀ again : Bool,
        (if again then fault.trace.dropLast else fault.trace) ⊆ fault.trace := by
      intro again
      cases again with
      | false => exact List.Subset.refl _
      | true => exact (List.dropLast_sublist _).subset
    dsimp only
    split
    · intro t ht
      rcases List.mem_cons.1 ht with rfl | ht
      · exact hreason
      · exact hfault t (List.mem_cons_of_mem _ (htrace _ ht))
    · exact herror

section Faults

include laws

/-- Beginning a protected region. -/
theorem sim_protect (callers : List Caller) (kind : HandlerKind) (slot : Nat) {target : Nat}
    (h : C.offset target) :
    C.Sim C.Flows ((Command.protect kind slot target).run linker code callers)
      ((Command.protect kind slot target).run linker code callers) := by
  refine Sim.get.bind fun s s' _ hs => ?_
  have hhandler : C.handler ⟨kind, target, s.process.depth⟩ :=
    laws.handler _ _ kind target hs.stack h
  rw [← hs.process, ← hs.handlers_eq]
  -- The new handler is kept twice, in the catch tag and among the handlers in force.
  refine Sim.seq (sim_writeSlot laws slot (.inr ⟨_, _, rfl, ?_⟩)) (Sim.seq ?_ sim_next)
  · intro x hx
    rcases List.mem_cons.1 hx with rfl | hx
    · exact hhandler
    · exact hs.goodFrame.handlers x hx
  · refine sim_setHandlers fun handlers hgood x hx => ?_
    rcases List.mem_cons.1 hx with rfl | hx
    · exact hhandler
    · exact hgood x hx

/-- Ending a protected region. -/
theorem sim_unprotect (callers : List Caller) (slot : Nat) :
    C.Sim C.Flows ((Command.unprotect slot).run linker code callers)
      ((Command.unprotect slot).run linker code callers) := by
  refine (sim_read laws (.y slot)).bindSame fun t ht => ?_
  split
  · rename_i handler outer
    have houter : ∀ x ∈ outer, C.handler x := by
      intro x hx
      -- Either tags count as good terms, or this one stands in a slot of the activation.
      rcases ht with ht | ⟨handler', outer', heq, ht⟩
      · exact laws.tag handler outer ht x (List.mem_cons_of_mem _ hx)
      · cases heq
        exact ht x (List.mem_cons_of_mem _ hx)
    exact Sim.seq (sim_setHandlers fun _ _ => houter)
      ((sim_write laws _ laws.good_nil).seq sim_next)
  · exact Sim.abort (laws.ordinary _ trivial)

/-- Raising a fault again. -/
theorem sim_reraise (callers : List Caller) :
    C.Sim C.Flows (Command.raise.run linker code callers)
      (Command.raise.run linker code callers) := by
  refine (sim_takeFirst laws).bindSame fun trace _ =>
    (sim_takeSecond laws).bindSame fun reason hreason => sim_process.bindSame fun p hp => ?_
  refine Sim.seq (sim_modifyProcess (fun q hq => ?_) fun _ => rfl) ?_
  · exact { hq with lastFault := fun fault hfault => by cases hfault }
  · refine sim_frame.bind fun f f' _ hf => ?_
    have hpc : f.lastPc = f'.lastPc := Frame.congr_of_calm hf.1 Frame.lastPc fun _ => rfl
    rw [← hpc]
    exact Sim.raise (goodFault_reraise _ hp.lastFault hreason)

end Faults

/-! ## Floats -/

section Floats

include laws

/-- Writing a good float. -/
theorem sim_writeFloat (dest : FloatPlace) {x : Binary64} (hx : C.leaf (.float x)) :
    C.Sim C.Flows (Command.run.writeFloat dest x) (Command.run.writeFloat dest x) := by
  cases dest with
  | float n => exact (sim_modifyProcess (fun p hp => hp.setFr laws n hx) fun _ => rfl).seq sim_next
  | place place =>
    have hgood : C.Good (.float x) := hx
    exact (sim_write laws place hgood).seq sim_next

/-- Copying a float. -/
theorem sim_floatMove (callers : List Caller) {value : Source} (dest : FloatPlace)
    (h : C.FitsSource value) :
    C.Sim C.Flows ((Command.floatMove value dest).run linker code callers)
      ((Command.floatMove value dest).run linker code callers) := by
  refine (sim_source laws h).bindSame fun t ht => ?_
  split
  · exact sim_writeFloat laws dest (laws.leaf_number ht rfl)
  · exact Sim.raise (laws.goodFault_atom _)

/-- Converting a number. -/
theorem sim_floatConvert (callers : List Caller) {value : Source} (dest : FloatPlace)
    (h : C.FitsSource value) :
    C.Sim C.Flows ((Command.floatConvert value dest).run linker code callers)
      ((Command.floatConvert value dest).run linker code callers) := by
  refine (sim_source laws h).bindSame fun t ht => ?_
  cases hx : t.number? with
  | some x =>
    exact (Sim.pure (V := Same fun y => C.leaf (.float y))
      fun _ => ⟨rfl, laws.leaf_number ht hx⟩).bindSame fun y hy => sim_writeFloat laws dest hy
  | none =>
    exact (Sim.raise (V := Same fun y => C.leaf (.float y))
      (laws.goodFault_atom _)).bindSame fun y hy => sim_writeFloat laws dest hy

/-- Working on float registers. -/
theorem sim_floatOperation (callers : List Caller) (operation : FloatOperation) (a b dest : Nat) :
    C.Sim C.Flows ((Command.floatOperation operation a b dest).run linker code callers)
      ((Command.floatOperation operation a b dest).run linker code callers) := by
  refine sim_process.bindSame fun p hp => ?_
  dsimp only
  split
  · exact sim_writeFloat laws _ (laws.finite _ ‹_›)
  · exact Sim.raise (laws.goodFault_atom _)

end Floats

/-! ## Data -/

section Data

include laws

/-- Taking a list cell apart. -/
theorem sim_getList (callers : List Caller) (head tail : Place) :
    C.Sim C.Flows ((Command.getList head tail).run linker code callers)
      ((Command.getList head tail).run linker code callers) := by
  refine (sim_takeFirst laws).bindSame fun t ht => ?_
  split
  · obtain ⟨hhead, htail⟩ := ht.of_cons
    exact (sim_write laws head hhead).seq ((sim_write laws tail htail).seq sim_next)
  · exact Sim.raise (laws.goodFault_atom _)

/-- Copying an element of a tuple. -/
theorem sim_getElement (callers : List Caller) (index : Nat) (dest : Place) :
    C.Sim C.Flows ((Command.getElement index dest).run linker code callers)
      ((Command.getElement index dest).run linker code callers) := by
  refine (sim_takeFirst laws).bindSame fun t ht => sim_deliver laws dest label_none fun u hu => ?_
  have hmem := List.mem_of_getElem? hu
  cases t with
  | tuple elements => exact ht.of_tuple u hmem
  | _ => cases hmem

/-- Opening a tuple. -/
theorem sim_beginTuple (callers : List Caller) (arity : Nat) (dest : Place) :
    C.Sim C.Flows ((Command.beginTuple arity dest).run linker code callers)
      ((Command.beginTuple arity dest).run linker code callers) := by
  rw [Command.run]
  split
  · refine (sim_write laws dest (laws.good_tuple fun t ht => ?_)).seq sim_next
    cases ht
  · refine (sim_setTuple fun d hd t ht => ?_).seq sim_next
    cases hd
    exact absurd ht (Array.not_mem_empty t)

/-- Adding an element to the tuple under construction. -/
theorem sim_putElement (callers : List Caller) (position : Nat) :
    C.Sim C.Flows ((Command.putElement position).run linker code callers)
      ((Command.putElement position).run linker code callers) := by
  refine (sim_takeFirst laws).bindSame fun value hvalue => sim_frame.bind fun f f' _ hf => ?_
  have htuple : f.tuple = f'.tuple := Frame.congr_of_calm hf.1 Frame.tuple fun _ => rfl
  rw [← htuple]
  cases hdraft : f.tuple with
  | none => exact Sim.abort (laws.ordinary _ trivial)
  | some draft =>
    have helements : ∀ t ∈ draft.elements.push value, C.Good t := by
      intro t ht
      rcases Array.mem_push.1 ht with ht | rfl
      · exact hf.2.tuple draft hdraft t ht
      · exact hvalue
    dsimp only
    split
    · -- What would follow does not matter, since the machine has given up.
      exact fun s s' hs => ⟨rfl, laws.ordinary _ trivial, hs⟩
    · split
      · refine Sim.seq (sim_setTuple fun d hd => by cases hd)
          (Sim.seq (sim_write laws _ ?_) sim_next)
        exact laws.good_tuple fun t ht => helements t (Array.mem_def.2 ht)
      · refine Sim.seq (sim_setTuple fun d hd => ?_) sim_next
        cases hd
        exact helements

/-- Replacing an element of a tuple. -/
theorem sim_setElement (callers : List Caller) (slot : Place) (index : Nat) :
    C.Sim C.Flows ((Command.setElement slot index).run linker code callers)
      ((Command.setElement slot index).run linker code callers) := by
  refine (sim_takeFirst laws).bindSame fun value hvalue =>
    (sim_read laws slot).bindSame fun t ht => ?_
  split
  · rename_i elements
    have htuple : C.Good (.tuple elements) := ht.good fun _ _ h => by cases h
    split
    · refine (sim_write laws slot (laws.good_tuple fun u hu => ?_)).seq sim_next
      rcases List.mem_or_eq_of_mem_set hu with hu | rfl
      · exact htuple.of_tuple u hu
      · exact hvalue
    · exact Sim.raise (laws.goodFault_atom _)
  · exact Sim.raise (laws.goodFault_atom _)

/-- Making a function. -/
theorem sim_makeFun (callers : List Caller) {target : Nat} (arity captured : Nat)
    (h : C.offset target) :
    C.Sim C.Flows ((Command.makeFun target arity captured).run linker code callers)
      ((Command.makeFun target arity captured).run linker code callers) := by
  refine sim_process.bindSame fun p hp => sim_frame.bind fun f f' _ hf => ?_
  have hcode : f.code = f'.code := Frame.congr_of_calm hf.1 Frame.code fun _ => rfl
  have hentry : C.entry f.code target := laws.entry _ _ hf.2.module h
  rw [← hcode]
  exact (sim_write laws (.x 0)
    (laws.good_closure arity hentry (hp.arguments laws captured))).seq sim_next

/-- What becomes of a native's result. -/
theorem sim_nativeResult (dest : Place) (label : Option Nat) : C.Label label →
    ∀ result, C.GoodResult result → C.Sim C.Flows
      (match result with
        | .ok value => write dest value >>= fun _ => pure .next
        | .error fault => match label with
          | some target => goto target
          | none => Exec.raise fault)
      (match result with
        | .ok value => write dest value >>= fun _ => pure .next
        | .error fault => match label with
          | some target => goto target
          | none => Exec.raise fault) := by
  intro h result hresult
  cases result with
  | ok value => exact (sim_write laws dest hresult).seq sim_next
  | error fault =>
    cases label with
    | some target => exact sim_goto (h target rfl)
    | none => exact Sim.raise hresult

/-- Calling a native. -/
theorem sim_native (callers : List Caller) (count index : Nat) {label : Option Nat} (dest : Place)
    (h : C.Label label) :
    C.Sim C.Flows ((Command.native count index label dest).run linker code callers)
      ((Command.native count index label dest).run linker code callers) := by
  have hresult := sim_nativeResult laws dest label h
  match count with
  | 0 =>
    exact (sim_callNative laws index fun t ht => by cases ht).bindSame hresult
  | 1 =>
    refine (sim_takeFirst laws).bindSame fun a ha =>
      (sim_callNative laws index fun t ht => ?_).bindSame hresult
    obtain rfl := List.mem_singleton.1 ht
    exact ha
  | _ + 2 =>
    refine (sim_takeFirst laws).bindSame fun a ha => (sim_takeSecond laws).bindSame fun b hb =>
      (sim_callNative laws index fun t ht => ?_).bindSame hresult
    rw [List.mem_cons, List.mem_singleton] at ht
    rcases ht with rfl | rfl
    · exact ha
    · exact hb

/-- Going on where a table says for a value. -/
theorem sim_selectValue (callers : List Caller) {default index : Nat} (hdefault : C.offset default)
    (hindex : C.valueTable index) :
    C.Sim C.Flows ((Command.selectValue default index).run linker code callers)
      ((Command.selectValue default index).run linker code callers) := by
  refine (sim_takeFirst laws).bindSame fun t _ => Sim.bindSame
    (Sim.entry (fun table htable => laws.valueTable index hindex table htable)
      (laws.noValueTable index hindex)) fun table htable => ?_
  cases hlookup : table.lookup t with
  | none => exact sim_goto hdefault
  | some target => exact sim_goto (htable t target hlookup)

/-- Going on where a table says for the size of a tuple. -/
theorem sim_selectArity (callers : List Caller) {default index : Nat} (hdefault : C.offset default)
    (hindex : C.arityTable index) :
    C.Sim C.Flows ((Command.selectArity default index).run linker code callers)
      ((Command.selectArity default index).run linker code callers) := by
  refine (sim_takeFirst laws).bindSame fun t _ => ?_
  split
  · rename_i elements _
    refine Sim.bindSame
      (Sim.entry (fun table htable => laws.arityTable index hindex table htable)
        (laws.noArityTable index hindex)) fun table htable => ?_
    cases hlookup : table.lookup elements.length with
    | none => exact sim_goto hdefault
    | some target => exact sim_goto (htable _ target hlookup)
  · exact sim_goto hdefault

/-- Waiting for a message or the end of a time. -/
theorem sim_waitTimeout (callers : List Caller) {target : Nat} (h : C.offset target) :
    C.Sim C.Flows ((Command.waitTimeout target).run linker code callers)
      ((Command.waitTimeout target).run linker code callers) := by
  refine (sim_takeFirst laws).bindSame fun t ht => ?_
  split
  -- A number of milliseconds: none at all, some, or a number that is no time.
  · split
    · exact sim_next
    · split
      · refine sim_frame.bind fun f f' _ hf => Sim.pure fun _ => ?_
        have hpc : f.pc = f'.pc := Frame.congr_of_calm hf.1 Frame.pc fun _ => rfl
        rw [← hpc]
        refine .receive h fun o ho => ?_
        cases ho
        exact ⟨hf.2.pc, ht⟩
      · exact Sim.raise (laws.goodFault_atom _)
  · exact Sim.pure fun _ => .receive h fun o ho => by cases ho
  · exact Sim.raise (laws.goodFault_atom _)

end Data

/-! ## All commands -/

section All

include laws

/-- Every command but a prefetch keeps states coupled. Only commands that build bit strings look at
the callers, and only at their terms. -/
theorem sim_command {callers callers' : List Caller}
    (hcallers : callers.flatMap Caller.terms = callers'.flatMap Caller.terms) {command : Command}
    (h : C.Fits command) (hfetch : ∀ first second, command ≠ .fetch first second) :
    C.Sim C.Flows (command.run linker code callers) (command.run linker code callers') := by
  cases command with
  | fetch first second => exact (hfetch first second rfl).elim
  | ensureRegisters n =>
    exact (sim_modifyProcess (fun p hp => hp.ensureRegisters laws.good_nil n) fun _ => rfl).seq
      sim_next
  | ret =>
    -- The balance has to be known in the state in which the activation is left.
    refine (sim_checkBalance laws).bindAt fun _ _ s s' hbalance hs => ?_
    have hx : s.process.x 0 = s'.process.x 0 := by rw [hs.process]
    show C.Results C.Flows (.ok (.leave (s.process.x 0)) s) (.ok (.leave (s'.process.x 0)) s')
    rw [← hx]
    exact ⟨.leave (hs.goodProcess.x laws 0) hbalance, hs⟩
  | jump target => exact sim_goto h
  | functionClause | ifEnd => exact Sim.raise (laws.goodFault_atom _)
  | badmatch | caseEnd | tryCaseEnd =>
    exact (sim_takeFirst laws).bindSame fun t ht => Sim.raise (laws.goodFault_about _ ht)
  | allocate n => exact (sim_allocate laws n).seq sim_next
  | release n => exact (sim_release laws n).seq sim_next
  | init dest => exact (sim_write laws dest laws.good_nil).seq sim_next
  | move dest =>
    exact (sim_takeFirst laws).bindSame fun t ht => (sim_write laws dest ht).seq sim_next
  | putList dest =>
    exact (sim_takeFirst laws).bindSame fun head hhead =>
      (sim_takeSecond laws).bindSame fun tail htail =>
        (sim_write laws dest (laws.good_cons hhead htail)).seq sim_next
  | getList head tail => exact sim_getList laws callers head tail
  | getElement index dest => exact sim_getElement laws callers index dest
  | beginTuple arity dest => exact sim_beginTuple laws callers arity dest
  | putElement position => exact sim_putElement laws callers position
  | setElement slot index => exact sim_setElement laws callers slot index
  | typeTest test label | testArity label arity =>
    exact (sim_takeFirst laws).bindSame fun t _ => sim_branch laws _ h
  | testFunctionArity label | compare comparison label =>
    exact (sim_takeFirst laws).bindSame fun t _ => (sim_takeSecond laws).bindSame fun u _ =>
      sim_branch laws _ h
  | selectValue default index => exact sim_selectValue laws callers h.1 h.2
  | selectArity default index => exact sim_selectArity laws callers h.1 h.2
  | call callee mode => exact sim_call laws mode h callers
  | makeFun target arity captured => exact sim_makeFun laws callers arity captured h
  | native count index label dest => exact sim_native laws callers count index dest h
  | send => exact sim_send laws callers
  | loopReceive target dest => exact sim_loopReceive laws callers dest h
  | loopReceiveEnd target =>
    refine Sim.seq (sim_modifyWorld fun w w' hw => hw.mapMailbox fun m hm => ?_) (sim_goto h)
    unfold Mailbox.skip
    split
    · exact hm
    · exact hm
  | removeMessage =>
    refine Sim.seq (sim_modifyWorld fun w w' hw => hw.mapMailbox fun m hm t ht => ?_) sim_next
    exact hm t (List.mem_of_mem_eraseIdx ht)
  | timeout => exact Sim.seq (sim_modifyWorld fun w w' hw => hw.mapMailbox fun m hm => hm) sim_next
  | wait target =>
    exact (sim_goto h).bind fun _ _ _ _ => Sim.pure fun _ => .receive h fun o ho => by cases ho
  | waitTimeout target => exact sim_waitTimeout laws callers h
  | protect kind slot target => exact sim_protect laws callers kind slot h
  | unprotect slot => exact sim_unprotect laws callers slot
  | raise => exact sim_reraise laws callers
  | floatMove source dest => exact sim_floatMove laws callers dest h
  | floatConvert source dest => exact sim_floatConvert laws callers dest h
  | floatOperation operation a b dest => exact sim_floatOperation laws callers operation a b dest
  | floatNegate a dest =>
    exact sim_process.bindSame fun p hp => sim_writeFloat laws _ (laws.neg _ (hp.fr laws a))
  | matching command => exact sim_matchCommand laws h
  | building command => exact sim_buildCommand laws hcallers h

/-- Reading a source changes nothing, and gives a good term if catch tags are out of reach or
allowed. -/
theorem results_source {source : Source} (h : C.FitsSource source) {s s' : State}
    (hs : C.Related s s') (htag : source.ReadsTag s → C.AllowsTags) :
    C.Results (fun t t' s₁ => t = t' ∧ C.Good t ∧ s₁ = s) ((Exec.source code source).run s)
      ((Exec.source code source).run s') := by
  cases source with
  | place place =>
    refine (results_read laws place hs).mono ?_
    rintro t _ _ ⟨rfl, hslot, hat, rfl⟩
    refine ⟨rfl, ?_, rfl⟩
    -- A slot is the only place from which a source can read a catch tag.
    rcases hslot with hgood | ⟨handler, outer, rfl, -⟩
    · exact hgood
    · exact htag ⟨handler, outer, hat⟩ handler outer
  | constant i =>
    rw [Exec.source]
    cases ht : code.module.constants[i]? with
    | some t => exact ⟨⟨rfl, laws.constant i (h i rfl) t ht, rfl⟩, hs⟩
    | none => exact ⟨rfl, laws.noConstant i (h i rfl) ht, hs⟩
  | float n =>
    have hfr : s.process.fr n = s'.process.fr n := by rw [hs.process]
    exact ⟨⟨congrArg Term.float hfr, hs.goodProcess.fr laws n, rfl⟩, hs⟩

/-- A prefetch keeps states coupled. -/
theorem results_fetch (callers callers' : List Caller) {first : Source} {second : Option Source}
    (h : C.Fits (.fetch first second)) {s s' : State} (hs : C.Related s s')
    (htag : (Command.fetch first second).ReadsTag s → C.AllowsTags) :
    C.Results C.Flows (((Command.fetch first second).run linker code callers).run s)
      (((Command.fetch first second).run linker code callers').run s') := by
  have hfirst : first.ReadsTag s → C.AllowsTags := fun hread =>
    htag ⟨first, List.mem_cons_self, hread⟩
  cases second with
  | none =>
    refine (results_source laws h.1 hs hfirst).bind ?_
    rintro t _ s₁ s₁' ⟨rfl, ht, rfl⟩ hs₁
    have hset : C.Sim Done (modifyFrame fun g => { g with fetched := (t, g.fetched.2) })
        (modifyFrame fun g => { g with fetched := (t, g.fetched.2) }) :=
      sim_modifyFrame (fun _ => rfl)
        (fun _ hg => { hg with first := ht, second := hg.second }) fun _ => rfl
    exact hset.bind (fun _ _ _ _ => sim_next) s₁ s₁' hs₁
  | some other =>
    have hother : other.ReadsTag s → C.AllowsTags := fun hread =>
      htag ⟨other, List.mem_cons_of_mem _ List.mem_cons_self, hread⟩
    refine (results_source laws h.1 hs hfirst).bind ?_
    rintro t _ s₁ s₁' ⟨rfl, ht, rfl⟩ hs₁
    refine (results_source laws (h.2 other rfl) hs₁ hother).bind ?_
    rintro u _ s₂ s₂' ⟨rfl, hu, rfl⟩ hs₂
    have hset : C.Sim Done (modifyFrame fun g => { g with fetched := (t, u) })
        (modifyFrame fun g => { g with fetched := (t, u) }) :=
      sim_modifyFrame (fun _ => rfl) (fun _ hg => { hg with first := ht, second := hu })
        fun _ => rfl
    exact hset.bind (fun _ _ _ _ => sim_next) s₂ s₂' hs₂

/-- Every command keeps states coupled. -/
theorem results_command {callers callers' : List Caller}
    (hcallers : callers.flatMap Caller.terms = callers'.flatMap Caller.terms) {command : Command}
    (h : C.Fits command) {s s' : State} (hs : C.Related s s')
    (htag : command.ReadsTag s → C.AllowsTags) :
    C.Results C.Flows ((command.run linker code callers).run s)
      ((command.run linker code callers').run s') := by
  cases command with
  | fetch first second => exact results_fetch laws callers callers' h hs htag
  | _ => exact sim_command laws hcallers h (fun _ _ heq => by cases heq) s s' hs

end All

end Coupling

end ErlangMachine.Machine
