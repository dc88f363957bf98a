import ErlangMachine.Proofs.Coupling

/-!
# Actions under a coupling

Commands are made of a few actions: they take the prefetched sources, read and write places, change
the frame or the world, and go on at an offset. Each lemma here says that one of them keeps states
coupled, and what holds of the value that it gives. Where an action depends on the stack, the proof
looks at the state; everywhere else the rules of `Sim` are enough.
-/

namespace ErlangMachine.Machine.Coupling

open Exec

variable {C : Coupling} {linker : Linker} {code : LoadedModule} (laws : C.Laws linker code)

/-! ## Good terms -/

section Terms

include laws

theorem Laws.good_nil : C.Good .nil := laws.plain _ trivial

theorem Laws.good_integer (i : Int64) : C.Good (.integer i) := laws.plain _ trivial

theorem Laws.good_atom (a : Atom) : C.Good (.atom a) := laws.plain _ trivial

theorem Laws.good_bits (b : BitString) : C.Good (.bits b) := laws.plain _ trivial

theorem Laws.good_cursor (c : BitString.Cursor) : C.Good (.cursor c) := laws.plain _ trivial

/-- A cell of good terms is good. -/
theorem Laws.good_cons {head tail : Term} (hhead : C.Good head) (htail : C.Good tail) :
    C.Good (.cons head tail) :=
  ⟨laws.plain _ trivial, hhead, htail⟩

/-- A tuple of good terms is good. -/
theorem Laws.good_tuple {elements : List Term} (h : ∀ t ∈ elements, C.Good t) :
    C.Good (.tuple elements) :=
  ⟨laws.plain _ trivial, Term.everyOf_iff.2 h⟩

/-- A list of good terms is good. -/
theorem Laws.good_list {elements : List Term} (h : ∀ t ∈ elements, C.Good t) :
    C.Good (.list elements) :=
  Term.every_list (laws.plain .nil trivial)
    (fun head tail => laws.plain (.cons head tail) trivial) h

/-- A closure over good terms is good where its code may be entered. -/
theorem Laws.good_closure {module : ModuleRef} {entry : Nat} (arity : Nat) {environment : List Term}
    (hentry : C.entry module entry) (h : ∀ t ∈ environment, C.Good t) :
    C.Good (.closure module entry arity environment) :=
  ⟨(laws.closure _ _ _ _).2 hentry, Term.everyOf_iff.2 h⟩

/-- A number that a good slot holds is a good float. -/
theorem Laws.leaf_number {t : Term} {x : Binary64} (ht : C.Slot t) (hx : t.number? = some x) :
    C.leaf (.float x) := by
  cases t with
  | integer i =>
    obtain rfl : Binary64.ofInt i.toInt = x := by simpa [Term.number?] using hx
    exact laws.ofInt i
  | float y =>
    obtain rfl : y = x := by simpa [Term.number?] using hx
    rcases ht with ht | ⟨_, _, ht, _⟩
    · exact ht
    · cases ht
  | _ => simp [Term.number?] at hx

/-- A fault with a plain reason and no trace is good. -/
theorem Laws.goodFault_atom (a : Atom) : C.GoodFault (.error (.atom a)) := by
  intro t ht
  obtain rfl : t = .atom a := by simpa [Fault.terms, Fault.error] using ht
  exact laws.good_atom a

/-- A fault about a good value is good. -/
theorem Laws.goodFault_about (name : Atom) {value : Term} (h : C.Good value) :
    C.GoodFault (.about name value) := by
  intro t ht
  obtain rfl : t = .tuple [.atom name, value] := by
    simpa [Fault.terms, Fault.about, Fault.error] using ht
  refine laws.good_tuple fun u hu => ?_
  rw [List.mem_cons, List.mem_singleton] at hu
  rcases hu with rfl | rfl
  · exact laws.good_atom name
  · exact h

end Terms

/-- What stands in a slot and is no catch tag is a good term. -/
theorem Slot.good {t : Term} (h : C.Slot t) (htag : ∀ handler outer, t ≠ .catchTag handler outer) :
    C.Good t := by
  rcases h with h | ⟨handler, outer, rfl, _⟩
  · exact h
  · exact absurd rfl (htag handler outer)

/-! ## Processes -/

namespace GoodProcess

variable {p : Process} (hp : C.GoodProcess p)

include laws hp

/-- Every register reads as a good term. -/
theorem x (n : Nat) : C.Good (p.x n) := by
  unfold Process.x
  rw [Array.getD_eq_getD_getElem?]
  cases h : p.registers[n]? with
  | none => exact laws.good_nil
  | some t => exact hp.registers t (Array.mem_of_getElem? h)

/-- The arguments of a call are good. -/
theorem arguments (n : Nat) : ∀ t ∈ p.arguments n, C.Good t := by
  intro t ht
  obtain ⟨i, _, rfl⟩ := List.mem_map.1 ht
  exact hp.x laws i

/-- Every float register reads as a good float. -/
theorem fr (n : Nat) : C.leaf (.float (p.fr n)) := by
  unfold Process.fr
  rw [Array.getD_eq_getD_getElem?]
  cases h : p.floats[n]? with
  | none => exact laws.finite _ (by decide)
  | some x => exact hp.floats x (Array.mem_of_getElem? h)

omit laws in
/-- New registers are good. -/
theorem ensureRegisters (hnil : C.Good .nil) (n : Nat) : C.GoodProcess (p.ensureRegisters n) where
  registers t ht := by
    rcases Array.mem_append.1 ht with ht | ht
    · exact hp.registers t ht
    · obtain ⟨_, rfl⟩ := Array.mem_replicate.1 ht
      exact hnil
  floats := hp.floats
  lastFault := hp.lastFault

omit laws in
/-- A good term may be written to a register. -/
theorem setX (hnil : C.Good .nil) (n : Nat) {t : Term} (ht : C.Good t) :
    C.GoodProcess (p.setX n t) where
  registers u hu := by
    rcases Array.mem_or_eq_of_mem_setIfInBounds hu with hu | rfl
    · exact (hp.ensureRegisters hnil (n + 1)).registers u hu
    · exact ht
  floats := hp.floats
  lastFault := hp.lastFault

/-- A good float may be written to a float register. -/
theorem setFr (n : Nat) {x : Binary64} (hx : C.leaf (.float x)) : C.GoodProcess (p.setFr n x) where
  registers := hp.registers
  floats y hy := by
    rcases Array.mem_or_eq_of_mem_setIfInBounds hy with hy | rfl
    · rcases Array.mem_append.1 hy with hy | hy
      · exact hp.floats y hy
      · obtain ⟨_, rfl⟩ := Array.mem_replicate.1 hy
        exact laws.finite _ (by decide)
    · exact hx
  lastFault := hp.lastFault

omit laws in
theorem withStack (stack : List Term) : C.GoodProcess { p with stack } :=
  ⟨hp.registers, hp.floats, hp.lastFault⟩

end GoodProcess

/-! ## Looking at the state and changing it -/

/-- Coupled activations began at the same depth. -/
theorem Related.base_eq {s s' : State} (hs : C.Related s s') : s.frame.base = s'.frame.base :=
  Frame.congr_of_calm hs.frame Frame.base fun _ => rfl

/-- Related states run the code of the same module. -/
theorem Related.code_eq {s s' : State} (hs : C.Related s s') : s.frame.code = s'.frame.code :=
  Frame.congr_of_calm hs.frame Frame.code fun _ => rfl

/-- Related states have the same handlers in force. -/
theorem Related.handlers_eq {s s' : State} (hs : C.Related s s') :
    s.frame.handlers = s'.frame.handlers :=
  Frame.congr_of_calm hs.frame Frame.handlers fun _ => rfl

theorem sim_process : C.Sim (Same C.GoodProcess) process process := by
  intro s s' hs
  exact ⟨⟨hs.process, hs.goodProcess⟩, hs⟩

theorem sim_frame : C.Sim (fun f f' _ => f.calm = f'.calm ∧ C.GoodFrame f) frame frame := by
  intro s s' hs
  exact ⟨⟨hs.frame, hs.goodFrame⟩, hs⟩

/-- A change of the process that leaves the stack alone. -/
theorem sim_modifyProcess {f : Process → Process}
    (hgood : ∀ p, C.GoodProcess p → C.GoodProcess (f p)) (hstack : ∀ p, (f p).stack = p.stack) :
    C.Sim Done (modifyProcess f) (modifyProcess f) := by
  intro s s' hs
  refine ⟨trivial, congrArg f hs.process, hs.frame, hs.world, hgood _ hs.goodProcess, ?_,
    hs.goodFrame⟩
  show C.stack s.frame.base (f s.process).stack
  rw [hstack]
  exact hs.stack

/-- A change of the frame that leaves the mark and the depth on entry alone. -/
theorem sim_modifyFrame {f : Frame → Frame} (hcalm : ∀ g, (f g).calm = f g.calm)
    (hgood : ∀ g, C.GoodFrame g → C.GoodFrame (f g)) (hbase : ∀ g, (f g).base = g.base) :
    C.Sim Done (modifyFrame f) (modifyFrame f) := by
  intro s s' hs
  have hframe : (f s.frame).calm = (f s'.frame).calm := by rw [hcalm, hs.frame, ← hcalm]
  have hstack : C.stack (f s.frame).base s.process.stack := by
    rw [hbase]
    exact hs.stack
  exact ⟨trivial, hs.process, hframe, hs.world, hs.goodProcess, hstack, hgood _ hs.goodFrame⟩

/-- A change of the world. -/
theorem sim_modifyWorld {f f' : World → World}
    (h : ∀ w w', C.Worlds w w' → C.Worlds (f w) (f' w')) :
    C.Sim Done (modifyWorld f) (modifyWorld f') := by
  intro s s' hs
  exact ⟨trivial, hs.process, hs.frame, h _ _ hs.world, hs.goodProcess, hs.stack, hs.goodFrame⟩

/-! ## Prefetched sources -/

section Actions

include laws

/-- The first prefetched source. -/
theorem sim_takeFirst : C.Sim (Same C.Good) takeFirst takeFirst := by
  refine sim_frame.bind fun f f' _ hf => ?_
  have hfetched : f.fetched = f'.fetched := Frame.congr_of_calm hf.1 Frame.fetched fun _ => rfl
  rw [← hfetched]
  refine Sim.seq (sim_modifyFrame (fun _ => rfl) (fun g hg => ?_) fun _ => rfl)
    (Sim.pure fun _ => ⟨rfl, hf.2.first⟩)
  exact { hg with first := laws.good_nil, second := hf.2.second }

/-- The second prefetched source. -/
theorem sim_takeSecond : C.Sim (Same C.Good) takeSecond takeSecond := by
  refine sim_frame.bind fun f f' _ hf => ?_
  have hfetched : f.fetched = f'.fetched := Frame.congr_of_calm hf.1 Frame.fetched fun _ => rfl
  rw [← hfetched]
  refine Sim.seq (sim_modifyFrame (fun _ => rfl) (fun g hg => ?_) fun _ => rfl)
    (Sim.pure fun _ => ⟨rfl, hf.2.second⟩)
  exact { hg with first := hf.2.first, second := laws.good_nil }

/-! ## Places -/

/-- Reading a place changes nothing, and gives what stands there. -/
theorem results_read (place : Place) {s s' : State} (hs : C.Related s s') :
    C.Results (fun t t' s₁ => t = t' ∧ C.Slot t ∧ s.at? place = some t ∧ s₁ = s)
      ((Exec.read place).run s) ((Exec.read place).run s') := by
  cases place with
  | x n =>
    have hx : s.process.x n = s'.process.x n := by rw [hs.process]
    exact ⟨⟨hx, .inl (hs.goodProcess.x laws n), rfl, rfl⟩, hs⟩
  | y n =>
    unfold Exec.read checkSlot State.at?
    simp only [EStateM.run_bind, EStateM.run_get, ← hs.process, ← hs.base_eq]
    -- A slot that the activation does not have is an error, whatever is there.
    by_cases hn : s.process.depth - s.frame.base ≤ n
    · rw [if_pos hn]
      exact ⟨rfl, laws.ordinary _ trivial, hs⟩
    · rw [if_neg hn, if_pos (Nat.not_le.1 hn)]
      simp only [EStateM.run_pure, process, EStateM.run_bind, EStateM.run_get, ← hs.process]
      unfold Process.y
      cases ht : s.process.stack[n]? with
      | none => exact ⟨rfl, laws.ordinary _ trivial, hs⟩
      | some t =>
        have hslot : C.Slot t := laws.stackRead _ _ _ _ hs.stack (Nat.not_le.1 hn) ht
        exact ⟨⟨rfl, hslot, rfl, rfl⟩, hs⟩

theorem sim_read (place : Place) : C.Sim (Same C.Slot) (Exec.read place) (Exec.read place) :=
  fun _ _ hs => (results_read laws place hs).mono fun _ _ _ ht => ⟨ht.1, ht.2.1⟩

/-- Writing what may stand in a slot to a stack slot. -/
theorem sim_writeSlot (n : Nat) {t : Term} (ht : C.Slot t) :
    C.Sim Done (write (.y n) t) (write (.y n) t) := by
  intro s s' hs
  unfold write checkSlot
  simp only [EStateM.run_bind, EStateM.run_get, ← hs.process, ← hs.base_eq]
  by_cases hn : s.process.depth - s.frame.base ≤ n
  · rw [if_pos hn]
    exact ⟨rfl, laws.ordinary _ trivial, hs⟩
  · rw [if_neg hn]
    have hlt : n < s.process.stack.length - s.frame.base := by unfold Process.depth at hn; omega
    have hdepth : n < s.process.depth := by unfold Process.depth; omega
    simp only [EStateM.run_pure, process, EStateM.run_bind, EStateM.run_get, ← hs.process]
    unfold Process.setY
    rw [if_pos hdepth]
    exact ⟨trivial, rfl, hs.frame, hs.world, hs.goodProcess.withStack _,
      laws.stackWrite _ _ _ _ hs.stack hlt ht, hs.goodFrame⟩

/-- Writing a good term. -/
theorem sim_write (place : Place) {t : Term} (ht : C.Good t) :
    C.Sim Done (write place t) (write place t) := by
  cases place with
  | x n => exact sim_modifyProcess (fun p hp => hp.setX laws.good_nil n ht) fun p => rfl
  | y n => exact sim_writeSlot laws n (.inl ht)

/-- What a source stands for, catch tags in stack slots included. -/
theorem sim_source {source : Source}
    (h : ∀ i, source = .constant i → C.constant i) :
    C.Sim (Same C.Slot) (Exec.source code source) (Exec.source code source) := by
  cases source with
  | place slot => exact sim_read laws slot
  | float n =>
    exact sim_process.bindSame fun p hp => Sim.pure fun _ => ⟨rfl, .inl (hp.fr laws n)⟩
  | constant i =>
    exact Sim.entry (fun t ht => .inl (laws.constant i (h i rfl) t ht))
      (laws.noConstant i (h i rfl))

end Actions

/-! ## Control -/

variable (C) in
/-- Ways to go on that belong together. An activation that ends has put the stack back to the depth
at which it found it. -/
inductive Flows : Flow → Flow → State → Prop where
  | next {s : State} : Flows .next .next s
  | leave {s : State} {value : Term} : C.Good value → s.process.depth = s.frame.base →
    Flows (.leave value) (.leave value) s
  | call {s : State} {target : Callable} {arguments : List Term} : C.GoodCallable target →
    (∀ t ∈ arguments, C.Good t) → Flows (.call target arguments) (.call target arguments) s
  | tailCall {s : State} {target : Callable} {arguments : List Term} : C.GoodCallable target →
    (∀ t ∈ arguments, C.Good t) → s.process.depth = s.frame.base →
    Flows (.tailCall target arguments) (.tailCall target arguments) s
  | receive {s : State} {target : Nat} {timeout : Option (Nat × Term)} : C.offset target →
    (∀ o ∈ timeout, C.offset o.1 ∧ C.Good o.2) →
    Flows (.suspend (.receive target timeout)) (.suspend (.receive target timeout)) s
  | yield {s : State} {stop stop' : Bool} : C.yields stop stop' →
    Flows (if stop then .suspend (.yield false) else .next)
      (if stop' then .suspend (.yield false) else .next) s

theorem sim_next : C.Sim C.Flows (pure .next) (pure .next) := Sim.pure fun _ => .next

/-- A change of the offset to go on at. -/
theorem sim_setPc {target : Nat} (h : C.offset target) :
    C.Sim Done (modifyFrame fun f => { f with pc := target })
      (modifyFrame fun f => { f with pc := target }) :=
  sim_modifyFrame (fun _ => rfl) (fun _ hg => { hg with pc := h }) fun _ => rfl

theorem sim_goto {target : Nat} (h : C.offset target) : C.Sim C.Flows (goto target) (goto target) :=
  (sim_setPc h).seq sim_next

section Control

include laws

omit laws in
/-- No label is a label that may be missing. -/
theorem label_none : C.Label none := fun _ htarget => by cases htarget

/-- A failure, which goes on at the fail label or raises an argument error. -/
theorem sim_fail {label : Option Nat} (h : C.Label label) :
    C.Sim C.Flows (Exec.fail label) (Exec.fail label) := by
  cases label with
  | some target => exact sim_goto (h target rfl)
  | none => exact Sim.raise (laws.goodFault_atom _)

/-- A test. -/
theorem sim_branch (passed : Bool) {label : Option Nat} (h : C.Label label) :
    C.Sim C.Flows (branch passed label) (branch passed label) := by
  cases passed with
  | true => exact sim_next
  | false => exact sim_fail laws h

/-- A result that may be missing. -/
theorem sim_deliver (dest : Place) {label : Option Nat} {result : Option Term} (h : C.Label label)
    (hresult : ∀ t ∈ result, C.Good t) :
    C.Sim C.Flows (deliver dest label result) (deliver dest label result) := by
  cases result with
  | some t => exact (sim_write laws dest (hresult t rfl)).seq sim_next
  | none => exact sim_fail laws h

/-- The check that the stack is as it was on entry. -/
theorem sim_checkBalance :
    C.Sim (fun _ _ s => s.process.depth = s.frame.base) checkBalance checkBalance := by
  intro s s' hs
  unfold checkBalance
  simp only [EStateM.run_bind, EStateM.run_get, ← hs.process, ← hs.base_eq]
  by_cases h : s.process.depth = s.frame.base
  · rw [if_neg (not_not_intro h)]
    exact ⟨h, hs⟩
  · rw [if_pos h]
    exact ⟨rfl, laws.ordinary _ trivial, hs⟩

/-- Giving stack slots back. -/
theorem sim_release (n : Nat) : C.Sim Done (Exec.release n) (Exec.release n) := by
  intro s s' hs
  unfold Exec.release
  simp only [EStateM.run_bind, EStateM.run_get, ← hs.process, ← hs.base_eq]
  -- The stack may already be lower than the activation found it; the coupling decides about that.
  by_cases hlow : s.process.depth < s.frame.base
  · rw [if_pos hlow]
    exact ⟨rfl, laws.stackBase _ _ hs.stack hlow, hs⟩
  · rw [if_neg hlow]
    by_cases hn : s.process.depth - s.frame.base < n
    · simp only [if_pos hn]
      exact ⟨rfl, laws.ordinary _ trivial, hs⟩
    · simp only [if_neg hn]
      exact ⟨trivial, congrArg (Process.release · n) hs.process, hs.frame, hs.world,
        hs.goodProcess.withStack _,
        laws.stackRelease _ _ _ hs.stack (Nat.not_lt.1 hlow) (Nat.not_lt.1 hn), hs.goodFrame⟩

/-- Taking stack slots. -/
theorem sim_allocate (n : Nat) :
    C.Sim Done (modifyProcess (·.allocate n)) (modifyProcess (·.allocate n)) := by
  intro s s' hs
  exact ⟨trivial, congrArg (Process.allocate · n) hs.process, hs.frame, hs.world,
    hs.goodProcess.withStack _, laws.stackAllocate _ _ n hs.stack, hs.goodFrame⟩

end Control

/-! ## Drafts -/

/-- A change of the tuple under construction. -/
theorem sim_setTuple {draft : Option TupleDraft}
    (h : ∀ d ∈ draft, ∀ t ∈ d.elements, C.Good t) :
    C.Sim Done (modifyFrame fun f => { f with tuple := draft })
      (modifyFrame fun f => { f with tuple := draft }) :=
  sim_modifyFrame (fun _ => rfl) (fun _ hg => { hg with tuple := h }) fun _ => rfl

theorem sim_setBits (bits : Option (BitString.Builder × Place)) :
    C.Sim Done (modifyFrame fun f => { f with bits }) (modifyFrame fun f => { f with bits }) :=
  sim_modifyFrame (fun _ => rfl) (fun _ hg => { hg with }) fun _ => rfl

/-! ## Worlds -/

namespace Worlds

variable {w w' : World} (hw : C.Worlds w w')

include hw

/-- Worlds that belong together agree in all but their pace. -/
theorem congr {α : Type} (view : World → α) (hview : ∀ w, view w.calm = view w) :
    view w = view w' := by
  rw [← hview w, hw.calm, hview w']

/-- A change of the mailbox that keeps its messages good. -/
theorem mapMailbox {f : Mailbox → Mailbox}
    (h : ∀ m, (∀ t ∈ m.messages, C.Good t) → ∀ t ∈ (f m).messages, C.Good t) :
    C.Worlds (w.mapMailbox f) (w'.mapMailbox f) :=
  ⟨congrArg (World.mapMailbox · f) hw.calm, hw.pace, h _ hw.messages, hw.sent, hw.kept⟩

/-- A new buffer. -/
theorem setNextBuffer (n : Nat) :
    C.Worlds { w with nextBuffer := n } { w' with nextBuffer := n } :=
  ⟨congrArg (fun w : World => { w with nextBuffer := n }) hw.calm, hw.pace, hw.messages, hw.sent,
    hw.kept⟩

theorem setSent {sent : List (Term × Term)} (h : ∀ m ∈ sent, C.abroad m.1 ∧ C.abroad m.2) :
    C.Worlds { w with sent } { w' with sent } :=
  ⟨congrArg (fun w : World => { w with sent }) hw.calm, hw.pace, hw.messages, h, hw.kept⟩

end Worlds

end ErlangMachine.Machine.Coupling
