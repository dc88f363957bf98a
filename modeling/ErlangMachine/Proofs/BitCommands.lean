import ErlangMachine.Proofs.Actions

/-!
# Bit string commands under a coupling

The commands that match and build bit strings keep states coupled. What they write is plain: bit
strings, cursors, integers, and floats that were found to be finite.
-/

namespace ErlangMachine.Machine.Coupling

open Exec

variable {C : Coupling} {linker : Linker} {code : LoadedModule} (laws : C.Laws linker code)

section Matching

include laws

/-- The cursor at a place. -/
theorem sim_cursor (place : Place) (operation : String) :
    C.Sim (Same fun _ => True) (cursor place operation) (cursor place operation) := by
  have hgrow (n : Nat) :
      C.Sim Done (modifyProcess (·.ensureRegisters n)) (modifyProcess (·.ensureRegisters n)) :=
    sim_modifyProcess (fun p hp => hp.ensureRegisters laws.good_nil n) fun _ => rfl
  cases place with
  | x n =>
    refine (hgrow (n + 1)).seq ((sim_read laws (.x n)).bindSame fun t _ => ?_)
    split
    · exact Sim.pure fun _ => ⟨rfl, trivial⟩
    · exact Sim.abort (laws.ordinary _ trivial)
  | y n =>
    refine (sim_read laws (.y n)).bindSame fun t _ => ?_
    split
    · exact Sim.pure fun _ => ⟨rfl, trivial⟩
    · exact Sim.abort (laws.ordinary _ trivial)

theorem sim_putCursor (place : Place) (c : BitString.Cursor) :
    C.Sim Done (putCursor place c) (putCursor place c) :=
  sim_write laws place (laws.good_cursor c)

/-- Going on with a moved cursor. -/
theorem sim_advance (place : Place) {label : Option Nat} (h : C.Label label)
    (c : Option BitString.Cursor) :
    C.Sim C.Flows (advance place label c) (advance place label c) := by
  cases c with
  | some c => exact (sim_putCursor laws place c).seq sim_next
  | none => exact sim_fail laws h

/-- Delivering what was read. -/
theorem sim_deliverRead (place dest : Place) {label : Option Nat} (h : C.Label label)
    {found : Option Term × BitString.Cursor} (hfound : ∀ t ∈ found.1, C.Good t) :
    C.Sim C.Flows (deliverRead place dest label found) (deliverRead place dest label found) :=
  (sim_putCursor laws place found.2).seq (sim_deliver laws dest h hfound)

/-- A constant that is a bit string. -/
theorem sim_literalBits {index : Nat} (h : C.constant index) :
    C.Sim (Same fun _ => True) (literalBits code index) (literalBits code index) := by
  refine (sim_source laws fun i hi => ?_).bindSame fun t _ => ?_
  · obtain rfl : index = i := Source.constant.inj hi
    exact h
  · split
    · exact Sim.pure fun _ => ⟨rfl, trivial⟩
    · exact Sim.abort (laws.ordinary _ trivial)

/-- A float that a cursor reads is finite. -/
theorem Laws.leaf_takeFloat {c : BitString.Cursor} {n : Nat} {encoding : Encoding} {x : Binary64}
    (h : (c.takeFloat n encoding).1 = some x) : C.leaf (.float x) := by
  unfold BitString.Cursor.takeFloat at h
  split at h
  · split at h
    · -- How the value was made from the raw bits does not matter, only that it was found finite.
      rename_i raw after _
      generalize (if n = 32 then Binary64.ofSingleBits raw.toInt.toNat
        else ⟨UInt64.ofNat raw.toInt.toNat⟩) = value at h
      by_cases hvalue : value.isFinite = true
      · rw [if_pos hvalue] at h
        cases h
        exact laws.finite _ hvalue
      · rw [if_neg hvalue] at h
        cases h
    · cases h
  · cases h

/-- A segment that was read is good. -/
theorem good_takeSegment {type : SegmentType} {c : BitString.Cursor} {size : SegmentSize}
    {unit : Nat} {encoding : Encoding} :
    ∀ t ∈ (takeSegment type c size unit encoding).1, C.Good t := by
  intro t ht
  unfold takeSegment at ht
  split at ht
  · obtain ⟨i, _, rfl⟩ := Option.map_eq_some_iff.1 ht
    exact laws.good_integer i
  · obtain ⟨x, hx, rfl⟩ := Option.map_eq_some_iff.1 ht
    exact laws.leaf_takeFloat hx
  · obtain ⟨b, _, rfl⟩ := Option.map_eq_some_iff.1 ht
    exact laws.good_bits b
  · cases ht

end Matching

variable (C) in
/-- A matching command whose operands the coupling allows. -/
def FitsMatch : MatchCommand → Prop
  | .start label _ _ => C.Label label
  | .get _ _ _ _ _ label => C.Label label
  | .skip _ _ label => C.Label label
  | .testTail _ _ label => C.Label label
  | .testUnit _ _ label => C.Label label
  | .literal _ constant label => C.constant constant ∧ C.Label label
  | .getUtf _ _ _ _ label => C.Label label
  | .skipUtf _ _ _ label => C.Label label
  | .save _ _ => True
  | .restore _ _ => True
  | .toBits _ => True

include laws in
/-- A matching command keeps states coupled. -/
theorem sim_matchCommand {command : MatchCommand} (h : C.FitsMatch command) :
    C.Sim C.Flows (command.run code) (command.run code) := by
  cases command with
  | start label slots dest =>
    refine (sim_takeFirst laws).bindSame fun t _ => sim_deliver laws dest h ?_
    intro u hu
    obtain ⟨c, _, rfl⟩ := Option.map_eq_some_iff.1 hu
    exact laws.good_cursor c
  | get type place unit encoding dest label =>
    refine (sim_takeFirst laws).bindSame fun t _ => ?_
    split
    · exact sim_fail laws h
    · exact (sim_cursor laws place _).bindSame fun c _ =>
        sim_deliverRead laws place dest h (good_takeSegment laws)
  | skip place unit label =>
    refine (sim_takeFirst laws).bindSame fun t _ => ?_
    split
    · exact sim_fail laws h
    · exact (sim_cursor laws place _).bindSame fun c _ => sim_advance laws place h _
  | testTail place size label | testUnit place unit label =>
    exact (sim_cursor laws place _).bindSame fun c _ => sim_branch laws _ h
  | literal place index label =>
    exact (sim_literalBits laws h.1).bindSame fun expected _ =>
      (sim_cursor laws place _).bindSame fun c _ => sim_advance laws place h.2 _
  | getUtf form place encoding dest label =>
    refine (sim_cursor laws place _).bindSame fun c _ => sim_deliverRead laws place dest h ?_
    intro t ht
    obtain ⟨char, _, rfl⟩ := Option.map_eq_some_iff.1 ht
    exact laws.good_integer _
  | skipUtf form place encoding label =>
    exact (sim_cursor laws place _).bindSame fun c _ =>
      (sim_putCursor laws place _).seq (sim_branch laws _ h)
  | save place slot | restore place slot =>
    refine (sim_cursor laws place _).bindSame fun c _ => ?_
    split
    · exact sim_advance laws place label_none _
    · exact Sim.abort (laws.ordinary _ trivial)
  | toBits place =>
    refine (sim_read laws place).bindSame fun t _ => ?_
    split
    · exact (sim_write laws place (laws.good_bits _)).seq sim_next
    · exact sim_next

/-! ## Building -/

/-- Coupled states see the same owners of a buffer. -/
theorem Related.ownership {s s' : State} (hs : C.Related s s') {callers callers' : List Caller}
    (hcallers : callers.flatMap Caller.terms = callers'.flatMap Caller.terms) (b : BitString) :
    s.ownership callers b = s'.ownership callers' b := by
  have hworld : s.world.terms = s'.world.terms := hs.world.congr World.terms fun _ => rfl
  have hframe : s.frame.terms = s'.frame.terms :=
    Frame.congr_of_calm hs.frame Frame.terms fun _ => rfl
  have hterms : s.terms callers = s'.terms callers' := by
    unfold State.terms
    rw [hworld, hs.process, hframe, hcallers]
  unfold State.ownership
  rw [hterms]

/-- The bit string under construction. -/
theorem sim_builder (laws : C.Laws linker code) (operation : String) :
    C.Sim (Same fun _ => True) (builder operation) (builder operation) := by
  refine sim_frame.bind fun f f' _ hf => ?_
  have hbits : f.bits = f'.bits := Frame.congr_of_calm hf.1 Frame.bits fun _ => rfl
  rw [← hbits]
  cases f.bits with
  | some b => exact Sim.pure fun _ => ⟨rfl, trivial⟩
  | none => exact Sim.abort (laws.ordinary _ trivial)

section Building

include laws

/-- Writing a bit string in a buffer of its own. -/
theorem sim_writeBits (dest : Place) (b : BitString) :
    C.Sim Done (writeBits dest b) (writeBits dest b) := by
  refine Sim.get.bind fun s s' _ hs => ?_
  have hnext : s.world.nextBuffer = s'.world.nextBuffer :=
    hs.world.congr World.nextBuffer fun _ => rfl
  rw [← hnext]
  exact (sim_modifyWorld fun w w' hw => hw.setNextBuffer _).seq
    (sim_write laws dest (laws.good_bits _))

/-- Going on with a builder. -/
theorem sim_publish (b : BitString.Builder) (dest : Place) :
    C.Sim C.Flows (publish b dest) (publish b dest) := by
  unfold publish
  split
  · exact (sim_setBits none).seq ((sim_writeBits laws dest _).seq sim_next)
  · exact (sim_setBits (some (b, dest))).seq sim_next

theorem sim_openBuilder (b : BitString.Builder) (dest : Place) :
    C.Sim C.Flows (openBuilder b dest) (openBuilder b dest) :=
  (sim_writeBits laws dest _).seq (sim_publish laws b dest)

/-- Going on with what a builder has become. -/
theorem sim_extend (dest : Place) {label : Option Nat} (h : C.Label label)
    (b : Option BitString.Builder) :
    C.Sim C.Flows (extend dest label b) (extend dest label b) := by
  cases b with
  | some b => exact sim_publish laws b dest
  | none => exact sim_fail laws h

end Building

variable (C) in
/-- A building command whose operands the coupling allows. -/
def FitsBuild : BuildCommand → Prop
  | .init _ _ label => C.Label label
  | .initWritable => True
  | .append _ _ label => C.Label label
  | .put _ _ _ label => C.Label label
  | .putLiteral constant => C.constant constant
  | .putUtf _ _ label => C.Label label
  | .utf8Size _ label => C.Label label
  | .utf16Size _ label => C.Label label
  | .add _ _ label => C.Label label

include laws in
/-- A building command keeps states coupled. -/
theorem sim_buildCommand {callers callers' : List Caller}
    (hcallers : callers.flatMap Caller.terms = callers'.flatMap Caller.terms)
    {command : BuildCommand} (h : C.FitsBuild command) :
    C.Sim C.Flows (command.run code callers) (command.run code callers') := by
  cases command with
  | init unit dest label =>
    refine (sim_takeFirst laws).bindSame fun t _ => ?_
    split
    · exact sim_openBuilder laws _ dest
    · exact sim_fail laws h
  | initWritable => exact (sim_writeBits laws _ _).seq sim_next
  | append unit dest label =>
    refine (sim_takeFirst laws).bindSame fun extra _ =>
      (sim_takeSecond laws).bindSame fun existing _ => ?_
    split
    · split
      · -- Whether the buffer can be extended in place depends on who else holds it.
        refine Sim.get.bind fun s s' _ hs => ?_
        rw [← hs.ownership hcallers]
        exact sim_openBuilder laws _ dest
      · exact sim_fail laws h
    · exact sim_fail laws h
  | put type unit encoding label =>
    refine (sim_takeFirst laws).bindSame fun size _ =>
      (sim_takeSecond laws).bindSame fun value _ => ?_
    split
    · exact sim_fail laws h
    · exact (sim_builder laws _).bindSame fun b _ => sim_extend laws _ h _
  | putLiteral index =>
    exact (sim_literalBits laws h).bindSame fun literal _ =>
      (sim_builder laws _).bindSame fun b _ => sim_extend laws _ label_none _
  | putUtf form encoding label =>
    refine (sim_takeFirst laws).bindSame fun t _ => ?_
    split
    · exact sim_fail laws h
    · exact (sim_builder laws _).bindSame fun b _ => sim_extend laws _ h _
  | utf8Size dest label | utf16Size dest label =>
    refine (sim_takeFirst laws).bindSame fun t _ => sim_deliver laws dest h ?_
    intro u hu
    obtain ⟨n, _, rfl⟩ := Option.map_eq_some_iff.1 hu
    exact laws.good_integer _
  | add unit dest label =>
    refine (sim_takeFirst laws).bindSame fun a _ => (sim_takeSecond laws).bindSame fun b _ =>
      sim_deliver laws dest h ?_
    intro u hu
    -- Whatever the sum is, it is an integer.
    obtain ⟨m, _, hu⟩ := Option.bind_eq_some_iff.1 hu
    obtain ⟨n, _, hu⟩ := Option.bind_eq_some_iff.1 hu
    dsimp only at hu
    split at hu
    · cases hu
      exact laws.good_integer _
    · cases hu

end ErlangMachine.Machine.Coupling
