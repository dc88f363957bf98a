import ErlangMachine.Proofs.Emission
import ErlangMachine.Proofs.Sites

/-!
# Positions in tuples

The elements of a tuple are counted as they are assembled, and each position is written into one
word of the code. Nothing in an instruction bounds the count: it goes on from one `put` to the next,
with a `put_tuple` before them or without. What bounds it is the size of the code. An element takes
four words, the count begins anew with each function, and an instruction after which the code is too
large ends its function (`Counted`). So a position never comes near the last one that a word can
hold, whatever the assembler has taken or refused before (`increment_fits`).
-/

namespace ErlangMachine

/-- An instruction counts one element at most, and takes four words for it. -/
theorem Operation.four_mul_advance_le {op : Operation} {shape : Shape}
    (h : op.shape? = some shape) (p : Nat) :
    shape.advance p ≤ p + 1 ∧ 4 * shape.advance p ≤ 4 * p + shape.width := by
  cases op
  case put =>
    cases h
    exact ⟨Nat.le_refl _, Nat.le_refl _⟩
  all_goals
    cases h
    try exact ⟨Nat.le_succ p, Nat.le_add_right _ _⟩

/-- No field counts backwards. -/
theorem OperandUse.le_foldl_advance (uses : List OperandUse) (p : Nat) :
    p ≤ uses.foldl advance p := by
  induction uses generalizing p with
  | nil => exact Nat.le_refl p
  | cons use uses ih =>
    have hfirst : p ≤ use.advance p := by
      cases use with
      | position => exact Nat.le_succ p
      | _ => exact Nat.le_refl p
    exact hfirst.trans (ih (use.advance p))

namespace Assembler

/-- An assembler that has counted no more elements than there is code for. The code itself may be
too large already, since labels are noted without a look at its size. -/
structure Counted (a : Assembler) : Prop where
  /-- Each element has taken four words. -/
  size : 4 * a.tuplePosition ≤ a.code.size
  /-- The last one has not made the code too large. -/
  limit : 4 * a.tuplePosition < codeLimit

/-- An operation begins no further than the one before has come. -/
theorem startsAt_le (op : Operation) (p : Nat) : op.startsAt p ≤ p := by
  unfold Operation.startsAt
  split
  · exact Nat.zero_le p
  · exact Nat.le_refl p

/-- An instruction that is taken keeps the count within the code. -/
theorem Counted.emitted {i : Instruction} {a a' : Assembler} (h : a.Counted)
    (hemitted : Emitted i a a') : a'.Counted := by
  have hsize := h.size
  cases hemitted with
  | remark => exact h
  | label => exact ⟨h.size, h.limit⟩
  | @entry n k =>
    refine ⟨?_, h.limit⟩
    show 4 * a.tuplePosition ≤ ((a.code.push k).push 0).size
    rw [Array.size_push, Array.size_push]
    omega
  | @block shape block _ hadded hlimit =>
    have hstart := startsAt_le i.operation a.tuplePosition
    have hfour := (Operation.four_mul_advance_le hadded.shape_eq
      (i.operation.startsAt a.tuplePosition)).2
    have hgrown := hadded.moved.size
    rw [hadded.coded.length_eq] at hgrown
    rw [← hadded.position] at hfour
    exact ⟨by omega, by omega⟩

/-- Instructions that are taken one after another keep the count within the code. -/
theorem Counted.forM {body : List Instruction} {a a' : Assembler} (h : a.Counted)
    (hrun : body.forM instruction a = .ok () a') : a'.Counted := by
  have hruns : Runs (body.forM instruction) a (fun _ => Counted) fun _ _ => True :=
    .forM (fun i b hb => (runs_emitted_or_refused i b).mono (fun _ _ => hb.emitted)
      fun _ _ _ => trivial) body h
  exact hruns.of_ok hrun

/-- In a function, the assembler comes to count the next element of a tuple for an instruction: it
has taken the instructions before it, and the fields of the instruction before the position. -/
def Counts (a : Assembler) (f : LocalName) (entry : UInt32) (i : Instruction) (l : Layout)
    (c : Assembler) : Prop :=
  ∃ (done : List Instruction) (b : Assembler) (shape : Shape) (before after : List OperandUse),
    done.forM instruction (a.opened f entry) = .ok () b ∧
    i.operation.shape? = some shape ∧ shape.fields = before ++ .position :: after ∧
    before.foldlM (field i) .empty (b.starting i.operation) = .ok l c

/-- Whatever an assembler has taken or refused before, and however many elements there are in a
function, the next one is counted without going beyond what a word can hold. -/
theorem increment_fits {a c : Assembler} {f : LocalName} {entry : UInt32} {i : Instruction}
    {l : Layout} (h : a.Counts f entry i l c) :
    c.tuplePosition < 16384 ∧
      field i l .position c = .ok (l.addRaw (UInt16.ofNat c.tuplePosition + 1))
        { c with tuplePosition := c.tuplePosition + 1 } ∧
      (UInt16.ofNat c.tuplePosition + 1).toNat = c.tuplePosition + 1 := by
  obtain ⟨done, b, shape, before, after, hdone, hshape, hfields, hbefore⟩ := h
  have hopened : (a.opened f entry).Counted :=
    ⟨Nat.zero_le _, (by decide : 4 * 0 < codeLimit)⟩
  have hcounted := hopened.forM hdone
  -- The fields before the position do not count, since an instruction has one position at most.
  have hpools : Pools (before.foldlM (field i) .empty) (b.starting i.operation)
      (Lays False i (i.operation.startsAt b.tuplePosition) before .empty)
      fun e c => ∃ use ∈ before, Unfit i use e c := by
    have htwo := Operation.countP_isSource_le hshape
    rw [hfields, List.countP_append] at htwo
    exact pools_fields False.elim .empty before (by show 0 + _ ≤ 2; omega)
  obtain ⟨-, -, -, -, -, -, hposition⟩ := hpools.of_ok hbefore
  have hadvance := (Operation.four_mul_advance_le hshape (i.operation.startsAt b.tuplePosition)).1
  have hafter := OperandUse.le_foldl_advance after (c.tuplePosition + 1)
  have hstart := startsAt_le i.operation b.tuplePosition
  have hlimit : 4 * b.tuplePosition < 65535 := hcounted.limit
  have hall : shape.advance (i.operation.startsAt b.tuplePosition) =
      after.foldl OperandUse.advance (c.tuplePosition + 1) := by
    rw [Shape.advance, hfields, List.foldl_append, hposition]
    rfl
  have hlt : c.tuplePosition < 16384 := by omega
  have hword : UInt16.ofNat (c.tuplePosition + 1) = UInt16.ofNat c.tuplePosition + 1 :=
    UInt16.ofNat_add _ _
  refine ⟨hlt, ?_, ?_⟩
  · rw [← hword]
    rfl
  · rw [← hword]
    exact UInt16.toNat_ofNat_of_lt' (by show c.tuplePosition + 1 < 65536; omega)

/-- An assembler that has refused a function because of an element without an operand. It keeps the
words and the count of the element before. -/
def miscounted : Assembler :=
  { ofName "m" with
    code := #[192, 0, 182, 0, 28, 1]
    constants := #[.nil]
    labels := [(1, 0)]
    entryLabel := some 1
    capacityAt := some 1
    tuplePosition := 1 }

/-- The assembler after a tuple of three elements has been given two of them in another function. -/
def counting : Assembler :=
  { miscounted with
    code := #[192, 0, 182, 0, 28, 1, 192, 0, 26, 3, 3, 180, 0, 28, 1, 182, 1, 28, 2]
    constants := #[.nil, .atom "a"]
    labels := [(2, 6), (1, 0)]
    entryLabel := some 2
    capacityAt := some 7
    registers := 4
    tuplePosition := 2 }

/-- The third element of a tuple is counted after two others, by an assembler that has refused a
function before. -/
theorem increment_fits_third :
    function ⟨"g", 0⟩ 1 [⟨.label, [.int 1]⟩, ⟨.put, [.nil]⟩, ⟨.put, []⟩] (ofName "m") =
      .error (.wrongArity .put 0) miscounted ∧
    ∃ l c, miscounted.Counts ⟨"f", 3⟩ 2 ⟨.put, [.x 2]⟩ l c ∧ c.tuplePosition = 2 ∧
      (UInt16.ofNat c.tuplePosition + 1).toNat = 3 := by
  have hdone : [⟨.label, [.int 2]⟩, ⟨.putTuple, [.int 3, .x 3]⟩, ⟨.put, [.x 0]⟩,
      ⟨.put, [.atom "a"]⟩].forM instruction (miscounted.opened ⟨"f", 3⟩ 2) = .ok () counting := by
    with_unfolding_all rfl
  have hcounts : miscounted.Counts ⟨"f", 3⟩ 2 ⟨.put, [.x 2]⟩ (Layout.empty.addSource (.x, 2))
      counting :=
    ⟨_, _, _, [.source 0], [], hdone, rfl, rfl, rfl⟩
  exact ⟨by with_unfolding_all rfl, _, _, hcounts, rfl, (increment_fits hcounts).2.2⟩

end Assembler

end ErlangMachine
