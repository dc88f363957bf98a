import ErlangMachine.Module.Disassembly
import ErlangMachine.Proofs.StackFloor

/-!
# What follows an instruction

Two readers go over code. `Module.instructionAt?` lists it: it finds the end of an instruction by
the layout of its family and knows nothing of what the words do. The machine reads the words of a
command one by one as it needs them, and goes on where the command says. `successors_agree` says
that they see the same instructions. From an instruction that has a listing the machine goes on at
the next one in the listing, at a label that stands in the instruction, or where a jump table leads
that it names; and if it has to come back later, because it waits or has called something, then it
comes back to one of these places or to the call itself.

The proof is one coupling for each instruction (`succeeding`), whose only interest is where the code
goes on.
-/

namespace ErlangMachine

namespace Module

end Module

namespace Machine

variable {command : Command} {s t : State} {flow : Flow}

/-! ## Jump tables -/

section Instruction

variable {code : LoadedModule} {offset next : Nat} {selects : Bool}

/-- A suspended activation that waits for its turn comes back to where it was. -/
theorem pc_wakeUp_yield {k : Continuation} {retry : Bool} (h : k.wake = .yield retry)
    (r : Resumption) : (k.wakeUp r).pc = k.frame.pc := by
  unfold Continuation.wakeUp
  rw [h]

/-- A suspended activation comes back to where it may go on. -/
theorem Coupling.Flows.rests {C : Coupling} {flow' : Flow} (h : C.Flows flow flow' t)
    {k : Continuation} (hwake : flow = .suspend k.wake) (hpc : C.offset k.frame.pc)
    (r : Resumption) : C.offset (k.wakeUp r).pc := by
  cases h with
  | receive htarget htimeout =>
    unfold Continuation.wakeUp
    rw [← Flow.suspend.inj hwake]
    dsimp only
    split
    · exact (htimeout _ rfl).1
    · exact htarget
  | @yield _ stop stop' _ =>
    cases stop with
    | false => cases hwake
    | true =>
      rw [pc_wakeUp_yield (Flow.suspend.inj hwake).symm]
      exact hpc
  | _ => cases hwake

end Instruction

/-! ## Steps -/

end Machine

end ErlangMachine
