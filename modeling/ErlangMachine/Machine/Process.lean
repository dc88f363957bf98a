import ErlangMachine.Fault

/-!
# Processes

A process owns the registers of the running activation, the stack that all activations of a call
chain share, the float registers, and the fault that a handler received last.
-/

namespace ErlangMachine.Machine

/-- A cause for the machine to give up, as opposed to a fault of the program that it runs. -/
inductive Error where
  /-- A word that is no opcode. -/
  | unimplementedOpcode (opcode : UInt16) (pc : Nat)
  /-- The code goes on where there is none. -/
  | badJump (pc origin : Nat)
  /-- An activation does not leave the stack as it found it. -/
  | stackImbalance (expected found : Nat)
  /-- A stack slot that the activation does not have. -/
  | badStackSlot (slot depth : Nat)
  /-- A tuple element without a tuple to put it in. -/
  | noTuple (operation : String)
  /-- A segment without a bit string to put it in. -/
  | noBinary (operation : String)
  /-- A match without a bit string that is being matched. -/
  | noMatchContext (operation : String)
  /-- The end of a protected region that was not begun. -/
  | noCatchTag (slot : Nat)
  /-- A saved position that a cursor does not have. -/
  | badSaveSlot (slot : Int)
  /-- A word that refers to an entry that a table does not have. -/
  | missingEntry (table : String) (index : Nat)
  /-- A stack that has sunk below the part that the activation began with. -/
  | stackBelowBase (base found : Nat)
  deriving DecidableEq, Repr

/-- What there is to say about an error. -/
def Error.message : Error → String
  | unimplementedOpcode opcode pc =>
    "unimplemented internal opcode " ++ toString opcode.toNat ++ " at " ++ toString pc
  | badJump pc origin => "bad jump to " ++ toString pc ++ " (from " ++ toString origin ++ ")"
  | stackImbalance expected found =>
    "stack depth " ++ toString found ++ " at return differs from depth " ++ toString expected ++
      " at entry"
  | badStackSlot slot depth =>
    "stack slot y" ++ toString slot ++ " is outside the current stack of depth " ++ toString depth
  | noTuple operation => operation ++ " without a tuple under construction"
  | noBinary operation => operation ++ " without a binary under construction"
  | noMatchContext operation => operation ++ " applied to a slot that holds no match context"
  | noCatchTag slot =>
    "end of a catch region whose slot y" ++ toString slot ++ " holds no catch tag"
  | badSaveSlot slot => "match context has no save slot " ++ toString slot
  | missingEntry table index => "no " ++ table ++ " " ++ toString index
  | stackBelowBase base found =>
    "stack depth " ++ toString found ++ " is below the depth " ++ toString base ++ " at entry"

/-- The data of running code. -/
structure Process where
  /-- The registers of the running activation. -/
  registers : Array Term := #[]
  /-- The stack, top first. -/
  stack : List Term := []
  /-- The float registers. -/
  floats : Array Binary64 := #[]
  /-- The fault that a handler received last. -/
  lastFault : Option Fault := none
  deriving Inhabited

namespace Process

/-! ## Registers -/

/-- A register; one that was never written holds the empty list. -/
def x (p : Process) (n : Nat) : Term := p.registers.getD n .nil

/-- Gives the process at least `n` registers. -/
def ensureRegisters (p : Process) (n : Nat) : Process :=
  { p with registers := p.registers ++ Array.replicate (n - p.registers.size) .nil }

/-- Writes a register. -/
def setX (p : Process) (n : Nat) (t : Term) : Process :=
  let p := p.ensureRegisters (n + 1)
  { p with registers := p.registers.setIfInBounds n t }

/-- The first `n` registers. -/
def arguments (p : Process) (n : Nat) : List Term := (List.range n).map p.x

/-! ## Stack -/

/-- The number of stack slots. -/
def depth (p : Process) : Nat := p.stack.length

/-- A stack slot, counted from the top. -/
def y (p : Process) (n : Nat) : Except Error Term :=
  match p.stack[n]? with
  | some t => .ok t
  | none => .error (.badStackSlot n p.depth)

/-- Writes a stack slot. -/
def setY (p : Process) (n : Nat) (t : Term) : Except Error Process :=
  if n < p.depth then .ok { p with stack := p.stack.set n t }
  else .error (.badStackSlot n p.depth)

/-- Adds `n` empty slots on top. -/
def allocate (p : Process) (n : Nat) : Process :=
  { p with stack := List.replicate n .nil ++ p.stack }

/-- Removes `n` slots from the top. -/
def release (p : Process) (n : Nat) : Process := { p with stack := p.stack.drop n }

/-- Removes the slots above a depth. -/
def truncate (p : Process) (depth : Nat) : Process := p.release (p.depth - depth)

/-- The terms of a process. -/
def terms (p : Process) : List Term :=
  p.registers.toList ++ p.stack ++ p.lastFault.elim [] Fault.terms

/-! ## Float registers -/

/-- A float register; one that was never written holds zero. -/
def fr (p : Process) (n : Nat) : Binary64 := p.floats.getD n (.zero false)

/-- Writes a float register. -/
def setFr (p : Process) (n : Nat) (v : Binary64) : Process :=
  let floats := p.floats ++ Array.replicate (n + 1 - p.floats.size) (.zero false)
  { p with floats := floats.setIfInBounds n v }

end Process

end ErlangMachine.Machine
