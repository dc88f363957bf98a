import ErlangMachine.BitString.Builder
import ErlangMachine.Linker
import ErlangMachine.Machine.Command
import ErlangMachine.Machine.Process
import ErlangMachine.Term.Buffers

/-!
# Activations

An activation is a running function. Its frame is what it has beyond the registers and the stack.
Commands run in `Exec`, which keeps all changes made before a fault or an error.
-/

namespace ErlangMachine.Machine

open BitString (Builder)

/-- A tuple under construction. -/
structure TupleDraft where
  /-- Where the tuple goes when it is complete. -/
  dest : Place
  /-- The number of elements that it will have. -/
  arity : Nat
  /-- The elements so far. -/
  elements : Array Term
  deriving Inhabited

/-- The state of an activation. -/
structure Frame where
  /-- The module whose code runs. -/
  code : ModuleRef
  /-- The offset to go on at. -/
  pc : Nat
  /-- The offset of the command that runs. -/
  lastPc : Nat
  /-- The depth of the stack on entry, and again on exit. -/
  base : Nat
  /-- The handlers in force, innermost first. -/
  handlers : List Handler := []
  /-- The tuple under construction. -/
  tuple : Option TupleDraft := none
  /-- The bit string under construction, and where it goes. -/
  bits : Option (Builder × Place) := none
  /-- The sources read by the last prefetch command. -/
  fetched : Term × Term := (.nil, .nil)
  /-- Whether the next call goes ahead without a check for preemption. -/
  skipYield : Bool := false
  deriving Inhabited

/-- The frame of an activation that begins. -/
def Frame.enter (code : ModuleRef) (entry base : Nat) : Frame :=
  { code, pc := entry, lastPc := entry, base }

/-- The terms of a frame. -/
def Frame.terms (f : Frame) : List Term :=
  f.fetched.1 :: f.fetched.2 :: f.tuple.elim [] (·.elements.toList)

/-- An activation that waits for a call. -/
structure Caller where
  /-- Its frame. -/
  frame : Frame
  /-- Its registers. -/
  registers : Array Term
  deriving Inhabited

/-- The terms of a waiting activation. -/
def Caller.terms (c : Caller) : List Term := c.frame.terms ++ c.registers.toList

/-- A process in its world. -/
structure Host where
  /-- The world. -/
  world : World := {}
  /-- The process. -/
  process : Process := {}
  deriving Inhabited

/-- What commands work on. -/
structure State extends Host where
  /-- The running activation. -/
  frame : Frame
  deriving Inhabited

/-- All terms that there are while an activation runs, apart from the constants of modules. -/
def State.terms (s : State) (callers : List Caller) : List Term :=
  s.world.terms ++ s.process.terms ++ s.frame.terms ++ callers.flatMap Caller.terms

/-- Why a command does not end as it should. -/
inductive Stop where
  /-- The program raises a fault. -/
  | fault (fault : Fault)
  /-- The machine gives up. -/
  | broken (error : Error)

/-- What a suspended activation waits for. -/
inductive Wake where
  /-- Its turn. A call that was held up runs again when `retry` is set. -/
  | yield (retry : Bool)
  /-- A message, and perhaps the end of a time, with the offset to go on at then. -/
  | receive (onMessage : Nat) (timeout : Option (Nat × Term))
  deriving Inhabited

/-- How it goes on after a command. -/
inductive Flow where
  /-- With the next command. -/
  | next
  /-- The activation ends with a result. -/
  | leave (value : Term)
  /-- The activation waits for a call. -/
  | call (target : Callable) (arguments : List Term)
  /-- The activation ends with a call. -/
  | tailCall (target : Callable) (arguments : List Term)
  /-- The activation waits for something. -/
  | suspend (wake : Wake)
  deriving Inhabited

/-- The commands' effects. -/
abbrev Exec := EStateM Stop State

namespace Exec

/-- Raises a fault. -/
def raise {α : Type} (fault : Fault) : Exec α := throw (.fault fault)

/-- Gives up. -/
def abort {α : Type} (error : Error) : Exec α := throw (.broken error)

/-- The value, or a fault. -/
def liftFault {α : Type} : Except Fault α → Exec α
  | .ok a => return a
  | .error fault => raise fault

/-- The value, or an error. -/
def liftError {α : Type} : Except Error α → Exec α
  | .ok a => return a
  | .error e => abort e

/-- The entry of a table. -/
def entry {α : Type} (table : String) (index : Nat) : Option α → Exec α
  | some a => return a
  | none => abort (.missingEntry table index)

/-- Changes the process. -/
def modifyProcess (f : Process → Process) : Exec Unit :=
  modify fun s => { s with process := f s.process }

/-- Changes the frame. -/
def modifyFrame (f : Frame → Frame) : Exec Unit := modify fun s => { s with frame := f s.frame }

/-- Changes the world. -/
def modifyWorld (f : World → World) : Exec Unit := modify fun s => { s with world := f s.world }

/-- The process. -/
def process : Exec Process := return (← get).process

/-- The frame. -/
def frame : Exec Frame := return (← get).frame

/-! ## Reading and writing -/

/-- Makes sure that the activation has a stack slot: the slots of its callers are out of reach. -/
def checkSlot (n : Nat) : Exec Unit := do
  let s ← get
  let depth := s.process.depth - s.frame.base
  if depth ≤ n then abort (.badStackSlot n depth)

/-- The term at a place. -/
def read : Place → Exec Term
  | .x n => return (← process).x n
  | .y n => do
    checkSlot n
    liftError ((← process).y n)

/-- Writes a term to a place. -/
def write (place : Place) (t : Term) : Exec Unit :=
  match place with
  | .x n => modifyProcess (·.setX n t)
  | .y n => do
    checkSlot n
    let p ← liftError ((← process).setY n t)
    modifyProcess fun _ => p

/-- The term that a source stands for. -/
def source (code : LoadedModule) : Source → Exec Term
  | .place place => read place
  | .constant i => entry "constant" i code.module.constants[i]?
  | .float n => return .float ((← process).fr n)

/-- Takes the first prefetched source. -/
def takeFirst : Exec Term := do
  let fetched := (← frame).fetched
  modifyFrame fun f => { f with fetched := (.nil, fetched.2) }
  return fetched.1

/-- Takes the second prefetched source. -/
def takeSecond : Exec Term := do
  let fetched := (← frame).fetched
  modifyFrame fun f => { f with fetched := (fetched.1, .nil) }
  return fetched.2

/-! ## Control -/

/-- Goes on at an offset. -/
def goto (pc : Nat) : Exec Flow := do
  modifyFrame fun f => { f with pc }
  return .next

/-- Goes on at the fail label; without one the failure is an argument error. -/
def fail : Option Nat → Exec Flow
  | some target => goto target
  | none => raise .badarg

/-- Goes on with the next command if a test holds, at the fail label otherwise. -/
def branch (passed : Bool) (label : Option Nat) : Exec Flow :=
  if passed then return .next else fail label

/-- Writes a result if there is one, and fails otherwise. -/
def deliver (dest : Place) (label : Option Nat) : Option Term → Exec Flow
  | some t => do
    write dest t
    return .next
  | none => fail label

/-- Makes sure that the stack is as it was on entry. -/
def checkBalance : Exec Unit := do
  let s ← get
  if s.process.depth ≠ s.frame.base then abort (.stackImbalance s.frame.base s.process.depth)

/-- Gives back `n` stack slots of the activation. -/
def release (n : Nat) : Exec Unit := do
  let s ← get
  let found := s.process.depth
  if found < s.frame.base then abort (.stackBelowBase s.frame.base found)
  if found - s.frame.base < n then abort (.stackImbalance (s.frame.base + n) found)
  modifyProcess (·.release n)

end Exec

end ErlangMachine.Machine
