import ErlangMachine.Machine.Building

/-!
# Running commands

`Command.run` says what each command does to the state, and `execute` reads the command at the
program counter and runs it.
-/

namespace ErlangMachine.Machine

/-- The function whose code holds an offset, as traces name it. -/
def location? (code : LoadedModule) (pc : Nat) : Option Term :=
  (code.module.functionAt? pc).map (Fault.location code.module.name)

/-- The fault to raise again. If its reason is that of the fault that a handler received last, its
class and trace are that fault's, without the function that raises it again, which will be added
once more. -/
def reraise (last : Option Fault) (reason : Term) (here : Option Term) : Fault :=
  match last with
  | some last =>
    if last.reason.exactEq reason then
      let again := match here, last.trace.getLast? with
        | some here, some place => here.exactEq place
        | _, _ => false
      ⟨last.kind, reason, if again then last.trace.dropLast else last.trace⟩
    else .error reason
  | none => .error reason

/-- What a function value calls. -/
def functionTarget (linker : Linker) (function : Term) (arguments : List Term) :
    Except Fault Callable :=
  match function with
  | .closure code entry arity environment =>
    if arity = arguments.length then .ok (.code code entry arity environment)
    else .error (.badarity function arguments)
  | .external id =>
    if id.arity = arguments.length then Fault.require (linker.resolve? id) .undefined
    else .error (.badarity function arguments)
  | _ => .error (.badfun function)

namespace Exec

/-- Calls a native by its import. Only a native can be called this way. -/
def callNative (code : LoadedModule) (index : Nat) (arguments : List Term) :
    Exec (Except Fault Term) := do
  match code.binding? index with
  | some (.native _ native) =>
    let (result, world) := native arguments (← get).world
    modifyWorld fun _ => world
    return result
  | _ => return .error .undefined

/-- What a callee stands for, and its arguments. -/
def callee (linker : Linker) (code : LoadedModule) (c : Callee) :
    Exec (Callable × List Term) := do
  let p ← process
  match c with
  | .offset arity target => return (.code (← frame).code target arity [], p.arguments arity)
  | .imported arity index =>
    return (← liftFault (Fault.require (code.binding? index) .undefined), p.arguments arity)
  | .named arity =>
    match (p.x arity).atom?, (p.x (arity + 1)).atom? with
    | some module, some function =>
      let target := linker.resolve? ⟨module, function, arity⟩
      return (← liftFault (Fault.require target .undefined), p.arguments arity)
    | _, _ => raise .badarg
  | .value arity =>
    let arguments := p.arguments arity
    return (← liftFault (functionTarget linker (p.x arity) arguments), arguments)

/-- Takes note of a check for preemption and tells whether the code has to stop. -/
def checkYield : Exec Bool := do
  let (stop, world) := (← get).world.checkYield
  modifyWorld fun _ => world
  return stop

/-- Whether a call has to wait for the next turn. A call that has waited goes ahead. -/
def mustYield : Exec Bool := do
  if (← frame).skipYield then
    modifyFrame fun f => { f with skipYield := false }
    return false
  else checkYield

end Exec

namespace Command

open Exec

/-- What a command does. -/
def run (linker : Linker) (code : LoadedModule) (callers : List Caller) : Command → Exec Flow
  | fetch first none => do
    let first ← source code first
    modifyFrame fun f => { f with fetched := (first, f.fetched.2) }
    return .next
  | fetch first (some second) => do
    let first ← source code first
    let second ← source code second
    modifyFrame fun f => { f with fetched := (first, second) }
    return .next
  | ensureRegisters n => do
    modifyProcess (·.ensureRegisters n)
    return .next
  | ret => do
    checkBalance
    return .leave ((← process).x 0)
  | jump target => goto target
  | functionClause => Exec.raise .functionClause
  | ifEnd => Exec.raise .ifClause
  | badmatch => do Exec.raise (.badmatch (← takeFirst))
  | caseEnd => do Exec.raise (.caseClause (← takeFirst))
  | tryCaseEnd => do Exec.raise (.tryClause (← takeFirst))
  | allocate n => do
    modifyProcess (·.allocate n)
    return .next
  | release n => do
    Exec.release n
    return .next
  | init dest => do
    write dest .nil
    return .next
  | move dest => do
    write dest (← takeFirst)
    return .next
  | putList dest => do
    let head ← takeFirst
    write dest (.cons head (← takeSecond))
    return .next
  | getList headPlace tailPlace => do
    match ← takeFirst with
    | .cons head tail =>
      write headPlace head
      write tailPlace tail
      return .next
    | _ => Exec.raise .badarg
  | getElement index dest => do
    let elements := (← takeFirst).tuple?.getD []
    deliver dest none elements[index]?
  | beginTuple arity dest => do
    if arity = 0 then write dest (.tuple [])
    else modifyFrame fun f => { f with tuple := some ⟨dest, arity, #[]⟩ }
    return .next
  | putElement position => do
    let value ← takeFirst
    match (← frame).tuple with
    | none => abort (.noTuple "put")
    | some draft =>
      if position ≠ draft.elements.size + 1 then abort (.noTuple "put out of order")
      let elements := draft.elements.push value
      if elements.size = draft.arity then
        modifyFrame fun f => { f with tuple := none }
        write draft.dest (.tuple elements.toList)
      else
        modifyFrame fun f => { f with tuple := some { draft with elements } }
      return .next
  | setElement place index => do
    let value ← takeFirst
    match ← read place with
    | .tuple elements =>
      if index < elements.length then
        write place (.tuple (elements.set index value))
        return .next
      else Exec.raise .badarg
    | _ => Exec.raise .badarg
  | typeTest test label => do branch (test.holds (← takeFirst)) label
  | testArity label arity => do
    branch ((← takeFirst).tuple?.any fun elements => elements.length = arity) label
  | testFunctionArity label => do
    let function ← takeFirst
    let arity ← takeSecond
    branch (function.functionArity?.any fun n => arity.size? = some n) label
  | compare comparison label => do
    let a ← takeFirst
    branch (comparison.holds a (← takeSecond)) label
  | selectValue default index => do
    let value ← takeFirst
    let table ← entry "value table" index code.module.valueTables[index]?
    goto ((table.lookup value).getD default)
  | selectArity default index => do
    match (← takeFirst).tuple? with
    | some elements =>
      let table ← entry "arity table" index code.module.arityTables[index]?
      goto ((table.lookup elements.length).getD default)
    | none => goto default
  | call c mode => do
    let (target, arguments) ← callee linker code c
    match mode with
    | .nested => return .call target arguments
    | .tail slots =>
      if let some n := slots then Exec.release n
      checkBalance
      return .tailCall target arguments
  | makeFun target arity captured => do
    let environment := (← process).arguments captured
    write (.x 0) (.closure (← frame).code target arity environment)
    return .next
  | native count index label dest => do
    let arguments ← match count with
      | 0 => pure []
      | 1 => do pure [← takeFirst]
      | _ => do
        let a ← takeFirst
        pure [a, ← takeSecond]
    match ← callNative code index arguments with
    | .ok value =>
      write dest value
      return .next
    | .error fault =>
      match label with
      | some target => goto target
      | none => Exec.raise fault
  | send => do
    let p ← process
    let message := p.x 1
    let world ← liftFault ((← get).world.send (p.x 0) message)
    modifyWorld fun _ => world
    write (.x 0) message
    return if ← checkYield then .suspend (.yield false) else .next
  | loopReceive target dest => do
    match (← get).world.mailbox.peek? with
    | some message =>
      write dest message
      return .next
    | none => goto target
  | loopReceiveEnd target => do
    modifyWorld (·.mapMailbox Mailbox.skip)
    goto target
  | removeMessage => do
    modifyWorld (·.mapMailbox Mailbox.remove)
    return .next
  | timeout => do
    modifyWorld (·.mapMailbox Mailbox.rewind)
    return .next
  | wait target => do
    let _ ← goto target
    return .suspend (.receive target none)
  | waitTimeout target => do
    let after ← takeFirst
    match after with
    | .integer n =>
      if n = 0 then return .next
      else if 0 < n then return .suspend (.receive target (some ((← frame).pc, after)))
      else Exec.raise .timeoutValue
    | .atom ⟨"infinity"⟩ => return .suspend (.receive target none)
    | _ => Exec.raise .timeoutValue
  | protect kind slot target => do
    let s ← get
    let handler : Handler := ⟨kind, target, s.process.depth⟩
    write (.y slot) (.catchTag handler s.frame.handlers)
    modifyFrame fun f => { f with handlers := handler :: f.handlers }
    return .next
  | unprotect slot => do
    match ← read (.y slot) with
    | .catchTag _ outer =>
      modifyFrame fun f => { f with handlers := outer }
      write (.y slot) .nil
      return .next
    | _ => abort (.noCatchTag slot)
  | raise => do
    let _ ← takeFirst
    let reason ← takeSecond
    let last := (← process).lastFault
    modifyProcess fun p => { p with lastFault := none }
    Exec.raise (reraise last reason (location? code (← frame).lastPc))
  | floatMove value dest => do
    match ← source code value with
    | .float x => writeFloat dest x
    | _ => Exec.raise .badarith
  | floatConvert value dest => do
    let x ← liftFault (Fault.require (← source code value).number? .badarith)
    writeFloat dest x
  | floatOperation operation a b dest => do
    let p ← process
    let result := operation.apply (p.fr a) (p.fr b)
    if result.isFinite then writeFloat (.float dest) result else Exec.raise .badarith
  | floatNegate a dest => do writeFloat (.float dest) ((← process).fr a).neg
  | matching command => command.run code
  | building command => command.run code callers
where
  /-- Writes a float, to a float register as it is and elsewhere as a term. -/
  writeFloat (dest : FloatPlace) (v : Binary64) : Exec Flow := do
    match dest with
    | .float n => modifyProcess (·.setFr n v)
    | .place place => write place (.float v)
    return .next

end Command

/-- Whether the opcodes of a family call, and so have to wait if the world asks for it. -/
def mayYield : Family → Bool
  | .call | .callOnly | .callLast | .callExt | .callExtOnly | .callExtLast | .apply | .applyLast
  | .callFun => true
  | _ => false

/-- Reads the operands of an opcode at `pc` and runs its command. The program counter is then behind
the last word that was read. -/
def runOpcode (linker : Linker) (code : LoadedModule) (callers : List Caller) (opcode : Opcode)
    (pc : Nat) : Exec Flow := do
  match Command.decode opcode.family ⟨code.module.code, pc + 1, opcode.variants⟩ with
  | .ok (command, rest) =>
    let _ ← Exec.goto rest.pc
    command.run linker code callers
  | .error .missingWord => Exec.abort (.badJump code.module.code.size pc)
  | .error .missingLabel => Exec.abort (.badJump noLabel.toNat pc)

/-- Runs the command at the program counter, while the callers wait. -/
def execute (linker : Linker) (code : LoadedModule) (callers : List Caller) : Exec Flow := do
  let pc := (← Exec.frame).pc
  Exec.modifyFrame fun f => { f with lastPc := pc }
  match code.module.code[pc]? with
  | none => Exec.abort (.badJump pc pc)
  | some word =>
    match Opcode.ofWord? word with
    | none => Exec.abort (.unimplementedOpcode word pc)
    | some opcode =>
      if mayYield opcode.family then
        if ← Exec.mustYield then return .suspend (.yield true)
      runOpcode linker code callers opcode pc

end ErlangMachine.Machine
