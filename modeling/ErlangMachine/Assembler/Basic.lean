import ErlangMachine.Assembler.Error
import ErlangMachine.Assembler.Shape
import ErlangMachine.Module.Basic

/-!
# The assembler

An `Assembler` takes functions one after another and lays their instructions out as code words.
Constants and imports are pooled, labels are noted where they stand, and words that refer to labels
are noted to be filled in later. A function that is refused leaves behind what it had done up to
there. `Assembler.finish` fills in the labels and makes the module.
-/

namespace ErlangMachine

/-- The state of the assembler. -/
structure Assembler where
  /-- The name of the module. -/
  name : Atom
  /-- The code words so far. -/
  code : Array UInt16
  /-- The pool of constants. -/
  constants : Array Term
  /-- The tables of values and labels. -/
  valueTables : Array (List (Term × UInt32))
  /-- The tables of tuple sizes and labels. -/
  arityTables : Array (List (Nat × UInt32))
  /-- The functions called in other modules. -/
  imports : Array Import
  /-- Where labels stand. The last note on a label counts. -/
  labels : List (UInt32 × Nat)
  /-- The words that wait for the place of a label. -/
  fixups : Array (Nat × UInt32)
  /-- The functions, each with the offset at which it begins and its entry label. -/
  functions : Array (LocalName × Nat × UInt32)
  /-- The exported functions. -/
  exports : Array LocalName
  /-- The entry label of the present function. -/
  entryLabel : Option UInt32
  /-- The word that will say how many registers the present function uses. -/
  capacityAt : Option Nat
  /-- The number of registers that the present function uses so far. -/
  registers : Nat
  /-- The position of the last element given to the tuple under construction. -/
  tuplePosition : Nat
  deriving Inhabited

namespace Assembler

/-- An assembler that has seen nothing. -/
def ofName (name : Atom) : Assembler where
  name := name
  code := #[]
  constants := #[]
  valueTables := #[]
  arityTables := #[]
  imports := #[]
  labels := []
  fixups := #[]
  functions := #[]
  exports := #[]
  entryLabel := none
  capacityAt := none
  registers := 0
  tuplePosition := 0

/-- Assembling steps. A step that fails keeps what it had changed. -/
abbrev Step := EStateM Error Assembler

/-- The least code size that label words cannot address. -/
def codeLimit : Nat := 65535

/-- The word for the next entry of a table, if it has room. -/
def nextIndex (table : Table) (size : Nat) : Step UInt16 :=
  if size < 65535 then pure (UInt16.ofNat size) else throw (.tableOverflow table)

/-- The place of a constant in the pool. A constant exactly equal to one there shares its place. -/
def constant (t : Term) : Step UInt16 := do
  let a ← get
  match a.constants.findIdx? (·.exactEq t) with
  | some i => pure (UInt16.ofNat i)
  | none =>
    let i ← nextIndex .constants a.constants.size
    modify fun a => { a with constants := a.constants.push t }
    pure i

/-- The place of an import. -/
def importIndex (wanted : Import) : Step UInt16 := do
  let a ← get
  match a.imports.findIdx? (· == wanted) with
  | some i => pure (UInt16.ofNat i)
  | none =>
    let i ← nextIndex .imports a.imports.size
    modify fun a => { a with imports := a.imports.push wanted }
    pure i

/-- Notes that the present function uses `count` registers. -/
def noteRegisters (count : Nat) : Step Unit :=
  modify fun a => { a with registers := max a.registers count }

/-- An operand word, or a label whose place is not known yet. -/
inductive Word where
  | raw (word : UInt16)
  | label (n : UInt32)
  deriving DecidableEq, Repr

/-- What is to be laid out for one instruction. -/
structure Layout where
  /-- The sources to be decoded ahead. -/
  sources : List (Variant × UInt16)
  /-- The variants of the family's words. -/
  variants : List Variant
  /-- The family's words. -/
  words : List Word
  deriving Inhabited

namespace Layout

/-- Nothing. -/
def empty : Layout := ⟨[], [], []⟩

/-- With one more word. -/
def addWord (l : Layout) (w : Word) : Layout := { l with words := l.words ++ [w] }

/-- With one more word of a number. -/
def addRaw (l : Layout) (w : UInt16) : Layout := l.addWord (.raw w)

/-- With one more word and its variant. -/
def addVariant (l : Layout) (v : Variant) (w : UInt16) : Layout :=
  { l.addRaw w with variants := l.variants ++ [v] }

/-- With one more source. -/
def addSource (l : Layout) (s : Variant × UInt16) : Layout := { l with sources := l.sources ++ [s] }

end Layout

/-- An integer as a word. -/
def wordOf? (v : Int) : Option UInt16 :=
  if 0 ≤ v ∧ v < 65536 then some (UInt16.ofNat v.toNat) else none

/-- An integer as a word in two's complement. -/
def signedWordOf? (v : Int) : Option UInt16 :=
  if -32768 ≤ v ∧ v < 32768 then some (UInt16.ofInt v) else none

/-- Notes the use of a register. -/
def noteOperand : Operand → Step Unit
  | .x n => noteRegisters (n.toNat + 1)
  | _ => pure ()

section Fields

variable (i : Instruction)

/-- Operand `index` of the instruction. -/
def operand (index : Nat) : Operand := i.operands.getD index default

/-- The error of an operand of the wrong kind. -/
def unexpected {α : Type} (index : Nat) (expected : Expectation) : Step α :=
  throw (.unexpectedOperand i.operation index expected (operand i index))

/-- An integer operand. -/
def integer (index : Nat) : Step Int :=
  match operand i index with
  | .int v => pure v.toInt
  | _ => unexpected i index .integer

/-- The word of an integer operand. -/
def numberWord (index : Nat) : Step UInt16 := do
  let v ← integer i index
  match wordOf? v with
  | some w => pure w
  | none => throw (.outOfRange i.operation index v)

/-- The word of a function of another module. -/
def functionWord (index arity : Nat) (guard : Bool) : Step UInt16 :=
  match operand i index with
  | .external id =>
    if id.arity = arity then importIndex ⟨id, guard⟩ else unexpected i index .functionOfArity
  | _ => unexpected i index .function

/-- The pairs of a list operand. -/
def pairs : List Operand → Option (List (Operand × Operand))
  | a :: b :: rest => (pairs rest).map ((a, b) :: ·)
  | [] => some []
  | [_] => none

/-- A value and its label. -/
def valuePair? : Operand × Operand → Option (Term × UInt32)
  | (value, .label n) => value.constant?.map (·, n)
  | _ => none

/-- A tuple size and its label. -/
def arityPair? : Operand × Operand → Option (Nat × UInt32)
  | (.int v, .label n) => if 0 ≤ v.toInt then some (v.toInt.toNat, n) else none
  | _ => none

/-- The entries of a jump table. -/
def tableOf? {α : Type} (entry : Operand × Operand → Option α) (o : Operand) : Option (List α) :=
  match o with
  | .list items => (pairs items).bind (·.mapM entry)
  | _ => none

/-- Lays out one field of an instruction. -/
def field (l : Layout) : OperandUse → Step Layout
  | .source index => do
    let o := operand i index
    let source ← match o with
      | .x n => pure (.x, n)
      | .y n => pure (.y, n)
      | _ =>
        match o.constant? with
        | some t => pure (.c, ← constant t)
        | none => unexpected i index .source
    if l.sources.length = 2 then throw (.tooManySources i.operation)
    noteOperand o
    pure (l.addSource source)
  | .dest index => do
    let o := operand i index
    let (v, w) ← match o with
      | .x n => pure (.x, n)
      | .y n => pure (.y, n)
      | _ => unexpected i index .dest
    noteOperand o
    pure (l.addVariant v w)
  | .floatSource index => do
    let o := operand i index
    let (v, w) ← match o with
      | .x n => pure (.x, n)
      | .y n => pure (.y, n)
      | .fr n => pure (.f, n)
      | _ =>
        match o.constant? with
        | some t => pure (.c, ← constant t)
        | none => unexpected i index .floatSource
    noteOperand o
    pure (l.addVariant v w)
  | .floatDest index => do
    let o := operand i index
    let (v, w) ← match o with
      | .x n => pure (.x, n)
      | .y n => pure (.y, n)
      | .fr n => pure (.f, n)
      | _ => unexpected i index .floatDest
    noteOperand o
    pure (l.addVariant v w)
  | .floatRegister index =>
    match operand i index with
    | .fr n => pure (l.addRaw n)
    | _ => unexpected i index .floatRegister
  | .stackSlot index =>
    match operand i index with
    | .y n => pure (l.addRaw n)
    | _ => unexpected i index .stackSlot
  | .number index => return l.addRaw (← numberWord i index)
  | .arguments index extra => do
    let w ← numberWord i index
    noteRegisters (w.toNat + extra)
    pure (l.addRaw w)
  | .saveSlot index => do
    let v ← match operand i index with
      | .atom ⟨"start"⟩ => pure (-1)
      | _ => integer i index
    match signedWordOf? v with
    | some w => pure (l.addRaw w)
    | none => throw (.outOfRange i.operation index v)
  | .unused index => do
    let _ ← integer i index
    pure l
  | .unusedLabel index =>
    match operand i index with
    | .label _ => pure l
    | _ => unexpected i index .label
  | .label index =>
    match operand i index with
    | .label n => pure (if n = 0 then l.addRaw noLabel else l.addWord (.label n))
    | _ => unexpected i index .label
  | .atom index =>
    match operand i index with
    | .atom a => return l.addRaw (← constant (.atom a))
    | _ => unexpected i index .atom
  | .literal index =>
    match operand i index with
    | .literal (.bits b) => return l.addRaw (← constant (.bits b))
    | _ => unexpected i index .literalBits
  | .callee index count => do
    let arity ← integer i count
    return l.addRaw (← functionWord i index arity.toNat false)
  | .builtin index arity => return l.addRaw (← functionWord i index arity false)
  | .guardBuiltin index arity fail => do
    let guard := match operand i fail with
      | .label n => n != 0
      | _ => false
    return l.addRaw (← functionWord i index arity guard)
  | .values index =>
    match tableOf? valuePair? (operand i index) with
    | some table => do
      let w ← nextIndex .values (← get).valueTables.size
      modify fun a => { a with valueTables := a.valueTables.push table }
      pure (l.addRaw w)
    | none => unexpected i index .valuePairs
  | .arities index =>
    match tableOf? arityPair? (operand i index) with
    | some table => do
      let w ← nextIndex .arities (← get).arityTables.size
      modify fun a => { a with arityTables := a.arityTables.push table }
      pure (l.addRaw w)
    | none => unexpected i index .arityPairs
  | .position => do
    modify fun a => { a with tuplePosition := a.tuplePosition + 1 }
    pure (l.addRaw (UInt16.ofNat (← get).tuplePosition))

end Fields

/-- The word of an opcode. -/
def opcodeWord (o : Opcode) : Step UInt16 :=
  match o.number? with
  | some n => pure (UInt16.ofNat n)
  | none => throw (.noOpcode o)

/-- Adds a code word. -/
def emit (w : UInt16) : Step Unit := modify fun a => { a with code := a.code.push w }

/-- Adds an operand word, which is to be filled in later if it is a label. -/
def emitWord : Word → Step Unit
  | .raw w => emit w
  | .label n =>
    modify fun a => { a with fixups := a.fixups.push (a.code.size, n), code := a.code.push 0 }

/-- Adds the opcode that decodes the sources, if there are any, and their words. -/
def emitSources : List (Variant × UInt16) → Step Unit
  | [] => pure ()
  | sources => do
    let family := if sources.length = 1 then Family.fetchOne else .fetchTwo
    emit (← opcodeWord ⟨family, sources.map (·.1)⟩)
    sources.forM fun s => emit s.2

/-- Adds an instruction that has been laid out. The code may not outgrow what label words can
address. -/
def emitLayout (family : Family) (l : Layout) : Step Unit := do
  emitSources l.sources
  emit (← opcodeWord ⟨family, l.variants⟩)
  l.words.forM emitWord
  if codeLimit ≤ (← get).code.size then throw .codeTooLarge

/-- Notes that a label stands here. At the entry label the function says how many registers it uses,
a number that is filled in at its end. -/
def bindLabel (n : UInt32) : Step Unit := do
  let known := ((← get).labels.lookup n).isSome
  modify fun a => { a with labels := (n, a.code.size) :: a.labels }
  if known then throw (.duplicateLabel n)
  if (← get).entryLabel = some n then
    emit (← opcodeWord ⟨.ensureCapacity, []⟩)
    modify fun a => { a with capacityAt := some a.code.size, code := a.code.push 0 }

/-- The label number that the operand of a `label` instruction denotes. -/
def labelNumber? : Operand → Option UInt32
  | .int v =>
    if 0 < v.toInt ∧ v.toInt < UInt32.size then some (UInt32.ofNat v.toInt.toNat) else none
  | .label n => if n = 0 then none else some n
  | _ => none

/-- Assembles one instruction. -/
def instruction (i : Instruction) : Step Unit := do
  let op := i.operation
  if i.operands.length ≠ op.arity then throw (.wrongArity op i.operands.length)
  if op = .label then
    match labelNumber? (operand i 0) with
    | some n => bindLabel n
    | none => unexpected i 0 .labelNumber
  else
    if op = .putTuple then modify fun a => { a with tuplePosition := 0 }
    match op.shape? with
    | some shape => do
      let l ← shape.fields.foldlM (field i) .empty
      emitLayout shape.family l
    | none => pure ()

/-- Assembles a function: all its instructions, from the label before it on. -/
def function (f : LocalName) (entryLabel : UInt32) (body : List Instruction) : Step Unit := do
  let start := (← get).code.size
  modify fun a =>
    { a with
      entryLabel := some entryLabel, capacityAt := none, registers := f.arity, tuplePosition := 0 }
  body.forM instruction
  let a ← get
  match a.capacityAt with
  | some place =>
    if a.registers < 65536 then
      modify fun a =>
        { a with
          code := a.code.setIfInBounds place (UInt16.ofNat a.registers)
          entryLabel := none
          functions := a.functions.push (f, start, entryLabel) }
    else throw .codeTooLarge
  | none => throw (.missingEntry f entryLabel)

/-- Notes an exported function. -/
def addExport (a : Assembler) (f : LocalName) : Assembler := { a with exports := a.exports.push f }

/-! ## Finishing -/

/-- The place of a label. -/
def resolve (a : Assembler) (n : UInt32) : Except Error Nat :=
  match a.labels.lookup n with
  | some offset => .ok offset
  | none => .error (.undefinedLabel n)

/-- The word of a label's place. -/
def labelWord (a : Assembler) (n : UInt32) : Except Error UInt16 := do
  let offset ← a.resolve n
  if offset < codeLimit then .ok (UInt16.ofNat offset) else .error .codeTooLarge

/-- The code with the places of labels filled in. -/
def resolvedCode (a : Assembler) : Except Error (Array UInt16) :=
  a.fixups.foldlM (fun code (i, n) => return code.setIfInBounds i (← a.labelWord n)) a.code

/-- A table with places for labels. -/
def resolveTable {α : Type} (a : Assembler) (table : List (α × UInt32)) :
    Except Error (List (α × Nat)) :=
  table.mapM fun (key, n) => return (key, ← a.resolve n)

/-- The functions with their entries. -/
def functionTable (a : Assembler) : Except Error FunctionTable :=
  a.functions.foldlM (fun table (f, start, label) => do
    let entry ← a.resolve label
    match table.insert? ⟨f, start, entry⟩ with
    | some table => .ok table
    | none => .error (.duplicateFunction f)) .empty

/-- The entry of an exported function. -/
def resolveExport (table : FunctionTable) (f : LocalName) : Except Error Export :=
  match table.entry? f with
  | some entry => .ok ⟨f, entry⟩
  | none => .error (.undefinedExport f)

/-- The finished module. -/
def finish (a : Assembler) : Except Error Module := do
  let code ← a.resolvedCode
  let valueTables ← a.valueTables.mapM fun t => return ValueTable.ofList (← a.resolveTable t)
  let arityTables ← a.arityTables.mapM fun t => return ArityTable.ofList (← a.resolveTable t)
  let functions ← a.functionTable
  let exports ← a.exports.toList.mapM (resolveExport functions)
  return {
    name := a.name
    code, constants := a.constants, valueTables, arityTables, functions, exports
    imports := a.imports }

end Assembler

end ErlangMachine
