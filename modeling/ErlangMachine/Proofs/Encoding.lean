import ErlangMachine.Listing.Basic

/-!
# What code words stand for

Assembled code is a sequence of blocks, one for each instruction that is not an annotation. This
module says what a block must look like to stand for its instruction, without a look at how the
assembler lays it out. A `Reading` says what words denote: numbers, labels, and places in the tables
of the module. Two readings matter. Under the first, words are those of the assembler, where a label
is still a name; under the second they are the words of a finished module, where a label is a code
offset. All relations here are stated for any reading, and `map` carries them from one to another.

`FieldsCoded` follows the fields of a shape and gives for each the word, the variant or the source
that its operand becomes. `BlockCoded` adds the opcodes in front, `BodyCoded` strings blocks
together and notes at which offset each label stands, `ProgramCoded` does so for several functions.
A shape is `Lawful` if it agrees with the tables that are written down apart from it: the documented
kinds of the operation's operands, which say also which of them mean nothing to the machine, and the
names of families and the layouts of their words.
-/

namespace ErlangMachine

variable {n : UInt16} {p : Nat} {uses : List OperandUse} {ss : List (Variant × UInt16)}
  {vs : List Variant}

/-! ## Operands by kind -/

/-- The kinds of operands that operations are documented with. -/
inductive OperandKind where
  /-- A label. -/
  | label
  /-- A register, a stack slot or a constant. -/
  | source
  /-- A register or a stack slot. -/
  | dest
  /-- A number. -/
  | number
  /-- A number without a meaning here: of live registers, of words on the heap or of slots left. -/
  | unused
  /-- A label without a meaning here, for errors in float arithmetic. -/
  | unusedLabel
  /-- A float register. -/
  | float
  /-- A source or a float register. -/
  | sourceOrFloat
  /-- A destination or a float register. -/
  | destOrFloat
  /-- A function of another module. -/
  | function
  /-- An atom. -/
  | atom
  /-- A literal bit string. -/
  | bits
  /-- Pairs of a key and a label. -/
  | pairs
  deriving DecidableEq, Repr

namespace Operation

open OperandKind

/-- The kinds of the operands that an operation is documented with, in their order. Those without a
meaning here are checked and leave nothing in the code. -/
def signature : Operation → List OperandKind
  | intCodeEnd | ret | ifEnd | send | removeMessage | timeout | bsInitWritable | fclearerror => []
  | .label | line | deallocate | apply | callFun => [number]
  | jump | loopRecEnd | wait | fcheckerror => [.label]
  | badmatch | caseEnd | tryCaseEnd | put => [source]
  | init | bsContextToBinary | catchEnd | tryEnd | tryCase => [dest]
  | bsPutString => [.bits]
  | funcInfo => [.atom, .atom, number]
  | allocate | allocateZero | trim => [number, unused]
  | testHeap => [unused, unused]
  | applyLast => [number, number]
  | allocateHeap | allocateHeapZero => [number, unused, unused]
  | move => [source, dest]
  | putList => [source, source, dest]
  | getList => [source, dest, dest]
  | getTupleElement => [source, number, dest]
  | putTuple => [number, dest]
  | setTupleElement => [source, dest, number]
  | isInteger | isFloat | isNumber | isAtom | isPid | isReference | isPort | isNil | isBinary
  | isList | isNonemptyList | isTuple | isFunction | isBoolean | isBitstr | waitTimeout =>
    [.label, source]
  | testArity => [.label, source, number]
  | isFunctionOfArity | isEqExact | isNeExact | isEq | isNe | isLt | isGe =>
    [.label, source, source]
  | selectVal | selectTupleArity => [source, .label, .pairs]
  | call | callOnly => [number, .label]
  | callLast => [number, .label, number]
  | callExt | callExtOnly => [number, function]
  | callExtLast => [number, function, number]
  | makeFun => [.label, number, number]
  | bif0 => [function, dest]
  | bif1 => [.label, function, source, dest]
  | bif2 => [.label, function, source, source, dest]
  | gcBif1 => [.label, unused, function, source, dest]
  | gcBif2 => [.label, unused, function, source, source, dest]
  | loopRec => [.label, dest]
  | bsStartMatch => [.label, source, unused, number, dest]
  | bsGetInteger | bsGetFloat | bsGetBinary =>
    [.label, dest, unused, source, number, number, dest]
  | bsSkipBits => [.label, dest, source, number, number]
  | bsTestTail | bsTestUnit => [.label, dest, number]
  | bsMatchString => [.label, dest, .bits]
  | bsGetUtf8 | bsGetUtf16 | bsGetUtf32 => [.label, dest, unused, number, dest]
  | bsSkipUtf8 | bsSkipUtf16 | bsSkipUtf32 => [.label, dest, unused, number]
  | bsSave | bsRestore => [dest, number]
  | bsInit | bsInitBits => [.label, source, unused, unused, number, dest]
  | bsPutInteger | bsPutBinary | bsPutFloat => [.label, source, number, number, source]
  | bsPutUtf8 | bsPutUtf16 | bsPutUtf32 => [.label, number, source]
  | bsUtf8Size | bsUtf16Size => [.label, source, dest]
  | bsAdd => [.label, source, source, number, dest]
  | bsAppend => [.label, source, unused, unused, number, source, number, dest]
  | bsPrivateAppend => [.label, source, number, source, number, dest]
  | catchBegin | tryBegin => [dest, .label]
  | raise => [source, source]
  | fmove | fconv => [sourceOrFloat, destOrFloat]
  | fadd | fsub | fmul | fdiv => [.unusedLabel, float, float, float]
  | fnegate => [.unusedLabel, float, float]

/-- The name of the family that carries an operation out. It is the operation's own name, except
that space for the heap and the keeping of registers mean nothing here and that revisions are not
told apart. -/
def familyName : Operation → String
  | allocateHeap => "allocate"
  | allocateHeapZero => "allocate_zero"
  | gcBif1 => "bif1"
  | gcBif2 => "bif2"
  | makeFun => "make_fun"
  | bsStartMatch => "bs_start_match"
  | bsGetInteger => "bs_get_integer"
  | bsGetFloat => "bs_get_float"
  | bsGetBinary => "bs_get_binary"
  | bsSkipBits => "bs_skip_bits"
  | bsTestTail => "bs_test_tail"
  | bsSave => "bs_save"
  | bsRestore => "bs_restore"
  | bsInit => "bs_init"
  | op => op.name

end Operation

namespace OperandUse

/-- The slot of the word that an operand becomes, if it becomes one. -/
def slot? : OperandUse → Option Slot
  | source _ | unused _ | unusedLabel _ => none
  | dest _ => some .dest
  | floatSource _ => some .floatSource
  | floatDest _ => some .floatDest
  | floatRegister _ => some .floatRegister
  | stackSlot _ => some .stackSlot
  | number _ | arguments _ _ | saveSlot _ | position => some .number
  | label _ => some .label
  | atom _ | literal _ => some .constant
  | callee _ _ | builtin _ _ | guardBuiltin _ _ _ => some .imported
  | values _ => some .valueTable
  | arities _ => some .arityTable

/-- The operand, with its documented kind. -/
def operand? : OperandUse → Option (Nat × OperandKind)
  | source k => some (k, .source)
  | dest k | stackSlot k => some (k, .dest)
  | floatSource k => some (k, .sourceOrFloat)
  | floatDest k => some (k, .destOrFloat)
  | floatRegister k => some (k, .float)
  | number k | arguments k _ | saveSlot k => some (k, .number)
  | unused k => some (k, .unused)
  | unusedLabel k => some (k, .unusedLabel)
  | label k => some (k, .label)
  | atom k => some (k, .atom)
  | literal k => some (k, .bits)
  | callee k _ | builtin k _ | guardBuiltin k _ _ => some (k, .function)
  | values k | arities k => some (k, .pairs)
  | position => none

/-- Another operand that decides how this one is encoded, with its documented kind. -/
def reference? : OperandUse → Option (Nat × OperandKind)
  | callee _ count => some (count, .number)
  | guardBuiltin _ _ fail => some (fail, .label)
  | _ => none

/-- The number of arguments that a built-in function must take. -/
def takes? : OperandUse → Option Nat
  | builtin _ arity | guardBuiltin _ arity _ => some arity
  | _ => none

/-- Whether the operand is fetched ahead of the instruction. -/
def isSource : OperandUse → Bool
  | source _ => true
  | _ => false

/-- The operand and the slot of a word that may stand for different things. -/
def choice? : OperandUse → Option (Nat × Slot)
  | dest k => some (k, .dest)
  | floatSource k => some (k, .floatSource)
  | floatDest k => some (k, .floatDest)
  | _ => none

/-- Whether the field becomes a number that always stands for the same thing. -/
def isPlain : OperandUse → Bool
  | source _ | dest _ | floatSource _ | floatDest _ | label _ | unused _ | unusedLabel _ => false
  | _ => true

/-- The table that the field refers to. -/
def table? : OperandUse → Option Assembler.Table
  | source _ | floatSource _ | atom _ | literal _ => some .constants
  | callee _ _ | builtin _ _ | guardBuiltin _ _ _ => some .imports
  | values _ => some .values
  | arities _ => some .arities
  | _ => none

/-- The operands that the field is made from. -/
def reads (use : OperandUse) : List Nat :=
  (use.operand?.toList ++ use.reference?.toList).map (·.1)

/-- The position reached in the tuple under construction. -/
def advance (p : Nat) : OperandUse → Nat
  | position => p + 1
  | _ => p

/-- Only a position moves on. -/
theorem advance_eq {p : Nat} {use : OperandUse} (h : use ≠ position) : use.advance p = p := by
  cases use
  case position => exact absurd rfl h
  all_goals rfl

end OperandUse

/-- A shape agrees with the documented operands of its operation and the layout of its family. -/
structure Shape.Lawful (op : Operation) (shape : Shape) : Prop where
  /-- The family is the operation's own. -/
  family : shape.family.name = op.familyName
  /-- The words stand in the slots of the family, in their order. -/
  slots : shape.fields.filterMap OperandUse.slot? = shape.family.layout
  /-- Each operand is taken exactly once. -/
  once : ((shape.fields.filterMap OperandUse.operand?).map (·.1)).Perm (List.range op.arity)
  /-- Each operand is taken as what it is documented to be. -/
  kinds : ∀ use ∈ shape.fields, ∀ r ∈ use.operand?.toList ++ use.reference?.toList,
    op.signature[r.1]? = some r.2
  /-- Operands of one kind keep their order. -/
  order : (shape.fields.filterMap OperandUse.operand?).Pairwise fun r r' => r.2 = r'.2 → r.1 < r'.1
  /-- A built-in function takes as many arguments as there are sources. -/
  arity : ∀ use ∈ shape.fields, ∀ n ∈ use.takes?, n = shape.fields.countP OperandUse.isSource

instance (op : Operation) (shape : Shape) : Decidable (shape.Lawful op) :=
  decidable_of_iff
    (shape.family.name = op.familyName ∧
      shape.fields.filterMap OperandUse.slot? = shape.family.layout ∧
      ((shape.fields.filterMap OperandUse.operand?).map (·.1)).Perm (List.range op.arity) ∧
      (∀ use ∈ shape.fields, ∀ r ∈ use.operand?.toList ++ use.reference?.toList,
        op.signature[r.1]? = some r.2) ∧
      (shape.fields.filterMap OperandUse.operand?).Pairwise
        (fun r r' => r.2 = r'.2 → r.1 < r'.1) ∧
      ∀ use ∈ shape.fields, ∀ n ∈ use.takes?, n = shape.fields.countP OperandUse.isSource)
    ⟨fun ⟨family, slots, once, kinds, order, arity⟩ => ⟨family, slots, once, kinds, order, arity⟩,
      fun h => ⟨h.family, h.slots, h.once, h.kinds, h.order, h.arity⟩⟩

/-- Every operation has a lawful shape. -/
theorem Operation.lawful {op : Operation} {shape : Shape} (h : op.shape? = some shape) :
    shape.Lawful op := by
  have hall : ∀ shape ∈ op.shape?, shape.Lawful op := by
    cases op <;> decide
  exact hall shape h

/-- No operation has more than two sources. -/
theorem Operation.countP_isSource_le {op : Operation} {shape : Shape}
    (h : op.shape? = some shape) : shape.fields.countP OperandUse.isSource ≤ 2 := by
  have hall : ∀ shape ∈ op.shape?, shape.fields.countP OperandUse.isSource ≤ 2 := by
    cases op <;> decide
  exact hall shape h

/-! ## Readings -/

/-- What words denote. -/
structure Reading (ω : Type) where
  /-- The word is a number. -/
  number : ω → UInt16 → Prop
  /-- The word is a label. -/
  label : ω → UInt32 → Prop
  /-- The constant at a place of the pool. -/
  constant : UInt16 → Term → Prop
  /-- The import at a place of the table of imports. -/
  imported : UInt16 → Import → Prop
  /-- The jump table of values at a place. -/
  values : UInt16 → List (Term × UInt32) → Prop
  /-- The jump table of tuple sizes at a place. -/
  arities : UInt16 → List (Nat × UInt32) → Prop

/-- One reading carries over to another along a function on words, labels apart. -/
structure Reading.Hom {ω ω' : Type} (f : ω → ω') (r : Reading ω) (r' : Reading ω') : Prop where
  /-- Numbers stay. -/
  number : ∀ {w n}, r.number w n → r'.number (f w) n
  /-- Constants stay. -/
  constant : ∀ {n t}, r.constant n t → r'.constant n t
  /-- Imports stay. -/
  imported : ∀ {n i}, r.imported n i → r'.imported n i
  /-- Jump tables of values stay. -/
  values : ∀ {n t}, r.values n t → r'.values n t
  /-- Jump tables of tuple sizes stay. -/
  arities : ∀ {n t}, r.arities n t → r'.arities n t

/-- What words denote if a condition is met. Without it nothing is said of places in tables. -/
def Reading.given {ω : Type} (r : Reading ω) (condition : Prop) : Reading ω where
  number := r.number
  label := r.label
  constant n t := condition → r.constant n t
  imported n i := condition → r.imported n i
  values n table := condition → r.values n table
  arities n table := condition → r.arities n table

/-- What holds anyway holds under a condition. -/
theorem Reading.hom_given {ω : Type} (r : Reading ω) (condition : Prop) :
    r.Hom id (r.given condition) where
  number := id
  constant := fun h _ => h
  imported := fun h _ => h
  values := fun h _ => h
  arities := fun h _ => h

/-- A condition that is met can be left out. -/
theorem Reading.given_hom {ω : Type} (r : Reading ω) {condition : Prop} (hmet : condition) :
    (r.given condition).Hom id r where
  number := id
  constant := fun h => h hmet
  imported := fun h => h hmet
  values := fun h => h hmet
  arities := fun h => h hmet

/-- One reading carries over to another under a condition as well. -/
theorem Reading.Hom.given {ω ω' : Type} {f : ω → ω'} {r : Reading ω} {r' : Reading ω'}
    (h : r.Hom f r') (condition : Prop) : (r.given condition).Hom f (r'.given condition) where
  number := h.number
  constant := fun hn hmet => h.constant (hn hmet)
  imported := fun hn hmet => h.imported (hn hmet)
  values := fun hn hmet => h.values (hn hmet)
  arities := fun hn hmet => h.arities (hn hmet)

/-- The value that a jump table goes by. -/
def ValueKey (o : Operand) (t : Term) : Prop := o.constant? = some t

/-- The tuple size that a jump table goes by. -/
def ArityKey (o : Operand) (size : Nat) : Prop := ∃ v : Int64, o = .int v ∧ v.toInt = size

/-- The items of a jump table operand: keys, each followed by a label. -/
inductive PairsCoded {α : Type} (key : Operand → α → Prop) :
    List Operand → List (α × UInt32) → Prop
  | nil : PairsCoded key [] []
  | cons {o : Operand} {k : α} {n : UInt32} {items : List Operand} {table : List (α × UInt32)} :
    key o k → PairsCoded key items table →
      PairsCoded key (o :: .label n :: items) ((k, n) :: table)

section Blocks

variable {ω : Type} (r : Reading ω) (i : Instruction)

/-- A variant and a number stand for an operand: a register or slot by its number, a constant by its
place in the pool. -/
def OperandCoded (o : Operand) : Variant → UInt16 → Prop
  | .x, n => o = .x n
  | .y, n => o = .y n
  | .f, n => o = .fr n
  | .c, n => ∃ t, o.constant? = some t ∧ r.constant n t

/-- A number stands for what a field of the instruction asks for, at position `p` of the tuple under
construction. Fields that become no number have none. -/
def NumberCoded (p : Nat) : OperandUse → UInt16 → Prop
  | .floatRegister k, n => Assembler.operand i k = .fr n
  | .stackSlot k, n => Assembler.operand i k = .y n
  | .number k, n | .arguments k _, n =>
    ∃ v : Int64, Assembler.operand i k = .int v ∧ v.toInt = n.toNat
  -- The slot is signed, and the atom stands for the origin below all slots.
  | .saveSlot k, n =>
    (Assembler.operand i k = .atom "start" ∧ n.toInt16.toInt = -1) ∨
      ∃ v : Int64, Assembler.operand i k = .int v ∧ n.toInt16.toInt = v.toInt
  | .atom k, n => ∃ a, Assembler.operand i k = .atom a ∧ r.constant n (.atom a)
  | .literal k, n => ∃ b, Assembler.operand i k = .literal (.bits b) ∧ r.constant n (.bits b)
  | .callee k count, n =>
    ∃ id v, Assembler.operand i k = .external id ∧ Assembler.operand i count = .int v ∧
      id.arity = v.toInt.toNat ∧ r.imported n ⟨id, false⟩
  | .builtin k arity, n =>
    ∃ id, Assembler.operand i k = .external id ∧ id.arity = arity ∧ r.imported n ⟨id, false⟩
  | .guardBuiltin k arity fail, n =>
    ∃ id guard, Assembler.operand i k = .external id ∧ id.arity = arity ∧
      (guard = true ↔ ∃ l, l ≠ 0 ∧ Assembler.operand i fail = .label l) ∧
      r.imported n ⟨id, guard⟩
  | .values k, n =>
    ∃ items table, Assembler.operand i k = .list items ∧
      PairsCoded ValueKey items table ∧ r.values n table
  | .arities k, n =>
    ∃ items table, Assembler.operand i k = .list items ∧
      PairsCoded ArityKey items table ∧ r.arities n table
  | .position, n => n = UInt16.ofNat (p + 1)
  | _, _ => False

/-- The operand of a field that leaves nothing in the code. -/
def UnusedCoded : OperandUse → Prop
  | .unused k => ∃ v, Assembler.operand i k = .int v
  | .unusedLabel k => ∃ l, Assembler.operand i k = .label l
  | _ => False

/-- The fields of an instruction, from position `p` of the tuple under construction on, stand for
its sources, the variants of its opcode and its words. -/
inductive FieldsCoded :
    Nat → List OperandUse → List (Variant × UInt16) → List Variant → List ω → Prop
  | nil {p : Nat} : FieldsCoded p [] [] [] []
  | source {p k : Nat} {v : Variant} {n : UInt16} {uses ss vs ws} :
    v ∈ Slot.source.variants → OperandCoded r (Assembler.operand i k) v n →
      FieldsCoded p uses ss vs ws → FieldsCoded p (.source k :: uses) ((v, n) :: ss) vs ws
  | choice {p k : Nat} {use : OperandUse} {slot : Slot} {v : Variant} {n : UInt16} {w : ω}
      {uses ss vs ws} :
    use.choice? = some (k, slot) → v ∈ slot.variants → r.number w n →
      OperandCoded r (Assembler.operand i k) v n →
      FieldsCoded p uses ss vs ws → FieldsCoded p (use :: uses) ss (v :: vs) (w :: ws)
  | label {p k : Nat} {n : UInt32} {w : ω} {uses ss vs ws} :
    Assembler.operand i k = .label n → r.label w n →
      FieldsCoded p uses ss vs ws → FieldsCoded p (.label k :: uses) ss vs (w :: ws)
  | number {p : Nat} {use : OperandUse} {n : UInt16} {w : ω} {uses ss vs ws} :
    r.number w n → NumberCoded r i p use n →
      FieldsCoded (use.advance p) uses ss vs ws → FieldsCoded p (use :: uses) ss vs (w :: ws)
  | unused {p : Nat} {use : OperandUse} {uses ss vs ws} :
    UnusedCoded i use → FieldsCoded p uses ss vs ws → FieldsCoded p (use :: uses) ss vs ws

/-- Something can stand for a field of an instruction, if tables may hold anything. -/
def OperandUse.Codable (use : OperandUse) : Prop :=
  ∃ (r : Reading UInt16) (p : Nat) (ss : List (Variant × UInt16)) (vs : List Variant)
    (ws : List UInt16), FieldsCoded r i p [use] ss vs ws

/-- Sources are fetched by an opcode of their own, which is there if and only if there are any. -/
inductive FetchCoded : List (Variant × UInt16) → List ω → Prop
  | none : FetchCoded [] []
  | one {s : Variant × UInt16} {k : UInt16} {head w : ω} :
    r.number head k → Opcode.ofWord? k = some ⟨.fetchOne, [s.1]⟩ → r.number w s.2 →
      FetchCoded [s] [head, w]
  | two {s t : Variant × UInt16} {k : UInt16} {head w w' : ω} :
    r.number head k → Opcode.ofWord? k = some ⟨.fetchTwo, [s.1, t.1]⟩ → r.number w s.2 →
      r.number w' t.2 → FetchCoded [s, t] [head, w, w']

/-- The opcode of a family with its words. -/
inductive OpcodeCoded (family : Family) (vs : List Variant) (ws : List ω) : List ω → Prop
  | intro {k : UInt16} {head : ω} :
    r.number head k → Opcode.ofWord? k = some ⟨family, vs⟩ → ws.length = family.layout.length →
      OpcodeCoded family vs ws (head :: ws)

/-- A block stands for an instruction of some shape, at position `p` of the tuple under
construction. -/
inductive BlockCoded (p : Nat) (shape : Shape) : List ω → Prop
  | intro {ss vs ws fetch main} :
    FieldsCoded r i p shape.fields ss vs ws → FetchCoded r ss fetch →
      OpcodeCoded r shape.family vs ws main → BlockCoded p shape (fetch ++ main)

end Blocks

/-- The position in the tuple under construction at which the fields of an operation begin. A new
tuple begins at its first element. -/
def Operation.startsAt (op : Operation) (p : Nat) : Nat := if op = .putTuple then 0 else p

/-- The position in the tuple under construction after a shape. -/
def Shape.advance (shape : Shape) (p : Nat) : Nat := shape.fields.foldl OperandUse.advance p

/-- The words of a function's body from a code offset on, with the labels that stand there. The
function has the entry label `entry` and says there that it uses `capacity` registers. -/
inductive BodyCoded {ω : Type} (r : Reading ω) (entry : UInt32) (capacity : UInt16) :
    Nat → Nat → List Instruction → List (UInt32 × Nat) → List ω → Prop
  | nil {p offset : Nat} : BodyCoded r entry capacity p offset [] [] []
  | label {p offset : Nat} {i : Instruction} {n : UInt32} {body labels ws} :
    i.operation = .label → Assembler.labelNumber? (Assembler.operand i 0) = some n → n ≠ entry →
      BodyCoded r entry capacity p offset body labels ws →
      BodyCoded r entry capacity p offset (i :: body) ((n, offset) :: labels) ws
  | entry {p offset : Nat} {i : Instruction} {k : UInt16} {head word : ω} {body labels ws} :
    i.operation = .label → Assembler.labelNumber? (Assembler.operand i 0) = some entry →
      r.number head k → Opcode.ofWord? k = some ⟨.ensureCapacity, []⟩ → r.number word capacity →
      BodyCoded r entry capacity p (offset + 2) body labels ws →
      BodyCoded r entry capacity p offset (i :: body) ((entry, offset) :: labels)
        (head :: word :: ws)
  | remark {p offset : Nat} {i : Instruction} {body labels ws} :
    i.operation.isAnnotation → BodyCoded r entry capacity p offset body labels ws →
      BodyCoded r entry capacity p offset (i :: body) labels ws
  | instruction {p offset : Nat} {i : Instruction} {shape : Shape} {body labels block ws} :
    i.operation.shape? = some shape → shape.Lawful i.operation →
      i.operands.length = i.operation.arity →
      BlockCoded r i (i.operation.startsAt p) shape block →
      -- Positions fit a word, so none has come round to zero.
      shape.advance (i.operation.startsAt p) < 65536 →
      BodyCoded r entry capacity (shape.advance (i.operation.startsAt p)) (offset + block.length)
        body labels ws →
      BodyCoded r entry capacity p offset (i :: body) labels (block ++ ws)

/-- The words of some functions from a code offset on, with the labels that stand there. -/
inductive ProgramCoded {ω : Type} (r : Reading ω) :
    Nat → List FunctionListing → List (UInt32 × Nat) → List ω → Prop
  | nil {offset : Nat} : ProgramCoded r offset [] [] []
  | cons {offset : Nat} {f : FunctionListing} {capacity : UInt16} {rest labels labels' ws ws'} :
    BodyCoded r f.entry capacity 0 offset f.body.toList labels ws →
      ProgramCoded r (offset + ws.length) rest labels' ws' →
      ProgramCoded r offset (f :: rest) (labels ++ labels') (ws ++ ws')

/-! ## From one reading to another -/

section Map

variable {ω ω' : Type} {f : ω → ω'} {r : Reading ω} {r' : Reading ω'} {i : Instruction}

/-- The code of an operand with a choice carries over. -/
theorem OperandCoded.map (h : r.Hom f r') {o : Operand} {v : Variant}
    (hcoded : OperandCoded r o v n) : OperandCoded r' o v n := by
  cases v with
  | x => exact hcoded
  | y => exact hcoded
  | f => exact hcoded
  | c =>
    obtain ⟨t, ht, hconstant⟩ := hcoded
    exact ⟨t, ht, h.constant hconstant⟩

/-- The word of a field carries over. -/
theorem NumberCoded.map (h : r.Hom f r') {use : OperandUse} (hcoded : NumberCoded r i p use n) :
    NumberCoded r' i p use n := by
  cases use with
  | floatRegister | stackSlot | number | arguments | saveSlot | position => exact hcoded
  -- The others refer to a pool, whose entries the map keeps.
  | atom k =>
    obtain ⟨a, ha, hconstant⟩ := hcoded
    exact ⟨a, ha, h.constant hconstant⟩
  | literal k =>
    obtain ⟨b, hb, hconstant⟩ := hcoded
    exact ⟨b, hb, h.constant hconstant⟩
  | callee k count =>
    obtain ⟨id, v, hid, hv, harity, himport⟩ := hcoded
    exact ⟨id, v, hid, hv, harity, h.imported himport⟩
  | builtin k arity =>
    obtain ⟨id, hid, harity, himport⟩ := hcoded
    exact ⟨id, hid, harity, h.imported himport⟩
  | guardBuiltin k arity fail =>
    obtain ⟨id, guard, hid, harity, hguard, himport⟩ := hcoded
    exact ⟨id, guard, hid, harity, hguard, h.imported himport⟩
  | values k =>
    obtain ⟨items, table, hitems, hpairs, hvalues⟩ := hcoded
    exact ⟨items, table, hitems, hpairs, h.values hvalues⟩
  | arities k =>
    obtain ⟨items, table, hitems, hpairs, harities⟩ := hcoded
    exact ⟨items, table, hitems, hpairs, h.arities harities⟩
  | source | dest | floatSource | floatDest | unused | unusedLabel | label => exact hcoded.elim

/-- Fields carry over if the labels among their words do. -/
theorem FieldsCoded.map (h : r.Hom f r') {ws : List ω} (hcoded : FieldsCoded r i p uses ss vs ws)
    (hlabel : ∀ w ∈ ws, ∀ n, r.label w n → r'.label (f w) n) :
    FieldsCoded r' i p uses ss vs (ws.map f) := by
  induction hcoded with
  | nil => exact .nil
  | source hv ho _ ih => exact .source hv (ho.map h) (ih hlabel)
  | choice huse hv hw ho _ ih =>
    exact .choice huse hv (h.number hw) (ho.map h) (ih fun w hw => hlabel w (.tail _ hw))
  | label ho hw _ ih =>
    exact .label ho (hlabel _ (.head _) _ hw) (ih fun w hw => hlabel w (.tail _ hw))
  | number hw hn _ ih =>
    exact .number (h.number hw) (hn.map h) (ih fun w hw => hlabel w (.tail _ hw))
  | unused huse _ ih => exact .unused huse (ih hlabel)

/-- A fetch of sources has no labels, so it carries over as it is. -/
theorem FetchCoded.map (h : r.Hom f r') {ws : List ω} (hcoded : FetchCoded r ss ws) :
    FetchCoded r' ss (ws.map f) := by
  cases hcoded with
  | none => exact .none
  | one hhead hopcode hw => exact .one (h.number hhead) hopcode (h.number hw)
  | two hhead hopcode hw hw' => exact .two (h.number hhead) hopcode (h.number hw) (h.number hw')

/-- An opcode in front of words carries over. -/
theorem OpcodeCoded.map (h : r.Hom f r') {family : Family} {ws main : List ω}
    (hcoded : OpcodeCoded r family vs ws main) :
    OpcodeCoded r' family vs (ws.map f) (main.map f) := by
  obtain ⟨hhead, hopcode, hlength⟩ := hcoded
  exact .intro (h.number hhead) hopcode (by rw [List.length_map, hlength])

/-- A block carries over if the labels in it do. -/
theorem BlockCoded.map (h : r.Hom f r') {shape : Shape} {block : List ω}
    (hcoded : BlockCoded r i p shape block)
    (hlabel : ∀ w ∈ block, ∀ n, r.label w n → r'.label (f w) n) :
    BlockCoded r' i p shape (block.map f) := by
  obtain ⟨hfields, hfetch, hmain⟩ := hcoded
  rw [List.map_append]
  refine .intro (hfields.map h fun w hw => hlabel w ?_) (hfetch.map h) (hmain.map h)
  obtain ⟨hhead, hopcode, hlength⟩ := hmain
  exact List.mem_append_right _ (.tail _ hw)

/-- A body carries over, with the same offsets for its labels, if the labels in its words do. -/
theorem BodyCoded.map (h : r.Hom f r') {entry : UInt32} {capacity : UInt16} {offset : Nat}
    {body : List Instruction} {labels : List (UInt32 × Nat)} {ws : List ω}
    (hcoded : BodyCoded r entry capacity p offset body labels ws)
    (hlabel : ∀ w ∈ ws, ∀ n, r.label w n → r'.label (f w) n) :
    BodyCoded r' entry capacity p offset body labels (ws.map f) := by
  induction hcoded with
  | nil => exact .nil
  | label hop hn hne _ ih => exact .label hop hn hne (ih hlabel)
  | entry hop hn hhead hopcode hword _ ih =>
    exact .entry hop hn (h.number hhead) hopcode (h.number hword)
      (ih fun w hw => hlabel w (.tail _ (.tail _ hw)))
  | remark hop _ ih => exact .remark hop (ih hlabel)
  | instruction hshape hlawful harity hblock hposition _ ih =>
    rw [List.map_append]
    refine .instruction hshape hlawful harity
      (hblock.map h fun w hw => hlabel w (List.mem_append_left _ hw)) hposition ?_
    rw [List.length_map]
    exact ih fun w hw => hlabel w (List.mem_append_right _ hw)

/-- The code of several functions carries over from reading to reading. -/
theorem ProgramCoded.map (h : r.Hom f r') {offset : Nat} {functions : List FunctionListing}
    {labels : List (UInt32 × Nat)} {ws : List ω}
    (hcoded : ProgramCoded r offset functions labels ws)
    (hlabel : ∀ w ∈ ws, ∀ n, r.label w n → r'.label (f w) n) :
    ProgramCoded r' offset functions labels (ws.map f) := by
  induction hcoded with
  | nil => exact .nil
  | cons hbody _ ih =>
    rw [List.map_append]
    refine .cons (hbody.map h fun w hw => hlabel w (List.mem_append_left _ hw)) ?_
    rw [List.length_map]
    exact ih fun w hw => hlabel w (List.mem_append_right _ hw)

end Map

/-! ## One after another -/

section Append

variable {ω : Type} {r : Reading ω} {i : Instruction}

/-- Fields after fields. -/
theorem FieldsCoded.append {uses' : List OperandUse} {ss' : List (Variant × UInt16)}
    {vs' : List Variant} {ws ws' : List ω} (h : FieldsCoded r i p uses ss vs ws)
    (h' : FieldsCoded r i (uses.foldl OperandUse.advance p) uses' ss' vs' ws') :
    FieldsCoded r i p (uses ++ uses') (ss ++ ss') (vs ++ vs') (ws ++ ws') := by
  induction h with
  | nil => exact h'
  | source hv ho _ ih => exact .source hv ho (ih h')
  | @choice p k use slot v n w uses ss vs ws huse hv hw ho _ ih =>
    rw [List.foldl_cons, OperandUse.advance_eq (by rintro rfl; cases huse)] at h'
    exact .choice huse hv hw ho (ih h')
  | label ho hw _ ih => exact .label ho hw (ih h')
  | number hw hn _ ih => exact .number hw hn (ih h')
  | @unused p use uses ss vs ws huse _ ih =>
    rw [List.foldl_cons, OperandUse.advance_eq (by rintro rfl; exact huse.elim)] at h'
    exact .unused huse (ih h')

end Append

/-! ## Words in their slots -/

section Slots

variable {ω : Type} {r : Reading ω}

/-- A number fits a slot if the table that the slot refers to, if there is one, has that place. -/
def Slot.Fits (r : Reading ω) (n : UInt16) : Slot → Prop
  | .constant => ∃ t, r.constant n t
  | .imported => ∃ i, r.imported n i
  | .valueTable => ∃ table, r.values n table
  | .arityTable => ∃ table, r.arities n table
  | _ => True

/-- Words fit the slots of a layout, with one variant for each slot that has a choice. -/
inductive WordsFit (r : Reading ω) : List Slot → List Variant → List ω → Prop
  | nil : WordsFit r [] [] []
  | plain {slot : Slot} {n : UInt16} {w : ω} {slots vs ws} :
    slot ≠ .label → slot.variants = [] → r.number w n → slot.Fits r n → WordsFit r slots vs ws →
      WordsFit r (slot :: slots) vs (w :: ws)
  | label {n : UInt32} {w : ω} {slots vs ws} :
    r.label w n → WordsFit r slots vs ws → WordsFit r (.label :: slots) vs (w :: ws)
  | choice {slot : Slot} {v : Variant} {n : UInt16} {w : ω} {slots vs ws} :
    v ∈ slot.variants → r.number w n → (v = .c → ∃ t, r.constant n t) → WordsFit r slots vs ws →
      WordsFit r (slot :: slots) (v :: vs) (w :: ws)

/-- A place in a table stays one. -/
theorem Slot.Fits.map {ω' : Type} {f : ω → ω'} {r' : Reading ω'} (h : r.Hom f r') {slot : Slot}
    (hfits : slot.Fits r n) : slot.Fits r' n := by
  cases slot with
  | constant => exact hfits.imp fun _ => h.constant
  | imported => exact hfits.imp fun _ => h.imported
  | valueTable => exact hfits.imp fun _ => h.values
  | arityTable => exact hfits.imp fun _ => h.arities
  | _ => trivial

/-- Words that fit carry over if the labels among them do. -/
theorem WordsFit.map {ω' : Type} {f : ω → ω'} {r' : Reading ω'} (h : r.Hom f r')
    {slots : List Slot} {ws : List ω} (hfit : WordsFit r slots vs ws)
    (hlabel : ∀ w ∈ ws, ∀ n, r.label w n → r'.label (f w) n) : WordsFit r' slots vs (ws.map f) := by
  induction hfit with
  | nil => exact .nil
  | plain hne hplain hw hfits _ ih =>
    exact .plain hne hplain (h.number hw) (hfits.map h) (ih fun w hw => hlabel w (.tail _ hw))
  | label hw _ ih => exact .label (hlabel _ (.head _) _ hw) (ih fun w hw => hlabel w (.tail _ hw))
  | choice hv hw hc _ ih =>
    refine .choice hv (h.number hw) (fun hvc => ?_) (ih fun w hw => hlabel w (.tail _ hw))
    exact (hc hvc).imp fun _ => h.constant

/-- There are as many words as slots. -/
theorem WordsFit.length_eq {slots : List Slot} {ws : List ω} (h : WordsFit r slots vs ws) :
    ws.length = slots.length := by
  induction h with
  | nil => rfl
  | plain _ _ _ _ _ ih | label _ _ ih | choice _ _ _ _ ih =>
    rw [List.length_cons, List.length_cons, ih]

/-- The variants are among those that the slots allow. -/
theorem WordsFit.mem_combinations {slots : List Slot} {ws : List ω} (h : WordsFit r slots vs ws) :
    vs ∈ Opcode.combinations
      ((slots.map Slot.variants).filter fun choices => !choices.isEmpty) := by
  induction h with
  | nil => exact .head _
  | plain _ hnone _ _ _ ih =>
    rw [List.map_cons, hnone]
    exact ih
  | label _ _ ih => exact ih
  | choice hv _ _ _ ih =>
    rw [List.map_cons, List.filter_cons_of_pos, Opcode.combinations, List.mem_flatMap]
    · exact ⟨_, hv, List.mem_map_of_mem ih⟩
    · rw [Bool.not_eq_true', List.isEmpty_eq_false_iff]
      exact List.ne_nil_of_mem hv

variable {i : Instruction}

/-- A constant is taken from its place in the pool. -/
theorem OperandCoded.fits {o : Operand} {v : Variant} (h : OperandCoded r o v n) :
    v = .c → ∃ t, r.constant n t := by
  rintro rfl
  obtain ⟨t, -, ht⟩ := h
  exact ⟨t, ht⟩

/-- A number fits the slot of its field. -/
theorem NumberCoded.fits {use : OperandUse} (h : NumberCoded r i p use n) :
    ∃ slot, use.slot? = some slot ∧ slot ≠ .label ∧ slot.variants = [] ∧ slot.Fits r n := by
  cases use with
  | floatRegister k => exact ⟨.floatRegister, rfl, nofun, rfl, trivial⟩
  | stackSlot k => exact ⟨.stackSlot, rfl, nofun, rfl, trivial⟩
  | number k | arguments k extra | saveSlot k | position =>
    exact ⟨.number, rfl, nofun, rfl, trivial⟩
  | atom k =>
    obtain ⟨a, -, hconstant⟩ := h
    exact ⟨.constant, rfl, nofun, rfl, _, hconstant⟩
  | literal k =>
    obtain ⟨b, -, hconstant⟩ := h
    exact ⟨.constant, rfl, nofun, rfl, _, hconstant⟩
  | callee k count =>
    obtain ⟨id, v, -, -, -, himport⟩ := h
    exact ⟨.imported, rfl, nofun, rfl, _, himport⟩
  | builtin k arity =>
    obtain ⟨id, -, -, himport⟩ := h
    exact ⟨.imported, rfl, nofun, rfl, _, himport⟩
  | guardBuiltin k arity fail =>
    obtain ⟨id, guard, -, -, -, himport⟩ := h
    exact ⟨.imported, rfl, nofun, rfl, _, himport⟩
  | values k =>
    obtain ⟨items, table, -, -, hvalues⟩ := h
    exact ⟨.valueTable, rfl, nofun, rfl, table, hvalues⟩
  | arities k =>
    obtain ⟨items, table, -, -, harities⟩ := h
    exact ⟨.arityTable, rfl, nofun, rfl, table, harities⟩
  | source | dest | floatSource | floatDest | unused | unusedLabel | label => exact h.elim

/-- The words of fields fit their slots. -/
theorem FieldsCoded.wordsFit {ws : List ω} (h : FieldsCoded r i p uses ss vs ws) :
    WordsFit r (uses.filterMap OperandUse.slot?) vs ws := by
  induction h with
  | nil => exact .nil
  | source _ _ _ ih => exact ih
  | @choice p k use slot v n w uses ss vs ws huse hv hw ho _ ih =>
    have hslot : use.slot? = some slot := by
      cases use <;> cases huse <;> rfl
    rw [List.filterMap_cons_some hslot]
    exact .choice hv hw ho.fits ih
  | label _ hw _ ih => exact .label hw ih
  | number hw hn _ ih =>
    obtain ⟨slot, hslot, hlabel, hplain, hfits⟩ := hn.fits
    rw [List.filterMap_cons_some hslot]
    exact .plain hlabel hplain hw hfits ih
  | @unused p use uses ss vs ws huse _ ih =>
    have hslot : use.slot? = none := by
      cases use
      case unused => rfl
      case unusedLabel => rfl
      all_goals exact huse.elim
    rw [List.filterMap_cons_none hslot]
    exact ih

/-- The sources of fields are those that a source may be. -/
theorem FieldsCoded.sources {ws : List ω} (h : FieldsCoded r i p uses ss vs ws) :
    ∀ s ∈ ss, s.1 ∈ Slot.source.variants ∧ (s.1 = .c → ∃ t, r.constant s.2 t) := by
  induction h with
  | nil => exact nofun
  | source hv ho _ ih =>
    intro s hs
    cases hs with
    | head => exact ⟨hv, ho.fits⟩
    | tail _ hs => exact ih s hs
  | choice _ _ _ _ _ ih => exact ih
  | label _ _ _ ih => exact ih
  | number _ _ _ ih => exact ih
  | unused _ _ ih => exact ih

/-- There are as many sources as fields that ask for one. -/
theorem FieldsCoded.length_sources {ws : List ω} (h : FieldsCoded r i p uses ss vs ws) :
    ss.length = uses.countP OperandUse.isSource := by
  have hplain : ∀ {use : OperandUse}, use.isSource = false → ∀ uses : List OperandUse,
      (use :: uses).countP OperandUse.isSource = uses.countP OperandUse.isSource :=
    fun huse uses => List.countP_cons_of_neg (by simp [huse])
  induction h with
  | nil => rfl
  | source _ _ _ ih => rw [List.length_cons, ih, List.countP_cons_of_pos rfl]
  | @choice p k use slot v n w uses ss vs ws huse _ _ _ _ ih =>
    rw [hplain (by cases use <;> first | rfl | cases huse), ih]
  | label _ _ _ ih => rw [hplain rfl, ih]
  | @number p use n w uses ss vs ws _ hn _ ih =>
    rw [hplain (by cases use <;> first | rfl | exact hn.elim), ih]
  | @unused p use uses ss vs ws huse _ ih =>
    rw [hplain (by cases use <;> first | rfl | exact huse.elim), ih]

/-- Each position takes a word, so there are not more of them than words. -/
theorem FieldsCoded.advance_le {ws : List ω} (h : FieldsCoded r i p uses ss vs ws) :
    uses.foldl OperandUse.advance p ≤ p + ws.length := by
  induction h with
  | nil => exact Nat.le_refl _
  | source _ _ _ ih => exact ih
  | choice huse _ _ _ _ ih =>
    rw [List.foldl_cons, OperandUse.advance_eq (by rintro rfl; cases huse), List.length_cons]
    omega
  | label _ _ _ ih =>
    rw [List.length_cons]
    exact Nat.le_trans ih (by omega)
  | @number p use n w uses ss vs ws _ _ _ ih =>
    have hstep : use.advance p ≤ p + 1 := by
      by_cases huse : use = .position
      · rw [huse]; exact Nat.le_refl _
      · rw [OperandUse.advance_eq huse]; omega
    rw [List.foldl_cons, List.length_cons]
    omega
  | unused huse _ ih =>
    rw [List.foldl_cons, OperandUse.advance_eq (by rintro rfl; exact huse.elim)]
    exact ih

end Slots

/-! ## Fields that can be coded -/

namespace OperandUse.Codable

variable {i : Instruction} {use : OperandUse} {k : Nat}

/-- The operand of a source is one that a source may be. -/
theorem of_source (h : (source k).Codable i) :
    ∃ v ∈ Slot.source.variants, ∃ (r : Reading UInt16) (n : UInt16),
      OperandCoded r (Assembler.operand i k) v n := by
  obtain ⟨r, p, ss, vs, ws, hcoded⟩ := h
  cases hcoded with
  | source hv ho _ => exact ⟨_, hv, r, _, ho⟩
  | choice huse => cases huse
  | number _ hn => exact hn.elim
  | unused huse => exact huse.elim

theorem of_choice {slot : Slot} (h : use.Codable i) (huse : use.choice? = some (k, slot)) :
    ∃ v ∈ slot.variants, ∃ (r : Reading UInt16) (n : UInt16),
      OperandCoded r (Assembler.operand i k) v n := by
  obtain ⟨r, p, ss, vs, ws, hcoded⟩ := h
  cases hcoded with
  | source => cases huse
  | choice huse' hv _ ho =>
    cases huse'.symm.trans huse
    exact ⟨_, hv, r, _, ho⟩
  | label => cases huse
  | number _ hn =>
    cases use <;> cases huse <;> exact hn.elim
  | unused hunused =>
    cases use <;> cases huse <;> exact hunused.elim

/-- The operand of a label is a label. -/
theorem of_label (h : (label k).Codable i) : ∃ n, Assembler.operand i k = .label n := by
  obtain ⟨r, p, ss, vs, ws, hcoded⟩ := h
  cases hcoded with
  | choice huse => cases huse
  | label ho => exact ⟨_, ho⟩
  | number _ hn => exact hn.elim
  | unused huse => exact huse.elim

/-- A field that becomes a number has one. -/
theorem of_plain (h : use.Codable i) (huse : use.isPlain = true) :
    ∃ (r : Reading UInt16) (p : Nat) (n : UInt16), NumberCoded r i p use n := by
  obtain ⟨r, p, ss, vs, ws, hcoded⟩ := h
  cases hcoded with
  | source => cases huse
  | choice hchoice => cases use <;> cases hchoice <;> cases huse
  | label => cases huse
  | number _ hn => exact ⟨r, p, _, hn⟩
  | unused hunused => cases use <;> first | exact hunused.elim | cases huse

/-- A field that leaves nothing has its operand. -/
theorem of_unused (h : use.Codable i) (huse : use.slot? = none) (hsource : use.isSource = false) :
    UnusedCoded i use := by
  obtain ⟨r, p, ss, vs, ws, hcoded⟩ := h
  cases hcoded with
  | source => cases hsource
  | choice hchoice => cases use <;> cases hchoice <;> cases huse
  | label => cases huse
  | number _ hn =>
    obtain ⟨slot, hslot, -⟩ := hn.fits
    cases huse.symm.trans hslot
  | unused hunused => exact hunused

end OperandUse.Codable

end ErlangMachine
