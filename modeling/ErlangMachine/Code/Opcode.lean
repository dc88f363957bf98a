import ErlangMachine.Code.Operand

/-!
# Opcodes

Assembled code is a sequence of words. An instruction is one opcode word followed by the operand
words of its family, whose `layout` says what each of them means. Where a word may stand for
different things, such as a register or a stack slot, the family has one opcode for each
combination. `Opcode.table` lists all opcodes; an opcode's number is its place in the table.

Sources are decoded ahead of the instruction that uses them, by the two prefetch families at the end
of the table.
-/

namespace ErlangMachine

/-- What the variable operand words of an opcode stand for. -/
inductive Variant where
  /-- A register. -/
  | x
  /-- A stack slot. -/
  | y
  /-- A constant. -/
  | c
  /-- A float register. -/
  | f
  deriving DecidableEq, Repr, Inhabited

/-- The letter of a variant in the name of an opcode. -/
def Variant.letter : Variant → Char
  | x => 'x'
  | y => 'y'
  | c => 'c'
  | f => 'f'

/-- The meaning of one operand word. -/
inductive Slot where
  /-- A number. -/
  | number
  /-- A code offset, or none. -/
  | label
  /-- A register or a stack slot. -/
  | dest
  /-- A register, a stack slot or a constant. -/
  | source
  /-- A register, a stack slot, a constant or a float register. -/
  | floatSource
  /-- A register, a stack slot or a float register. -/
  | floatDest
  /-- A float register. -/
  | floatRegister
  /-- A stack slot. -/
  | stackSlot
  /-- A place in the pool of constants. -/
  | constant
  /-- A table of values to jump by. -/
  | valueTable
  /-- A table of tuple sizes to jump by. -/
  | arityTable
  /-- A place in the table of imports. -/
  | imported
  deriving DecidableEq, Repr

/-- The variants of a word that may stand for different things; none for the others. -/
def Slot.variants : Slot → List Variant
  | dest => [.x, .y]
  | source => [.x, .y, .c]
  | floatSource => [.x, .y, .c, .f]
  | floatDest => [.x, .y, .f]
  | _ => []

/-- Opcodes that do the same and differ only in their variants. -/
inductive Family where
  | ret | send | removeMessage | timeout | ifEnd | funcInfo | badmatch | caseEnd | tryCaseEnd
  | jump | allocate | allocateZero | deallocate | trim | init | move | putList | getList
  | getTupleElement | putTuple | put | setTupleElement | isInteger | isFloat | isNumber | isAtom
  | isPid | isReference | isPort | isNil | isBinary | isList | isNonemptyList | isTuple
  | isFunction | isBoolean | isBitstr | testArity | isFunctionOfArity | isEqExact | isNeExact
  | isEq | isNe | isLt | isGe | selectVal | selectTupleArity | call | callOnly | callLast | callExt
  | callExtOnly | callExtLast | apply | applyLast | callFun | makeFun | bif0 | bif1 | bif2
  | loopRec | loopRecEnd | wait | waitTimeout | bsStartMatch | bsGetInteger | bsGetFloat
  | bsGetBinary | bsSkipBits | bsTestTail | bsTestUnit | bsMatchString | bsGetUtf8 | bsGetUtf16
  | bsGetUtf32 | bsSkipUtf8 | bsSkipUtf16 | bsSkipUtf32 | bsSave | bsRestore | bsContextToBinary
  | bsInit | bsInitBits | bsInitWritable | bsPutInteger | bsPutBinary | bsPutFloat | bsPutString
  | bsPutUtf8 | bsPutUtf16 | bsPutUtf32 | bsUtf8Size | bsUtf16Size | bsAdd | bsAppend
  | bsPrivateAppend | catchBegin | catchEnd | tryBegin | tryEnd | tryCase | raise | fmove | fconv
  | fadd | fsub | fmul | fdiv | fnegate | fetchOne | fetchTwo | ensureCapacity
  deriving DecidableEq, Repr, Inhabited

namespace Family

/-- All families, in the order of their numbers. -/
def all : List Family :=
  [ret, send, removeMessage, timeout, ifEnd, funcInfo, badmatch, caseEnd, tryCaseEnd, jump,
    allocate, allocateZero, deallocate, trim, init, move, putList, getList, getTupleElement,
    putTuple, put, setTupleElement, isInteger, isFloat, isNumber, isAtom, isPid, isReference,
    isPort, isNil, isBinary, isList, isNonemptyList, isTuple, isFunction, isBoolean, isBitstr,
    testArity, isFunctionOfArity, isEqExact, isNeExact, isEq, isNe, isLt, isGe, selectVal,
    selectTupleArity, call, callOnly, callLast, callExt, callExtOnly, callExtLast, apply,
    applyLast, callFun, makeFun, bif0, bif1, bif2, loopRec, loopRecEnd, wait, waitTimeout,
    bsStartMatch, bsGetInteger, bsGetFloat, bsGetBinary, bsSkipBits, bsTestTail, bsTestUnit,
    bsMatchString, bsGetUtf8, bsGetUtf16, bsGetUtf32, bsSkipUtf8, bsSkipUtf16, bsSkipUtf32, bsSave,
    bsRestore, bsContextToBinary, bsInit, bsInitBits, bsInitWritable, bsPutInteger, bsPutBinary,
    bsPutFloat, bsPutString, bsPutUtf8, bsPutUtf16, bsPutUtf32, bsUtf8Size, bsUtf16Size, bsAdd,
    bsAppend, bsPrivateAppend, catchBegin, catchEnd, tryBegin, tryEnd, tryCase, raise, fmove,
    fconv, fadd, fsub, fmul, fdiv, fnegate, fetchOne, fetchTwo, ensureCapacity]

/-- What the code needs to know of a family. -/
structure Entry where
  /-- The name. -/
  name : String
  /-- The operand words after the opcode. -/
  layout : List Slot

/-- The table of families. -/
def entry : Family → Entry
  | ret => ⟨"return", []⟩
  | send => ⟨"send", []⟩
  | removeMessage => ⟨"remove_message", []⟩
  | timeout => ⟨"timeout", []⟩
  | ifEnd => ⟨"if_end", []⟩
  | funcInfo => ⟨"func_info", [.constant, .constant, .number]⟩
  | badmatch => ⟨"badmatch", []⟩
  | caseEnd => ⟨"case_end", []⟩
  | tryCaseEnd => ⟨"try_case_end", []⟩
  | jump => ⟨"jump", [.label]⟩
  | allocate => ⟨"allocate", [.number]⟩
  | allocateZero => ⟨"allocate_zero", [.number]⟩
  | deallocate => ⟨"deallocate", [.number]⟩
  | trim => ⟨"trim", [.number]⟩
  | init => ⟨"init", [.dest]⟩
  | move => ⟨"move", [.dest]⟩
  | putList => ⟨"put_list", [.dest]⟩
  | getList => ⟨"get_list", [.dest, .dest]⟩
  | getTupleElement => ⟨"get_tuple_element", [.number, .dest]⟩
  | putTuple => ⟨"put_tuple", [.number, .dest]⟩
  | put => ⟨"put", [.number]⟩
  | setTupleElement => ⟨"set_tuple_element", [.dest, .number]⟩
  | isInteger => ⟨"is_integer", [.label]⟩
  | isFloat => ⟨"is_float", [.label]⟩
  | isNumber => ⟨"is_number", [.label]⟩
  | isAtom => ⟨"is_atom", [.label]⟩
  | isPid => ⟨"is_pid", [.label]⟩
  | isReference => ⟨"is_reference", [.label]⟩
  | isPort => ⟨"is_port", [.label]⟩
  | isNil => ⟨"is_nil", [.label]⟩
  | isBinary => ⟨"is_binary", [.label]⟩
  | isList => ⟨"is_list", [.label]⟩
  | isNonemptyList => ⟨"is_nonempty_list", [.label]⟩
  | isTuple => ⟨"is_tuple", [.label]⟩
  | isFunction => ⟨"is_function", [.label]⟩
  | isBoolean => ⟨"is_boolean", [.label]⟩
  | isBitstr => ⟨"is_bitstr", [.label]⟩
  | testArity => ⟨"test_arity", [.label, .number]⟩
  | isFunctionOfArity => ⟨"is_function2", [.label]⟩
  | isEqExact => ⟨"is_eq_exact", [.label]⟩
  | isNeExact => ⟨"is_ne_exact", [.label]⟩
  | isEq => ⟨"is_eq", [.label]⟩
  | isNe => ⟨"is_ne", [.label]⟩
  | isLt => ⟨"is_lt", [.label]⟩
  | isGe => ⟨"is_ge", [.label]⟩
  | selectVal => ⟨"select_val", [.label, .valueTable]⟩
  | selectTupleArity => ⟨"select_tuple_arity", [.label, .arityTable]⟩
  | call => ⟨"call", [.number, .label]⟩
  | callOnly => ⟨"call_only", [.number, .label]⟩
  | callLast => ⟨"call_last", [.number, .label, .number]⟩
  | callExt => ⟨"call_ext", [.number, .imported]⟩
  | callExtOnly => ⟨"call_ext_only", [.number, .imported]⟩
  | callExtLast => ⟨"call_ext_last", [.number, .imported, .number]⟩
  | apply => ⟨"apply", [.number]⟩
  | applyLast => ⟨"apply_last", [.number, .number]⟩
  | callFun => ⟨"call_fun", [.number]⟩
  | makeFun => ⟨"make_fun", [.label, .number, .number]⟩
  | bif0 => ⟨"bif0", [.imported, .dest]⟩
  | bif1 => ⟨"bif1", [.imported, .label, .dest]⟩
  | bif2 => ⟨"bif2", [.imported, .label, .dest]⟩
  | loopRec => ⟨"loop_rec", [.label, .dest]⟩
  | loopRecEnd => ⟨"loop_rec_end", [.label]⟩
  | wait => ⟨"wait", [.label]⟩
  | waitTimeout => ⟨"wait_timeout", [.label]⟩
  | bsStartMatch => ⟨"bs_start_match", [.label, .number, .dest]⟩
  | bsGetInteger => ⟨"bs_get_integer", [.dest, .number, .number, .dest, .label]⟩
  | bsGetFloat => ⟨"bs_get_float", [.dest, .number, .number, .dest, .label]⟩
  | bsGetBinary => ⟨"bs_get_binary", [.dest, .number, .number, .dest, .label]⟩
  | bsSkipBits => ⟨"bs_skip_bits", [.dest, .number, .number, .label]⟩
  | bsTestTail => ⟨"bs_test_tail", [.dest, .number, .label]⟩
  | bsTestUnit => ⟨"bs_test_unit", [.dest, .number, .label]⟩
  | bsMatchString => ⟨"bs_match_string", [.dest, .constant, .label]⟩
  | bsGetUtf8 => ⟨"bs_get_utf8", [.dest, .number, .dest, .label]⟩
  | bsGetUtf16 => ⟨"bs_get_utf16", [.dest, .number, .dest, .label]⟩
  | bsGetUtf32 => ⟨"bs_get_utf32", [.dest, .number, .dest, .label]⟩
  | bsSkipUtf8 => ⟨"bs_skip_utf8", [.dest, .number, .label]⟩
  | bsSkipUtf16 => ⟨"bs_skip_utf16", [.dest, .number, .label]⟩
  | bsSkipUtf32 => ⟨"bs_skip_utf32", [.dest, .number, .label]⟩
  | bsSave => ⟨"bs_save", [.dest, .number]⟩
  | bsRestore => ⟨"bs_restore", [.dest, .number]⟩
  | bsContextToBinary => ⟨"bs_context_to_binary", [.dest]⟩
  | bsInit => ⟨"bs_init", [.number, .dest, .label]⟩
  | bsInitBits => ⟨"bs_init_bits", [.number, .dest, .label]⟩
  | bsInitWritable => ⟨"bs_init_writable", []⟩
  | bsPutInteger => ⟨"bs_put_integer", [.number, .number, .label]⟩
  | bsPutBinary => ⟨"bs_put_binary", [.number, .number, .label]⟩
  | bsPutFloat => ⟨"bs_put_float", [.number, .number, .label]⟩
  | bsPutString => ⟨"bs_put_string", [.constant]⟩
  | bsPutUtf8 => ⟨"bs_put_utf8", [.number, .label]⟩
  | bsPutUtf16 => ⟨"bs_put_utf16", [.number, .label]⟩
  | bsPutUtf32 => ⟨"bs_put_utf32", [.number, .label]⟩
  | bsUtf8Size => ⟨"bs_utf8_size", [.dest, .label]⟩
  | bsUtf16Size => ⟨"bs_utf16_size", [.dest, .label]⟩
  | bsAdd => ⟨"bs_add", [.number, .dest, .label]⟩
  | bsAppend => ⟨"bs_append", [.number, .number, .dest, .label]⟩
  | bsPrivateAppend => ⟨"bs_private_append", [.number, .number, .dest, .label]⟩
  | catchBegin => ⟨"catch", [.stackSlot, .label]⟩
  | catchEnd => ⟨"catch_end", [.stackSlot]⟩
  | tryBegin => ⟨"try", [.stackSlot, .label]⟩
  | tryEnd => ⟨"try_end", [.stackSlot]⟩
  | tryCase => ⟨"try_case", [.stackSlot]⟩
  | raise => ⟨"raise", []⟩
  | fmove => ⟨"fmove", [.floatSource, .floatDest]⟩
  | fconv => ⟨"fconv", [.floatSource, .floatDest]⟩
  | fadd => ⟨"fadd", [.floatRegister, .floatRegister, .floatRegister]⟩
  | fsub => ⟨"fsub", [.floatRegister, .floatRegister, .floatRegister]⟩
  | fmul => ⟨"fmul", [.floatRegister, .floatRegister, .floatRegister]⟩
  | fdiv => ⟨"fdiv", [.floatRegister, .floatRegister, .floatRegister]⟩
  | fnegate => ⟨"fnegate", [.floatRegister, .floatRegister]⟩
  | fetchOne => ⟨"fetch_s", [.source]⟩
  | fetchTwo => ⟨"fetch_ss", [.source, .source]⟩
  | ensureCapacity => ⟨"ensure_capacity", [.number]⟩

/-- The name of a family. -/
def name (f : Family) : String := f.entry.name

/-- The operand words of a family. -/
def layout (f : Family) : List Slot := f.entry.layout

/-- The family's number. -/
def code (f : Family) : Nat := all.idxOf f

/-- The family with a given name. -/
def ofName? (name : String) : Option Family := all.find? (·.name == name)

/-- The choices at each operand word that has some. -/
def choices (f : Family) : List (List Variant) :=
  (f.layout.map Slot.variants).filter fun vs => !vs.isEmpty

/-- The number of opcodes of a family. -/
def width (f : Family) : Nat := (f.choices.map List.length).foldl (· * ·) 1

/-- Whether the family decodes sources for the instruction after it. -/
def isPrefetch (f : Family) : Bool := f = fetchOne || f = fetchTwo

end Family

/-- A family with the variants of its words. -/
structure Opcode where
  /-- The family. -/
  family : Family
  /-- One variant for each word that has a choice. -/
  variants : List Variant
  deriving DecidableEq, Repr, Inhabited

namespace Opcode

/-- All ways to choose one variant at each place, the first place counting most. -/
def combinations : List (List Variant) → List (List Variant)
  | [] => [[]]
  | vs :: rest => vs.flatMap fun v => (combinations rest).map (v :: ·)

/-- All opcodes, in the order of their numbers. -/
def table : List Opcode := Family.all.flatMap fun f => (combinations f.choices).map (⟨f, ·⟩)

/-- The opcodes by number. -/
def byNumber : Array Opcode := table.toArray

/-- The number of an opcode, if there is such an opcode. -/
def number? (o : Opcode) : Option Nat := table.idxOf? o

/-- The opcode with a given number. -/
def ofWord? (word : UInt16) : Option Opcode := byNumber[word.toNat]?

/-- The numbers of the prefetch opcodes: the first, and the one after the last. -/
def prefetchRange : Nat × Nat :=
  let first := table.findIdx (·.family.isPrefetch)
  (first, first + table.countP (·.family.isPrefetch))

/-- The variant of the `k`-th word with a choice. -/
def variant (o : Opcode) (k : Nat) : Variant := o.variants.getD k .x

/-- The family's name and, after it, the letters of the variants. -/
def text (o : Opcode) : String :=
  if o.variants.isEmpty then o.family.name
  else o.family.name ++ "_" ++ String.ofList (o.variants.map Variant.letter)

end Opcode

/-- The label word that stands for no label. -/
def noLabel : UInt16 := 65535

end ErlangMachine
