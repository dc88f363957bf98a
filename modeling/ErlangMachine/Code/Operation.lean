import ErlangMachine.Code.Operand

/-!
# Operations

The operations of compiled code before it is assembled, with their names and operand counts. An
`Instruction` is an operation with its operands. Operations are numbered in the order in which they
are declared.
-/

namespace ErlangMachine

/-- What an instruction does. -/
inductive Operation where
  -- Marks in the code.
  | label | line | funcInfo | intCodeEnd
  -- Leaving and jumping.
  | ret | jump | ifEnd | badmatch | caseEnd | tryCaseEnd
  -- The stack.
  | allocate | allocateZero | allocateHeap | allocateHeapZero | testHeap | init | trim | deallocate
  -- Moving and building.
  | move | putList | getList | getTupleElement | putTuple | put | setTupleElement
  -- Tests.
  | isInteger | isFloat | isNumber | isAtom | isPid | isReference | isPort | isNil | isBinary
  | isList | isNonemptyList | isTuple | isFunction | isBoolean | isBitstr | testArity
  | isFunctionOfArity | isEqExact | isNeExact | isEq | isNe | isLt | isGe | selectVal
  | selectTupleArity
  -- Calls.
  | call | callOnly | callLast | callExt | callExtOnly | callExtLast | apply | applyLast | callFun
  | makeFun | bif0 | bif1 | bif2 | gcBif1 | gcBif2
  -- Messages.
  | send | loopRec | loopRecEnd | removeMessage | wait | waitTimeout | timeout
  -- Matching bit strings.
  | bsStartMatch | bsGetInteger | bsGetFloat | bsGetBinary | bsSkipBits | bsTestTail | bsTestUnit
  | bsMatchString | bsGetUtf8 | bsGetUtf16 | bsGetUtf32 | bsSkipUtf8 | bsSkipUtf16 | bsSkipUtf32
  | bsSave | bsRestore | bsContextToBinary
  -- Building bit strings.
  | bsInit | bsInitBits | bsInitWritable | bsPutInteger | bsPutBinary | bsPutFloat | bsPutString
  | bsPutUtf8 | bsPutUtf16 | bsPutUtf32 | bsUtf8Size | bsUtf16Size | bsAdd | bsAppend
  | bsPrivateAppend
  -- Faults.
  | catchBegin | catchEnd | tryBegin | tryEnd | tryCase | raise
  -- Floats.
  | fmove | fconv | fadd | fsub | fmul | fdiv | fnegate | fclearerror | fcheckerror
  deriving DecidableEq, Repr, Inhabited

namespace Operation

/-- All operations, in the order of their numbers. -/
def all : List Operation :=
  [label, line, funcInfo, intCodeEnd, ret, jump, ifEnd, badmatch, caseEnd, tryCaseEnd, allocate,
    allocateZero, allocateHeap, allocateHeapZero, testHeap, init, trim, deallocate, move, putList,
    getList, getTupleElement, putTuple, put, setTupleElement, isInteger, isFloat, isNumber, isAtom,
    isPid, isReference, isPort, isNil, isBinary, isList, isNonemptyList, isTuple, isFunction,
    isBoolean, isBitstr, testArity, isFunctionOfArity, isEqExact, isNeExact, isEq, isNe, isLt,
    isGe, selectVal, selectTupleArity, call, callOnly, callLast, callExt, callExtOnly, callExtLast,
    apply, applyLast, callFun, makeFun, bif0, bif1, bif2, gcBif1, gcBif2, send, loopRec,
    loopRecEnd, removeMessage, wait, waitTimeout, timeout, bsStartMatch, bsGetInteger, bsGetFloat,
    bsGetBinary, bsSkipBits, bsTestTail, bsTestUnit, bsMatchString, bsGetUtf8, bsGetUtf16,
    bsGetUtf32, bsSkipUtf8, bsSkipUtf16, bsSkipUtf32, bsSave, bsRestore, bsContextToBinary, bsInit,
    bsInitBits, bsInitWritable, bsPutInteger, bsPutBinary, bsPutFloat, bsPutString, bsPutUtf8,
    bsPutUtf16, bsPutUtf32, bsUtf8Size, bsUtf16Size, bsAdd, bsAppend, bsPrivateAppend, catchBegin,
    catchEnd, tryBegin, tryEnd, tryCase, raise, fmove, fconv, fadd, fsub, fmul, fdiv, fnegate,
    fclearerror, fcheckerror]

/-- What a listing needs to know of an operation. -/
structure Entry where
  /-- The name in listings. -/
  name : String
  /-- The number of operands. -/
  arity : Nat

/-- The table of operations. -/
def entry : Operation → Entry
  | label => ⟨"label", 1⟩
  | line => ⟨"line", 1⟩
  | funcInfo => ⟨"func_info", 3⟩
  | intCodeEnd => ⟨"int_code_end", 0⟩
  | ret => ⟨"return", 0⟩
  | jump => ⟨"jump", 1⟩
  | ifEnd => ⟨"if_end", 0⟩
  | badmatch => ⟨"badmatch", 1⟩
  | caseEnd => ⟨"case_end", 1⟩
  | tryCaseEnd => ⟨"try_case_end", 1⟩
  | allocate => ⟨"allocate", 2⟩
  | allocateZero => ⟨"allocate_zero", 2⟩
  | allocateHeap => ⟨"allocate_heap", 3⟩
  | allocateHeapZero => ⟨"allocate_heap_zero", 3⟩
  | testHeap => ⟨"test_heap", 2⟩
  | init => ⟨"init", 1⟩
  | trim => ⟨"trim", 2⟩
  | deallocate => ⟨"deallocate", 1⟩
  | move => ⟨"move", 2⟩
  | putList => ⟨"put_list", 3⟩
  | getList => ⟨"get_list", 3⟩
  | getTupleElement => ⟨"get_tuple_element", 3⟩
  | putTuple => ⟨"put_tuple", 2⟩
  | put => ⟨"put", 1⟩
  | setTupleElement => ⟨"set_tuple_element", 3⟩
  | isInteger => ⟨"is_integer", 2⟩
  | isFloat => ⟨"is_float", 2⟩
  | isNumber => ⟨"is_number", 2⟩
  | isAtom => ⟨"is_atom", 2⟩
  | isPid => ⟨"is_pid", 2⟩
  | isReference => ⟨"is_reference", 2⟩
  | isPort => ⟨"is_port", 2⟩
  | isNil => ⟨"is_nil", 2⟩
  | isBinary => ⟨"is_binary", 2⟩
  | isList => ⟨"is_list", 2⟩
  | isNonemptyList => ⟨"is_nonempty_list", 2⟩
  | isTuple => ⟨"is_tuple", 2⟩
  | isFunction => ⟨"is_function", 2⟩
  | isBoolean => ⟨"is_boolean", 2⟩
  | isBitstr => ⟨"is_bitstr", 2⟩
  | testArity => ⟨"test_arity", 3⟩
  | isFunctionOfArity => ⟨"is_function2", 3⟩
  | isEqExact => ⟨"is_eq_exact", 3⟩
  | isNeExact => ⟨"is_ne_exact", 3⟩
  | isEq => ⟨"is_eq", 3⟩
  | isNe => ⟨"is_ne", 3⟩
  | isLt => ⟨"is_lt", 3⟩
  | isGe => ⟨"is_ge", 3⟩
  | selectVal => ⟨"select_val", 3⟩
  | selectTupleArity => ⟨"select_tuple_arity", 3⟩
  | call => ⟨"call", 2⟩
  | callOnly => ⟨"call_only", 2⟩
  | callLast => ⟨"call_last", 3⟩
  | callExt => ⟨"call_ext", 2⟩
  | callExtOnly => ⟨"call_ext_only", 2⟩
  | callExtLast => ⟨"call_ext_last", 3⟩
  | apply => ⟨"apply", 1⟩
  | applyLast => ⟨"apply_last", 2⟩
  | callFun => ⟨"call_fun", 1⟩
  | makeFun => ⟨"make_fun2", 3⟩
  | bif0 => ⟨"bif0", 2⟩
  | bif1 => ⟨"bif1", 4⟩
  | bif2 => ⟨"bif2", 5⟩
  | gcBif1 => ⟨"gc_bif1", 5⟩
  | gcBif2 => ⟨"gc_bif2", 6⟩
  | send => ⟨"send", 0⟩
  | loopRec => ⟨"loop_rec", 2⟩
  | loopRecEnd => ⟨"loop_rec_end", 1⟩
  | removeMessage => ⟨"remove_message", 0⟩
  | wait => ⟨"wait", 1⟩
  | waitTimeout => ⟨"wait_timeout", 2⟩
  | timeout => ⟨"timeout", 0⟩
  | bsStartMatch => ⟨"bs_start_match2", 5⟩
  | bsGetInteger => ⟨"bs_get_integer2", 7⟩
  | bsGetFloat => ⟨"bs_get_float2", 7⟩
  | bsGetBinary => ⟨"bs_get_binary2", 7⟩
  | bsSkipBits => ⟨"bs_skip_bits2", 5⟩
  | bsTestTail => ⟨"bs_test_tail2", 3⟩
  | bsTestUnit => ⟨"bs_test_unit", 3⟩
  | bsMatchString => ⟨"bs_match_string", 3⟩
  | bsGetUtf8 => ⟨"bs_get_utf8", 5⟩
  | bsGetUtf16 => ⟨"bs_get_utf16", 5⟩
  | bsGetUtf32 => ⟨"bs_get_utf32", 5⟩
  | bsSkipUtf8 => ⟨"bs_skip_utf8", 4⟩
  | bsSkipUtf16 => ⟨"bs_skip_utf16", 4⟩
  | bsSkipUtf32 => ⟨"bs_skip_utf32", 4⟩
  | bsSave => ⟨"bs_save2", 2⟩
  | bsRestore => ⟨"bs_restore2", 2⟩
  | bsContextToBinary => ⟨"bs_context_to_binary", 1⟩
  | bsInit => ⟨"bs_init2", 6⟩
  | bsInitBits => ⟨"bs_init_bits", 6⟩
  | bsInitWritable => ⟨"bs_init_writable", 0⟩
  | bsPutInteger => ⟨"bs_put_integer", 5⟩
  | bsPutBinary => ⟨"bs_put_binary", 5⟩
  | bsPutFloat => ⟨"bs_put_float", 5⟩
  | bsPutString => ⟨"bs_put_string", 1⟩
  | bsPutUtf8 => ⟨"bs_put_utf8", 3⟩
  | bsPutUtf16 => ⟨"bs_put_utf16", 3⟩
  | bsPutUtf32 => ⟨"bs_put_utf32", 3⟩
  | bsUtf8Size => ⟨"bs_utf8_size", 3⟩
  | bsUtf16Size => ⟨"bs_utf16_size", 3⟩
  | bsAdd => ⟨"bs_add", 5⟩
  | bsAppend => ⟨"bs_append", 8⟩
  | bsPrivateAppend => ⟨"bs_private_append", 6⟩
  | catchBegin => ⟨"catch", 2⟩
  | catchEnd => ⟨"catch_end", 1⟩
  | tryBegin => ⟨"try", 2⟩
  | tryEnd => ⟨"try_end", 1⟩
  | tryCase => ⟨"try_case", 1⟩
  | raise => ⟨"raise", 2⟩
  | fmove => ⟨"fmove", 2⟩
  | fconv => ⟨"fconv", 2⟩
  | fadd => ⟨"fadd", 4⟩
  | fsub => ⟨"fsub", 4⟩
  | fmul => ⟨"fmul", 4⟩
  | fdiv => ⟨"fdiv", 4⟩
  | fnegate => ⟨"fnegate", 3⟩
  | fclearerror => ⟨"fclearerror", 0⟩
  | fcheckerror => ⟨"fcheckerror", 1⟩

/-- The name in listings. -/
def name (op : Operation) : String := op.entry.name

/-- The number of operands. -/
def arity (op : Operation) : Nat := op.entry.arity

/-- The operation's number. -/
def code (op : Operation) : Nat := all.idxOf op

/-- The operation with a given number. -/
def ofCode? (n : Nat) : Option Operation := all[n]?

/-- The operation with a given name. -/
def ofName? (name : String) : Option Operation := all.find? (·.name == name)

/-- Operations that tell the loader something and leave nothing in the code. -/
def isAnnotation : Operation → Bool
  | line | testHeap | intCodeEnd | fclearerror | fcheckerror => true
  | _ => false

end Operation

/-- An operation with its operands. -/
structure Instruction where
  /-- What to do. -/
  operation : Operation
  /-- What to do it with. -/
  operands : List Operand
  deriving Inhabited

/-- The name of the operation and, in parentheses, the operands if there are any. -/
def Instruction.text (i : Instruction) : String :=
  if i.operands.isEmpty then i.operation.name
  else i.operation.name ++ "(" ++ ", ".intercalate (i.operands.map Operand.text) ++ ")"

end ErlangMachine
