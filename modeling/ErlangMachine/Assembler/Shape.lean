import ErlangMachine.Code.Opcode
import ErlangMachine.Code.Operation

/-!
# Shapes

The shape of an operation says which family carries it out and how its operands become the words of
that family. Operands are taken in the order of the shape, which is the order of the family's layout
and need not be the order in which the instruction has them.
-/

namespace ErlangMachine

/-- What becomes of one operand, given by its index. -/
inductive OperandUse where
  /-- A source, decoded ahead of the instruction. -/
  | source (index : Nat)
  /-- A register or a stack slot. -/
  | dest (index : Nat)
  /-- A register, a stack slot, a float register or a constant. -/
  | floatSource (index : Nat)
  /-- A register, a stack slot or a float register. -/
  | floatDest (index : Nat)
  /-- A float register. -/
  | floatRegister (index : Nat)
  /-- A stack slot. -/
  | stackSlot (index : Nat)
  /-- A number. -/
  | number (index : Nat)
  /-- A count of arguments, which stand in the first registers with `extra` more after them. -/
  | arguments (index extra : Nat)
  /-- A slot of a cursor, or the atom that stands for its origin. -/
  | saveSlot (index : Nat)
  /-- A number that leaves nothing in the code. -/
  | unused (index : Nat)
  /-- A label that leaves nothing in the code. -/
  | unusedLabel (index : Nat)
  /-- A label. -/
  | label (index : Nat)
  /-- An atom, pooled. -/
  | atom (index : Nat)
  /-- A literal bit string, pooled. -/
  | literal (index : Nat)
  /-- A function of another module that takes as many arguments as the operand at `count` says. -/
  | callee (index count : Nat)
  /-- A built-in function of `arity` arguments. -/
  | builtin (index arity : Nat)
  /-- A built-in function of `arity` arguments in a test, if the operand at `fail` is a label to go
  to when it fails. -/
  | guardBuiltin (index arity fail : Nat)
  /-- Pairs of a value and a label. -/
  | values (index : Nat)
  /-- Pairs of a tuple size and a label. -/
  | arities (index : Nat)
  /-- The position of the next element of the tuple under construction. -/
  | position
  deriving DecidableEq, Repr

/-- How an operation is assembled. -/
structure Shape where
  /-- The family that carries it out. -/
  family : Family
  /-- Its operands, in the order of the family's words. -/
  fields : List OperandUse

namespace Operation

open OperandUse

/-- A test of one source. -/
def testShape (family : Family) : Shape := ⟨family, [source 1, .label 0]⟩

/-- A test of two sources. -/
def comparisonShape (family : Family) : Shape := ⟨family, [source 1, source 2, .label 0]⟩

/-- Reading a segment of a given size. -/
def getShape (family : Family) : Shape :=
  ⟨family, [unused 2, source 3, dest 1, number 4, number 5, dest 6, .label 0]⟩

/-- Reading a code point. -/
def getUtfShape (family : Family) : Shape :=
  ⟨family, [unused 2, dest 1, number 3, dest 4, .label 0]⟩

/-- Passing over a code point. -/
def skipUtfShape (family : Family) : Shape := ⟨family, [unused 2, dest 1, number 3, .label 0]⟩

/-- Writing a segment of a given size. -/
def putShape (family : Family) : Shape :=
  ⟨family, [source 1, source 4, number 2, number 3, .label 0]⟩

/-- Writing a code point. -/
def putUtfShape (family : Family) : Shape := ⟨family, [source 2, number 1, .label 0]⟩

/-- Opening a bit string under construction. -/
def initShape (family : Family) : Shape :=
  ⟨family, [unused 2, unused 3, source 1, number 4, dest 5, .label 0]⟩

/-- Float arithmetic. -/
def floatShape (family : Family) : Shape :=
  ⟨family, [unusedLabel 0, floatRegister 1, floatRegister 2, floatRegister 3]⟩

/-- How each operation is assembled. A label and an annotation have no shape. -/
def shape? : Operation → Option Shape
  | label | line | intCodeEnd | testHeap | fclearerror | fcheckerror => none
  | funcInfo => some ⟨.funcInfo, [atom 0, atom 1, number 2]⟩
  | ret => some ⟨.ret, []⟩
  | jump => some ⟨.jump, [.label 0]⟩
  | ifEnd => some ⟨.ifEnd, []⟩
  | badmatch => some ⟨.badmatch, [source 0]⟩
  | caseEnd => some ⟨.caseEnd, [source 0]⟩
  | tryCaseEnd => some ⟨.tryCaseEnd, [source 0]⟩
  | allocate => some ⟨.allocate, [number 0, unused 1]⟩
  | allocateZero => some ⟨.allocateZero, [number 0, unused 1]⟩
  | allocateHeap => some ⟨.allocate, [number 0, unused 1, unused 2]⟩
  | allocateHeapZero => some ⟨.allocateZero, [number 0, unused 1, unused 2]⟩
  | init => some ⟨.init, [dest 0]⟩
  | trim => some ⟨.trim, [number 0, unused 1]⟩
  | deallocate => some ⟨.deallocate, [number 0]⟩
  | move => some ⟨.move, [source 0, dest 1]⟩
  | putList => some ⟨.putList, [source 0, source 1, dest 2]⟩
  | getList => some ⟨.getList, [source 0, dest 1, dest 2]⟩
  | getTupleElement => some ⟨.getTupleElement, [source 0, number 1, dest 2]⟩
  | putTuple => some ⟨.putTuple, [number 0, dest 1]⟩
  | put => some ⟨.put, [source 0, position]⟩
  | setTupleElement => some ⟨.setTupleElement, [source 0, dest 1, number 2]⟩
  | isInteger => some (testShape .isInteger)
  | isFloat => some (testShape .isFloat)
  | isNumber => some (testShape .isNumber)
  | isAtom => some (testShape .isAtom)
  | isPid => some (testShape .isPid)
  | isReference => some (testShape .isReference)
  | isPort => some (testShape .isPort)
  | isNil => some (testShape .isNil)
  | isBinary => some (testShape .isBinary)
  | isList => some (testShape .isList)
  | isNonemptyList => some (testShape .isNonemptyList)
  | isTuple => some (testShape .isTuple)
  | isFunction => some (testShape .isFunction)
  | isBoolean => some (testShape .isBoolean)
  | isBitstr => some (testShape .isBitstr)
  | testArity => some ⟨.testArity, [source 1, .label 0, number 2]⟩
  | isFunctionOfArity => some (comparisonShape .isFunctionOfArity)
  | isEqExact => some (comparisonShape .isEqExact)
  | isNeExact => some (comparisonShape .isNeExact)
  | isEq => some (comparisonShape .isEq)
  | isNe => some (comparisonShape .isNe)
  | isLt => some (comparisonShape .isLt)
  | isGe => some (comparisonShape .isGe)
  | selectVal => some ⟨.selectVal, [source 0, .label 1, values 2]⟩
  | selectTupleArity => some ⟨.selectTupleArity, [source 0, .label 1, arities 2]⟩
  | call => some ⟨.call, [arguments 0 0, .label 1]⟩
  | callOnly => some ⟨.callOnly, [arguments 0 0, .label 1]⟩
  | callLast => some ⟨.callLast, [arguments 0 0, .label 1, number 2]⟩
  | callExt => some ⟨.callExt, [arguments 0 0, callee 1 0]⟩
  | callExtOnly => some ⟨.callExtOnly, [arguments 0 0, callee 1 0]⟩
  | callExtLast => some ⟨.callExtLast, [arguments 0 0, callee 1 0, number 2]⟩
  -- The module and the function to apply stand after the arguments.
  | apply => some ⟨.apply, [arguments 0 2]⟩
  | applyLast => some ⟨.applyLast, [arguments 0 2, number 1]⟩
  -- The function to call stands after the arguments.
  | callFun => some ⟨.callFun, [arguments 0 1]⟩
  | makeFun => some ⟨.makeFun, [.label 0, number 1, arguments 2 0]⟩
  | bif0 => some ⟨.bif0, [builtin 0 0, dest 1]⟩
  | bif1 => some ⟨.bif1, [source 2, guardBuiltin 1 1 0, .label 0, dest 3]⟩
  | bif2 => some ⟨.bif2, [source 2, source 3, guardBuiltin 1 2 0, .label 0, dest 4]⟩
  | gcBif1 => some ⟨.bif1, [unused 1, source 3, guardBuiltin 2 1 0, .label 0, dest 4]⟩
  | gcBif2 => some ⟨.bif2, [unused 1, source 3, source 4, guardBuiltin 2 2 0, .label 0, dest 5]⟩
  | send => some ⟨.send, []⟩
  | loopRec => some ⟨.loopRec, [.label 0, dest 1]⟩
  | loopRecEnd => some ⟨.loopRecEnd, [.label 0]⟩
  | removeMessage => some ⟨.removeMessage, []⟩
  | wait => some ⟨.wait, [.label 0]⟩
  | waitTimeout => some ⟨.waitTimeout, [source 1, .label 0]⟩
  | timeout => some ⟨.timeout, []⟩
  | bsStartMatch => some ⟨.bsStartMatch, [unused 2, source 1, .label 0, number 3, dest 4]⟩
  | bsGetInteger => some (getShape .bsGetInteger)
  | bsGetFloat => some (getShape .bsGetFloat)
  | bsGetBinary => some (getShape .bsGetBinary)
  | bsSkipBits => some ⟨.bsSkipBits, [source 2, dest 1, number 3, number 4, .label 0]⟩
  | bsTestTail => some ⟨.bsTestTail, [dest 1, number 2, .label 0]⟩
  | bsTestUnit => some ⟨.bsTestUnit, [dest 1, number 2, .label 0]⟩
  | bsMatchString => some ⟨.bsMatchString, [dest 1, literal 2, .label 0]⟩
  | bsGetUtf8 => some (getUtfShape .bsGetUtf8)
  | bsGetUtf16 => some (getUtfShape .bsGetUtf16)
  | bsGetUtf32 => some (getUtfShape .bsGetUtf32)
  | bsSkipUtf8 => some (skipUtfShape .bsSkipUtf8)
  | bsSkipUtf16 => some (skipUtfShape .bsSkipUtf16)
  | bsSkipUtf32 => some (skipUtfShape .bsSkipUtf32)
  | bsSave => some ⟨.bsSave, [dest 0, saveSlot 1]⟩
  | bsRestore => some ⟨.bsRestore, [dest 0, saveSlot 1]⟩
  | bsContextToBinary => some ⟨.bsContextToBinary, [dest 0]⟩
  | bsInit => some (initShape .bsInit)
  | bsInitBits => some (initShape .bsInitBits)
  | bsInitWritable => some ⟨.bsInitWritable, []⟩
  | bsPutInteger => some (putShape .bsPutInteger)
  | bsPutBinary => some (putShape .bsPutBinary)
  | bsPutFloat => some (putShape .bsPutFloat)
  | bsPutString => some ⟨.bsPutString, [literal 0]⟩
  | bsPutUtf8 => some (putUtfShape .bsPutUtf8)
  | bsPutUtf16 => some (putUtfShape .bsPutUtf16)
  | bsPutUtf32 => some (putUtfShape .bsPutUtf32)
  | bsUtf8Size => some ⟨.bsUtf8Size, [source 1, dest 2, .label 0]⟩
  | bsUtf16Size => some ⟨.bsUtf16Size, [source 1, dest 2, .label 0]⟩
  | bsAdd => some ⟨.bsAdd, [source 1, source 2, number 3, dest 4, .label 0]⟩
  | bsAppend =>
    some ⟨.bsAppend,
      [unused 2, unused 3, source 1, source 5, number 4, number 6, dest 7, .label 0]⟩
  | bsPrivateAppend =>
    some ⟨.bsPrivateAppend, [source 1, source 3, number 2, number 4, dest 5, .label 0]⟩
  | catchBegin => some ⟨.catchBegin, [stackSlot 0, .label 1]⟩
  | catchEnd => some ⟨.catchEnd, [stackSlot 0]⟩
  | tryBegin => some ⟨.tryBegin, [stackSlot 0, .label 1]⟩
  | tryEnd => some ⟨.tryEnd, [stackSlot 0]⟩
  | tryCase => some ⟨.tryCase, [stackSlot 0]⟩
  | raise => some ⟨.raise, [source 0, source 1]⟩
  | fmove => some ⟨.fmove, [floatSource 0, floatDest 1]⟩
  | fconv => some ⟨.fconv, [floatSource 0, floatDest 1]⟩
  | fadd => some (floatShape .fadd)
  | fsub => some (floatShape .fsub)
  | fmul => some (floatShape .fmul)
  | fdiv => some (floatShape .fdiv)
  | fnegate => some ⟨.fnegate, [unusedLabel 0, floatRegister 1, floatRegister 2]⟩

end Operation

end ErlangMachine
