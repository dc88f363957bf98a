import ErlangMachine.Code.Opcode
import ErlangMachine.Term.Order

/-!
# Commands

A command is an instruction of assembled code, read from its opcode and operand words.
-/

namespace ErlangMachine.Machine

/-- Where a term can be written. -/
inductive Place where
  /-- A register. -/
  | x (n : Nat)
  /-- A stack slot, counted from the top. -/
  | y (n : Nat)
  deriving DecidableEq, Repr, Inhabited

/-- Where a term can be read. -/
inductive Source where
  /-- A register or a stack slot. -/
  | place (slot : Place)
  /-- A constant. -/
  | constant (index : Nat)
  /-- A float register. -/
  | float (n : Nat)
  deriving DecidableEq, Repr, Inhabited

/-- Where a float can be written. -/
inductive FloatPlace where
  /-- A register or a stack slot. -/
  | place (slot : Place)
  /-- A float register. -/
  | float (n : Nat)
  deriving DecidableEq, Repr, Inhabited

/-- A question about two terms. -/
inductive Comparison where
  /-- Are they identical? -/
  | eqExact
  /-- Are they not identical? -/
  | neExact
  /-- Are they equal in the order of terms? -/
  | eq
  /-- Are they unequal in the order of terms? -/
  | ne
  /-- Is the first less? -/
  | lt
  /-- Is the first not less? -/
  | ge
  deriving DecidableEq, Repr

/-- The answer: two of the questions ask for identity, the others for the order. -/
def Comparison.holds (c : Comparison) (a b : Term) : Bool :=
  match c with
  | eqExact => a.exactEq b
  | neExact => !a.exactEq b
  | eq => a.compare b == .eq
  | ne => a.compare b != .eq
  | lt => a.compare b == .lt
  | ge => a.compare b != .lt

/-- An operation on two floats. -/
inductive FloatOperation where
  /-- The sum. -/
  | add
  /-- The difference. -/
  | sub
  /-- The product. -/
  | mul
  /-- The quotient. -/
  | div
  deriving DecidableEq, Repr

/-- The result of a float operation, finite or not. -/
def FloatOperation.apply : FloatOperation → Binary64 → Binary64 → Binary64
  | add => Binary64.add
  | sub => Binary64.sub
  | mul => Binary64.mul
  | div => Binary64.div

/-- What to call. -/
inductive Callee where
  /-- The function of this module at a code offset. -/
  | offset (arity target : Nat)
  /-- An import. -/
  | imported (arity index : Nat)
  /-- The function whose module and name stand in the registers after the arguments. -/
  | named (arity : Nat)
  /-- The function that stands in the register after the arguments. -/
  | value (arity : Nat)
  deriving DecidableEq, Repr

/-- What becomes of the calling activation. -/
inductive CallMode where
  /-- It waits for the result. -/
  | nested
  /-- It ends, after releasing stack slots where it says so. -/
  | tail (release : Option Nat)
  deriving DecidableEq, Repr

/-- The type of a segment of a bit string. -/
inductive SegmentType where
  /-- An integer. -/
  | integer
  /-- A float in single or double precision. -/
  | float
  /-- A bit string. -/
  | bits
  deriving DecidableEq, Repr

/-- A form of Unicode text. -/
inductive Utf where
  /-- One to four bytes for a character. -/
  | utf8
  /-- One or two units of 16 bits for a character. -/
  | utf16
  /-- 32 bits for a character. -/
  | utf32
  deriving DecidableEq, Repr

/-- A command that matches a bit string. It goes on at its fail label if the bits do not match. -/
inductive MatchCommand where
  /-- Puts a cursor on the source, with some slots for positions. -/
  | start (fail : Option Nat) (slots : Nat) (dest : Place)
  /-- Reads a segment whose size the source gives. -/
  | get (type : SegmentType) (cursor : Place) (unit : Nat) (encoding : Encoding) (dest : Place)
    (fail : Option Nat)
  /-- Passes over a segment whose size the source gives. -/
  | skip (cursor : Place) (unit : Nat) (fail : Option Nat)
  /-- Tests for the number of bits that are left. -/
  | testTail (cursor : Place) (size : Nat) (fail : Option Nat)
  /-- Tests whether the number of bits that are left is a multiple of a unit. -/
  | testUnit (cursor : Place) (unit : Nat) (fail : Option Nat)
  /-- Passes over the bits of a constant. -/
  | literal (cursor : Place) (constant : Nat) (fail : Option Nat)
  /-- Reads a character. -/
  | getUtf (form : Utf) (cursor : Place) (encoding : Encoding) (dest : Place) (fail : Option Nat)
  /-- Passes over a character. -/
  | skipUtf (form : Utf) (cursor : Place) (encoding : Encoding) (fail : Option Nat)
  /-- Keeps the position of the cursor. -/
  | save (cursor : Place) (slot : Int)
  /-- Goes back to a position kept before. -/
  | restore (cursor : Place) (slot : Int)
  /-- Turns a cursor back into a bit string. -/
  | toBits (slot : Place)
  deriving Repr

/-- A command that builds a bit string. It goes on at its fail label if a value does not fit. -/
inductive BuildCommand where
  /-- Opens a bit string of the size that the source gives. -/
  | init (unit : Nat) (dest : Place) (fail : Option Nat)
  /-- Puts an empty bit string into the first register. -/
  | initWritable
  /-- Opens a bit string that extends another one. -/
  | append (unit : Nat) (dest : Place) (fail : Option Nat)
  /-- Adds a segment: the first source is its size, the second its value. -/
  | put (type : SegmentType) (unit : Nat) (encoding : Encoding) (fail : Option Nat)
  /-- Adds the bits of a constant. -/
  | putLiteral (constant : Nat)
  /-- Adds a character. -/
  | putUtf (form : Utf) (encoding : Encoding) (fail : Option Nat)
  /-- The number of bytes of a character in UTF-8. -/
  | utf8Size (dest : Place) (fail : Option Nat)
  /-- The number of bytes of a character in UTF-16. -/
  | utf16Size (dest : Place) (fail : Option Nat)
  /-- The first source plus a multiple of the second. -/
  | add (unit : Nat) (dest : Place) (fail : Option Nat)
  deriving Repr

/-- A command of the machine. Most take their sources from the prefetch command before them. -/
inductive Command where
  /-- Reads one source or two for the command after it. -/
  | fetch (first : Source) (second : Option Source)
  /-- Makes sure that there are `n` registers. -/
  | ensureRegisters (n : Nat)
  /-- Ends the activation with the first register as its result. -/
  | ret
  /-- Goes on elsewhere. -/
  | jump (target : Nat)
  /-- No clause of the function matches. -/
  | functionClause
  /-- No branch of an `if` holds. -/
  | ifEnd
  /-- The source does not match a pattern. -/
  | badmatch
  /-- The source matches no clause of a `case`. -/
  | caseEnd
  /-- The source matches no clause of a `try`. -/
  | tryCaseEnd
  /-- Takes stack slots. -/
  | allocate (n : Nat)
  /-- Gives stack slots back. -/
  | release (n : Nat)
  /-- Clears a place. -/
  | init (dest : Place)
  /-- Copies the source. -/
  | move (dest : Place)
  /-- Makes a list cell of both sources. -/
  | putList (dest : Place)
  /-- Takes a list cell apart. -/
  | getList (head tail : Place)
  /-- Copies an element of a tuple, counted from zero. -/
  | getElement (index : Nat) (dest : Place)
  /-- Opens a tuple. -/
  | beginTuple (arity : Nat) (dest : Place)
  /-- Adds the source to the open tuple, at a position counted from one. -/
  | putElement (position : Nat)
  /-- Replaces an element of a tuple, counted from zero. -/
  | setElement (slot : Place) (index : Nat)
  /-- Tests the type of the source. -/
  | typeTest (test : TypeTest) (fail : Option Nat)
  /-- Tests for a tuple of some size. -/
  | testArity (fail : Option Nat) (arity : Nat)
  /-- Tests for a function of as many arguments as the second source says. -/
  | testFunctionArity (fail : Option Nat)
  /-- Compares both sources. -/
  | compare (comparison : Comparison) (fail : Option Nat)
  /-- Goes on where a table says for the source. -/
  | selectValue (default table : Nat)
  /-- Goes on where a table says for the size of the source. -/
  | selectArity (default table : Nat)
  /-- Calls a function. -/
  | call (callee : Callee) (mode : CallMode)
  /-- Makes a function that captures the first registers. -/
  | makeFun (entry arity captured : Nat)
  /-- Calls a native on the sources. -/
  | native (arguments index : Nat) (fail : Option Nat) (dest : Place)
  /-- Sends the second register to the first. -/
  | send
  /-- Looks at the message at the cursor, or goes elsewhere if there is none. -/
  | loopReceive (target : Nat) (dest : Place)
  /-- Passes over the message at the cursor. -/
  | loopReceiveEnd (target : Nat)
  /-- Takes the message at the cursor out. -/
  | removeMessage
  /-- Goes back to the oldest message. -/
  | timeout
  /-- Waits for a message. -/
  | wait (target : Nat)
  /-- Waits for a message for as long as the source says. -/
  | waitTimeout (target : Nat)
  /-- Begins a protected region. -/
  | protect (kind : HandlerKind) (slot target : Nat)
  /-- Ends a protected region. -/
  | unprotect (slot : Nat)
  /-- Raises a fault again: its trace and its reason are the sources. -/
  | raise
  /-- Copies a float. -/
  | floatMove (source : Source) (dest : FloatPlace)
  /-- Converts a number to a float. -/
  | floatConvert (source : Source) (dest : FloatPlace)
  /-- Works on two float registers. -/
  | floatOperation (operation : FloatOperation) (a b dest : Nat)
  /-- Negates a float register. -/
  | floatNegate (a dest : Nat)
  /-- Matches a bit string. -/
  | matching (command : MatchCommand)
  /-- Builds a bit string. -/
  | building (command : BuildCommand)
  deriving Repr

/-! ## Reading operand words -/

/-- Why operand words make no command. -/
inductive DecodeError where
  /-- The code ends before the instruction does. -/
  | missingWord
  /-- There is no label where one is needed. -/
  | missingLabel
  deriving DecidableEq, Repr

/-- The operand words that are still to be read, which stand in the code from an offset on. Where an
instruction ends is not said: it takes as many words as it reads. -/
structure Operands where
  /-- The code. -/
  code : Array UInt16
  /-- The offset of the next word. -/
  pc : Nat
  /-- The variants of the words that have a choice. -/
  variants : List Variant

/-- Reads operand words in their order. -/
abbrev Decode := StateT Operands (Except DecodeError)

namespace Decode

/-- The next word. -/
def word : Decode UInt16 := fun o =>
  match o.code[o.pc]? with
  | some w => .ok (w, { o with pc := o.pc + 1 })
  | none => .error .missingWord

/-- The next word as a number. -/
def number : Decode Nat := UInt16.toNat <$> word

/-- The next word as a label. -/
def label : Decode (Option Nat) := fun o => do
  let (w, o) ← word o
  return (if w = noLabel then none else some w.toNat, o)

/-- The next word as a label that must not be missing. -/
def target : Decode Nat := fun o => do
  match ← label o with
  | (some l, o) => return (l, o)
  | (none, _) => .error .missingLabel

/-- The variant of the next word with a choice. -/
def variant : Decode Variant := fun o =>
  .ok (o.variants.headD .x, { o with variants := o.variants.tail })

/-- The next word as a place to write to. -/
def place : Decode Place := do
  let v ← variant
  let n ← number
  return if v = .y then .y n else .x n

/-- The next word as a source. -/
def source : Decode Source := do
  let v ← variant
  let n ← number
  return match v with
    | .x => .place (.x n)
    | .y => .place (.y n)
    | .c => .constant n
    | .f => .float n

/-- The next word as a place for a float. -/
def floatPlace : Decode FloatPlace := do
  let v ← variant
  let n ← number
  return match v with
    | .f => .float n
    | .y => .place (.y n)
    | _ => .place (.x n)

/-- The next word as the flags of a segment. -/
def encoding : Decode Encoding := Encoding.ofFlags <$> word

/-- The next word as a position in a cursor, in two's complement. -/
def position : Decode Int := (fun w => w.toInt16.toInt) <$> word

end Decode

namespace Command

open Decode

/-- A command that reads a segment. -/
def decodeGet (type : SegmentType) : Decode Command := do
  let cursor ← place
  let unit ← number
  let encoding ← encoding
  let dest ← place
  return .matching (.get type cursor unit encoding dest (← label))

/-- A command that reads a character. -/
def decodeGetUtf (form : Utf) : Decode Command := do
  let cursor ← place
  let encoding ← encoding
  let dest ← place
  return .matching (.getUtf form cursor encoding dest (← label))

/-- A command that skips a character. -/
def decodeSkipUtf (form : Utf) : Decode Command := do
  let cursor ← place
  let encoding ← encoding
  return .matching (.skipUtf form cursor encoding (← label))

/-- A command that opens a bit string of a size in some unit. -/
def decodeInit (unit : Nat) : Decode Command := do
  let _ ← word
  let dest ← place
  return .building (.init unit dest (← label))

/-- A command that extends a bit string. -/
def decodeAppend : Decode Command := do
  let unit ← number
  let _ ← word
  let dest ← place
  return .building (.append unit dest (← label))

/-- A command that writes a segment. -/
def decodePut (type : SegmentType) : Decode Command := do
  let unit ← number
  let encoding ← encoding
  return .building (.put type unit encoding (← label))

/-- A command that writes a character. -/
def decodePutUtf (form : Utf) : Decode Command := do
  let encoding ← encoding
  return .building (.putUtf form encoding (← label))

/-- A call of a function of this module. -/
def decodeCall (mode : Decode CallMode) : Decode Command := do
  let arity ← number
  let entry ← target
  return .call (.offset arity entry) (← mode)

/-- A call of an import. -/
def decodeCallExt (mode : Decode CallMode) : Decode Command := do
  let arity ← number
  let index ← number
  return .call (.imported arity index) (← mode)

/-- A call that releases stack slots first. -/
def releasing : Decode CallMode := return .tail (some (← number))

/-- A call of a native. -/
def decodeNative (arguments : Nat) : Decode Command := do
  let index ← number
  let fail ← label
  return .native arguments index fail (← place)

/-- An operation on two float registers. -/
def decodeFloat (operation : FloatOperation) : Decode Command := do
  let a ← number
  let b ← number
  return .floatOperation operation a b (← number)

/-- Reads the operands of a family. -/
def decode : Family → Decode Command
  | .fetchOne => return .fetch (← source) none
  | .fetchTwo => do
    let first ← source
    return .fetch first (some (← source))
  | .ensureCapacity => return .ensureRegisters (← number)
  | .ret => return .ret
  | .jump => return .jump (← target)
  | .funcInfo => do
    let _ ← word
    let _ ← word
    let _ ← word
    return .functionClause
  | .ifEnd => return .ifEnd
  | .badmatch => return .badmatch
  | .caseEnd => return .caseEnd
  | .tryCaseEnd => return .tryCaseEnd
  | .allocate | .allocateZero => return .allocate (← number)
  | .deallocate | .trim => return .release (← number)
  | .init => return .init (← place)
  | .move => return .move (← place)
  | .putList => return .putList (← place)
  | .getList => do
    let head ← place
    return .getList head (← place)
  | .getTupleElement => do
    let index ← number
    return .getElement index (← place)
  | .putTuple => do
    let arity ← number
    return .beginTuple arity (← place)
  | .put => return .putElement (← number)
  | .setTupleElement => do
    let dest ← place
    return .setElement dest (← number)
  | .isInteger => return .typeTest .integer (← label)
  | .isFloat => return .typeTest .float (← label)
  | .isNumber => return .typeTest .number (← label)
  | .isAtom => return .typeTest .atom (← label)
  | .isPid => return .typeTest .pid (← label)
  | .isReference => return .typeTest .reference (← label)
  | .isPort => return .typeTest .port (← label)
  | .isNil => return .typeTest .nil (← label)
  | .isBinary => return .typeTest .binary (← label)
  | .isList => return .typeTest .list (← label)
  | .isNonemptyList => return .typeTest .nonemptyList (← label)
  | .isTuple => return .typeTest .tuple (← label)
  | .isFunction => return .typeTest .function (← label)
  | .isBoolean => return .typeTest .boolean (← label)
  | .isBitstr => return .typeTest .bitString (← label)
  | .testArity => do
    let fail ← label
    return .testArity fail (← number)
  | .isFunctionOfArity => return .testFunctionArity (← label)
  | .isEqExact => return .compare .eqExact (← label)
  | .isNeExact => return .compare .neExact (← label)
  | .isEq => return .compare .eq (← label)
  | .isNe => return .compare .ne (← label)
  | .isLt => return .compare .lt (← label)
  | .isGe => return .compare .ge (← label)
  | .selectVal => do
    let default ← target
    return .selectValue default (← number)
  | .selectTupleArity => do
    let default ← target
    return .selectArity default (← number)
  | .call => decodeCall (return .nested)
  | .callOnly => decodeCall (return .tail none)
  | .callLast => decodeCall releasing
  | .callExt => decodeCallExt (return .nested)
  | .callExtOnly => decodeCallExt (return .tail none)
  | .callExtLast => decodeCallExt releasing
  | .apply => return .call (.named (← number)) .nested
  | .applyLast => do
    let arity ← number
    return .call (.named arity) (← releasing)
  | .callFun => return .call (.value (← number)) .nested
  | .makeFun => do
    let entry ← target
    let arity ← number
    return .makeFun entry arity (← number)
  | .bif0 => do
    let index ← number
    return .native 0 index none (← place)
  | .bif1 => decodeNative 1
  | .bif2 => decodeNative 2
  | .send => return .send
  | .loopRec => do
    let empty ← target
    return .loopReceive empty (← place)
  | .loopRecEnd => return .loopReceiveEnd (← target)
  | .removeMessage => return .removeMessage
  | .timeout => return .timeout
  | .wait => return .wait (← target)
  | .waitTimeout => return .waitTimeout (← target)
  | .catchBegin => do
    let slot ← number
    return .protect .catchValue slot (← target)
  | .tryBegin => do
    let slot ← number
    return .protect .tryClauses slot (← target)
  | .catchEnd | .tryEnd | .tryCase => return .unprotect (← number)
  | .raise => return .raise
  | .fmove => do
    let value ← source
    return .floatMove value (← floatPlace)
  | .fconv => do
    let value ← source
    return .floatConvert value (← floatPlace)
  | .fadd => decodeFloat .add
  | .fsub => decodeFloat .sub
  | .fmul => decodeFloat .mul
  | .fdiv => decodeFloat .div
  | .fnegate => do
    let a ← number
    return .floatNegate a (← number)
  | .bsStartMatch => do
    let fail ← label
    let slots ← number
    return .matching (.start fail slots (← place))
  | .bsGetInteger => decodeGet .integer
  | .bsGetFloat => decodeGet .float
  | .bsGetBinary => decodeGet .bits
  | .bsSkipBits => do
    let cursor ← place
    let unit ← number
    let _ ← word
    return .matching (.skip cursor unit (← label))
  | .bsTestTail => do
    let cursor ← place
    let size ← number
    return .matching (.testTail cursor size (← label))
  | .bsTestUnit => do
    let cursor ← place
    let unit ← number
    return .matching (.testUnit cursor unit (← label))
  | .bsMatchString => do
    let cursor ← place
    let constant ← number
    return .matching (.literal cursor constant (← label))
  | .bsGetUtf8 => decodeGetUtf .utf8
  | .bsGetUtf16 => decodeGetUtf .utf16
  | .bsGetUtf32 => decodeGetUtf .utf32
  | .bsSkipUtf8 => decodeSkipUtf .utf8
  | .bsSkipUtf16 => decodeSkipUtf .utf16
  | .bsSkipUtf32 => decodeSkipUtf .utf32
  | .bsSave => do
    let cursor ← place
    return .matching (.save cursor (← position))
  | .bsRestore => do
    let cursor ← place
    return .matching (.restore cursor (← position))
  | .bsContextToBinary => return .matching (.toBits (← place))
  | .bsInit => decodeInit 8
  | .bsInitBits => decodeInit 1
  | .bsInitWritable => return .building .initWritable
  | .bsAppend | .bsPrivateAppend => decodeAppend
  | .bsPutInteger => decodePut .integer
  | .bsPutFloat => decodePut .float
  | .bsPutBinary => decodePut .bits
  | .bsPutString => return .building (.putLiteral (← number))
  | .bsPutUtf8 => decodePutUtf .utf8
  | .bsPutUtf16 => decodePutUtf .utf16
  | .bsPutUtf32 => decodePutUtf .utf32
  | .bsUtf8Size => do
    let dest ← place
    return .building (.utf8Size dest (← label))
  | .bsUtf16Size => do
    let dest ← place
    return .building (.utf16Size dest (← label))
  | .bsAdd => do
    let unit ← number
    let dest ← place
    return .building (.add unit dest (← label))

end Command

end ErlangMachine.Machine
