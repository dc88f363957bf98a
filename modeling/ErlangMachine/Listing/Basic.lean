import ErlangMachine.Assembler.Basic
import ErlangMachine.Listing.Operand
import ErlangMachine.Term.Reader

/-!
# Listings

A listing is the text of a module: a sequence of forms, each a term closed by a period. Some forms
say something about the module; one opens a function; all others are instructions of the function
opened last, given as an atom or as a tuple that begins with the name of an operation.
-/

namespace ErlangMachine

/-- A function in a listing. -/
structure FunctionListing where
  /-- The function. -/
  function : LocalName
  /-- The label at which it is entered. -/
  entry : UInt32
  /-- Its instructions. -/
  body : Array Instruction
  deriving Inhabited

/-- A module before it is assembled. -/
structure Listing where
  /-- The module's name. -/
  name : Atom
  /-- The functions that other modules may call. -/
  exports : Array LocalName
  /-- The functions. -/
  functions : Array FunctionListing
  deriving Inhabited

namespace Listing

/-- Why a text is not a listing. -/
inductive Error where
  /-- A form that cannot be read. -/
  | malformed (error : Reader.SyntaxError)
  /-- An instruction whose operation is not known. -/
  | unknownOperation (line : Nat) (name : Atom)
  /-- An instruction with too few or too many operands. -/
  | wrongArity (line : Nat) (operation : Operation) (found : Nat)
  /-- A form that is neither about the module nor an instruction. -/
  | badForm (line : Nat) (form : Term)
  /-- An instruction before the first function. -/
  | outsideFunction (line : Nat)
  /-- No form that names the module. -/
  | missingModule

/-- The words for an error. -/
def Error.message : Error → String
  | malformed e => "line " ++ toString e.line ++ ": " ++ e.cause.text
  | unknownOperation line name =>
    "line " ++ toString line ++ ": " ++ name.name ++ " is not an operation"
  | wrongArity line op found =>
    "line " ++ toString line ++ ": " ++ op.name ++ " requires " ++ toString op.arity
      ++ " operands but was given " ++ toString found
  | badForm line form =>
    "line " ++ toString line ++ ": " ++ form.text ++ " is not a module attribute or an instruction"
  | outsideFunction line => "line " ++ toString line ++ ": instruction outside of any function"
  | missingModule => "the listing does not name its module"

/-! ## Forms -/

/-- A term of a listing and the line on which it begins. -/
structure Form where
  /-- The line. -/
  line : Nat
  /-- The term. -/
  term : Term

/-- The forms of the rest of a text that begins with none of the blanks, at most `bound` of them. -/
def formsFrom (text : List Char) : Nat → List Char → Except Reader.SyntaxError (List Form)
  | 0, _ => .ok []
  | _, [] => .ok []
  | bound + 1, rest =>
    match Reader.term? rest with
    | none => .error (.at text (Reader.fault rest))
    | some (t, after) =>
      match Reader.expect? '.' after with
      | none => .error (.at text (.character, after))
      | some next =>
        (formsFrom text bound (Reader.skip next)).map (⟨Reader.lineOf text rest, t⟩ :: ·)

/-- The forms of a text. -/
def forms (text : List Char) : Except Reader.SyntaxError (List Form) :=
  formsFrom text text.length (Reader.skip text)

/-! ## From forms to a listing -/

/-- An integer term in the range of arities and labels. -/
def word? : Term → Option UInt32
  | .integer v =>
    if 0 ≤ v.toInt ∧ v.toInt < UInt32.size then some (UInt32.ofNat v.toInt.toNat) else none
  | _ => none

/-- One entry of the list of exported functions. -/
def export? : Term → Option LocalName
  | .tuple [.atom name, arity] => (word? arity).map fun n => ⟨name, n.toNat⟩
  | _ => none

/-- The instruction that a form denotes. -/
def instruction (form : Form) : Except Error Instruction := do
  let (name, args) ← match form.term with
    | .atom name => pure (name, [])
    | .tuple (.atom name :: args) => pure (name, args)
    | _ => throw (.badForm form.line form.term)
  match Operation.ofName? name.name with
  | none => throw (.unknownOperation form.line name)
  | some op =>
    if args.length ≠ op.arity then throw (.wrongArity form.line op args.length)
    return ⟨op, args.map operand⟩

/-- What the forms up to some point say. -/
structure Draft where
  /-- The module's name, if some form gave it. -/
  name : Option Atom
  /-- The exported functions. -/
  exports : Array LocalName
  /-- The functions. -/
  functions : Array FunctionListing

/-- The draft with one more instruction. -/
def Draft.addInstruction (d : Draft) (form : Form) : Except Error Draft := do
  let i ← instruction form
  if d.functions.isEmpty then throw (.outsideFunction form.line)
  let last := d.functions.size - 1
  return { d with functions := d.functions.modify last fun f => { f with body := f.body.push i } }

/-- The draft after one more form. -/
def Draft.add (d : Draft) (form : Form) : Except Error Draft :=
  let bad : Except Error Draft := .error (.badForm form.line form.term)
  match form.term with
  | .tuple (.atom ⟨"attributes"⟩ :: _) | .tuple (.atom ⟨"labels"⟩ :: _) => .ok d
  | .tuple [.atom ⟨"module"⟩, .atom name] => .ok { d with name := some name }
  | .tuple [.atom ⟨"exports"⟩, list] =>
    match list.list?.bind (·.mapM export?) with
    | some exports => .ok { d with exports := d.exports ++ exports.toArray }
    | none => bad
  | .tuple [.atom ⟨"function"⟩, .atom name, .integer arity, .integer entry] =>
    match word? (.integer arity), word? (.integer entry) with
    | some arity, some entry =>
      .ok { d with functions := d.functions.push ⟨⟨name, arity.toNat⟩, entry, #[]⟩ }
    | _, _ => bad
  | _ => d.addInstruction form

/-- The listing that a text denotes. -/
def parse (text : String) : Except Error Listing := do
  let forms ← match forms text.toList with
    | .ok forms => pure forms
    | .error e => throw (.malformed e)
  let d ← forms.foldlM Draft.add ⟨none, #[], #[]⟩
  match d.name with
  | some name => return ⟨name, d.exports, d.functions⟩
  | none => throw .missingModule

/-! ## Assembling -/

/-- Assembles some functions, up to the first that is refused. -/
def assembleFunctions (functions : List FunctionListing) : Assembler.Step Unit :=
  functions.forM fun f => Assembler.function f.function f.entry f.body.toList

/-- The module that a listing denotes. -/
def toModule (l : Listing) : Except Assembler.Error Module :=
  match (assembleFunctions l.functions.toList).run (.ofName l.name) with
  | .error e _ => .error e
  | .ok _ a => (l.exports.foldl Assembler.addExport a).finish

end Listing

/-- Why a text does not assemble. -/
inductive AssembleError where
  /-- It is not a listing. -/
  | listing (error : Listing.Error)
  /-- Its instructions do not make a module. -/
  | code (error : Assembler.Error)

/-- The module that a text denotes. -/
def Module.parse (text : String) : Except AssembleError Module :=
  match Listing.parse text with
  | .error e => .error (.listing e)
  | .ok l =>
    match l.toModule with
    | .error e => .error (.code e)
    | .ok m => .ok m

end ErlangMachine
