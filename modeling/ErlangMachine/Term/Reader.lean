import ErlangMachine.Binary64.Decimal
import ErlangMachine.Term.Basic

/-!
# Reading terms

The grammar of terms as text: tuples, lists, binaries of strings and byte values, strings, floats,
integers and atoms, with blanks and `%` comments between tokens. Every reader takes the text that is
left and gives back what it read with the text after it. The first character decides which kind of
term follows, so a reader that fails leaves nothing else to try.

A separator that no element follows is not read, and a tail may follow an empty list of elements, so
that `[|a]` is read as `a`.
-/

namespace ErlangMachine.Reader

/-! ## Tokens -/

/-- The blanks between tokens. -/
def isBlank (c : Char) : Bool := c == ' ' || c == '\t' || c == '\r' || c == '\n'

/-- The ends of a comment. -/
def isLineEnd (c : Char) : Bool := c == '\n' || c == '\r'

/-- The text after blanks and comments. -/
def skipBlanks (inComment : Bool) : List Char → List Char
  | [] => []
  | c :: rest =>
    if inComment then skipBlanks (!isLineEnd c) rest
    else if isBlank c then skipBlanks false rest
    else if c = '%' then skipBlanks true rest
    else c :: rest

/-- The text after blanks and comments. -/
def skip (text : List Char) : List Char := skipBlanks false text

/-- The text after a character that must come next. -/
def expect? (c : Char) : List Char → Option (List Char)
  | d :: rest => if c = d then some rest else none
  | [] => none

/-- The character that a backslash and `c` stand for. -/
def unescape (c : Char) : Char :=
  if c = 'n' then '\n' else if c = 't' then '\t' else c

/-- The text up to the closing quote, the opening one already read. -/
def quoted? (quote : Char) : List Char → Option (List Char × List Char)
  | [] => none
  | c :: rest =>
    if c = quote then some ([], rest)
    else if c = '\\' then
      match rest with
      | [] => none
      | e :: rest => (quoted? quote rest).map fun (body, rest) => (unescape e :: body, rest)
    else (quoted? quote rest).map fun (body, rest) => (c :: body, rest)

/-- One digit or more. -/
def digits? (text : List Char) : Option (List Char × List Char) :=
  match text.takeWhile Char.isDigit with
  | [] => none
  | digits => some (digits, text.dropWhile Char.isDigit)

/-- The number that digits denote. -/
def digitsValue (digits : List Char) : Nat :=
  digits.foldl (fun v c => 10 * v + (c.toNat - '0'.toNat)) 0

/-- Whether a minus sign comes next, and the text after it. -/
def sign (text : List Char) : Bool × List Char :=
  match text with
  | '-' :: rest => (true, rest)
  | _ => (false, text)

/-- The exponent of a float, or zero if none follows. -/
def exponent (text : List Char) : Int × List Char :=
  match text with
  | e :: rest =>
    if e = 'e' ∨ e = 'E' then
      let (negative, rest) := match rest with
        | '+' :: rest => (false, rest)
        | '-' :: rest => (true, rest)
        | _ => (false, rest)
      match digits? rest with
      | some (digits, rest) =>
        let v : Int := digitsValue digits
        (if negative then -v else v, rest)
      | none => (0, text)
    else (0, text)
  | [] => (0, text)

/-- A float: digits on both sides of a point, and perhaps an exponent. -/
def float? (text : List Char) : Option (Term × List Char) := do
  let (negative, rest) := sign text
  let (whole, rest) ← digits? rest
  let rest ← expect? '.' rest
  let (part, rest) ← digits? rest
  let (e, rest) := exponent rest
  let value : Decimal := ⟨digitsValue (whole ++ part), e - part.length⟩
  return (.float (.ofDecimal negative value), rest)

/-- An integer that fits the machine. -/
def integer? (text : List Char) : Option (Term × List Char) := do
  let (negative, rest) := sign text
  let (digits, rest) ← digits? rest
  let v : Int := digitsValue digits
  let i ← Integer.ofInt? (if negative then -v else v)
  return (.integer i, rest)

/-- The characters of a bare atom after the first. -/
def isAtomChar (c : Char) : Bool := c.isAlphanum || c == '_' || c == '@'

/-- A bare atom. -/
def bareAtom? (text : List Char) : Option (Term × List Char) :=
  match text with
  | c :: rest =>
    if c.isLower then
      some (.atom (String.ofList (c :: rest.takeWhile isAtomChar)), rest.dropWhile isAtomChar)
    else none
  | [] => none

/-! ## Binaries -/

/-- One part of a binary: the bytes of a string, or one byte value. -/
def segment? (text : List Char) : Option (List UInt8 × List Char) :=
  match skip text with
  | '"' :: rest =>
    (quoted? '"' rest).map fun (body, rest) => (body.flatMap String.utf8EncodeChar, skip rest)
  | rest =>
    (digits? rest).bind fun (digits, rest) =>
      let v := digitsValue digits
      if v < 256 then some ([UInt8.ofNat v], skip rest) else none

/-- The further parts of a binary, each after a comma, up to a number of them that the length of the
text bounds. -/
def moreSegments : Nat → List Char → List UInt8 × List Char
  | 0, text => ([], text)
  | bound + 1, text =>
    match text with
    | ',' :: rest =>
      match segment? rest with
      | some (bytes, rest) =>
        let (more, rest) := moreSegments bound rest
        (bytes ++ more, rest)
      | none => ([], text)
    | _ => ([], text)

/-- The parts of a binary. -/
def segments (text : List Char) : List UInt8 × List Char :=
  match segment? text with
  | some (bytes, rest) =>
    let (more, rest) := moreSegments rest.length rest
    (bytes ++ more, rest)
  | none => ([], text)

/-- A binary, the opening brackets already read. -/
def binary? (text : List Char) : Option (Term × List Char) := do
  let (bytes, rest) := segments (skip text)
  let rest ← expect? '>' rest
  let rest ← expect? '>' rest
  return (.ofBytes bytes, rest)

/-! ## Terms -/

mutual

/-- A term with blanks around it. The bound falls with every step into the term and with every
further element. -/
def termWithin : Nat → List Char → Option (Term × List Char)
  | 0, _ => none
  | bound + 1, text =>
    let read : Option (Term × List Char) :=
      match skip text with
      | '{' :: rest =>
        let (elements, rest) := elementsWithin bound (skip rest)
        (expect? '}' rest).map (.tuple elements, ·)
      | '[' :: rest =>
        let (elements, rest) := elementsWithin bound (skip rest)
        let (tail, rest) := tailWithin bound rest
        (expect? ']' rest).map (.listWithTail elements tail, ·)
      | '<' :: '<' :: rest => binary? rest
      | '"' :: rest =>
        (quoted? '"' rest).map fun (body, rest) =>
          (.list (body.map fun c => .integer (Int64.ofNat c.toNat)), rest)
      | '\'' :: rest =>
        (quoted? '\'' rest).map fun (body, rest) => (.atom (String.ofList body), rest)
      | rest => float? rest <|> integer? rest <|> bareAtom? rest
    read.map fun (t, rest) => (t, skip rest)

/-- Terms with commas between them. -/
def elementsWithin : Nat → List Char → List Term × List Char
  | 0, text => ([], text)
  | bound + 1, text =>
    match termWithin bound text with
    | some (t, rest) =>
      let (more, rest) := moreWithin bound rest
      (t :: more, rest)
    | none => ([], text)

/-- Further terms, each after a comma. -/
def moreWithin : Nat → List Char → List Term × List Char
  | 0, text => ([], text)
  | bound + 1, text =>
    match text with
    | ',' :: rest =>
      match termWithin bound rest with
      | some (t, rest) =>
        let (more, rest) := moreWithin bound rest
        (t :: more, rest)
      | none => ([], text)
    | _ => ([], text)

/-- The tail of a list after a bar, or the empty list if none follows. -/
def tailWithin : Nat → List Char → Term × List Char
  | 0, text => (.nil, text)
  | bound + 1, text =>
    match text with
    | '|' :: rest =>
      match termWithin bound rest with
      | some (t, rest) => (t, rest)
      | none => (.nil, text)
    | _ => (.nil, text)

end

/-- A term with blanks around it. Every step takes a character or opens a term, so twice the length
of the text bounds their number. -/
def term? (text : List Char) : Option (Term × List Char) := termWithin (2 * text.length + 2) text

/-! ## Errors -/

/-- Why a text is not a term. -/
inductive Cause where
  /-- Some other character had to come. -/
  | character
  /-- A backslash with nothing after it. -/
  | escape
  /-- Text after the end of the term. -/
  | trailing
  deriving DecidableEq, Repr

/-- The words for a cause. -/
def Cause.text : Cause → String
  | character => "Char"
  | escape => "Escaped"
  | trailing => "unexpected text after term"

/-- The text at which a quotation stops short of its closing quote. -/
def quoteFault (quote : Char) : List Char → Cause × List Char
  | [] => (.character, [])
  | c :: rest =>
    if c = '\\' then
      match rest with
      | [] => (.escape, [c])
      | _ :: rest => quoteFault quote rest
    else quoteFault quote rest

/-- Why no term can be read, and the text at which that shows. The quoted atom is the last kind of
term there is: a text that opens a quotation fails where that stops, and any other at its
beginning. -/
def fault (text : List Char) : Cause × List Char :=
  match skip text with
  | '\'' :: rest => quoteFault '\'' rest
  | rest => (.character, rest)

/-- The number of the line on which the rest of a text begins. -/
def lineOf (text rest : List Char) : Nat := 1 + (text.count '\n' - rest.count '\n')

/-- A place in a text and what is wrong there. -/
structure SyntaxError where
  /-- The line, counted from one. -/
  line : Nat
  /-- What is wrong. -/
  cause : Cause
  deriving DecidableEq, Repr

/-- The error of a text at one of its rests. -/
def SyntaxError.at (text : List Char) (found : Cause × List Char) : SyntaxError :=
  ⟨lineOf text found.2, found.1⟩

end ErlangMachine.Reader

namespace ErlangMachine

/-- The term that a text denotes. -/
def Term.parse (text : String) : Except Reader.SyntaxError Term :=
  let text := text.toList
  match Reader.term? text with
  | some (t, []) => .ok t
  | some (_, rest) => .error (.at text (.trailing, rest))
  | none => .error (.at text (Reader.fault text))

end ErlangMachine
