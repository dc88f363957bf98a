import ErlangMachine.Binary64.Decimal
import ErlangMachine.BitString.Writer
import ErlangMachine.Term.Basic

/-!
# The text of terms

An atom is written bare if it reads as one and in quotes otherwise. A bit string is written as a
string if it holds plain printable characters, otherwise as its bytes, with a last byte that is not
full given as value and size.
-/

namespace ErlangMachine

namespace Atom

/-- The characters that may follow the first one of a bare atom. -/
def isBareChar (c : Char) : Bool := c.isAlphanum || c == '_' || c == '@'

/-- Whether an atom needs no quotes. -/
def isBare (a : Atom) : Bool :=
  match a.name.toList with
  | c :: rest => c.isLower && rest.all isBareChar
  | [] => false

/-- A character inside quotes: a backslash stands before a backslash and before the quote. -/
def escapeChar (c : Char) : List Char := if c = '\\' ∨ c = '\'' then ['\\', c] else [c]

/-- The text of an atom. -/
def text (a : Atom) : String :=
  if a.isBare then a.name
  else "'" ++ String.ofList (a.name.toList.flatMap escapeChar) ++ "'"

end Atom

namespace BitString

/-- The bytes that a string may show as they are. -/
def isPlainByte (b : UInt8) : Bool := 0x20 ≤ b && b < 0x7F && b != 0x22 && b != 0x5C

/-- The text of a bit string. -/
def text (b : BitString) : String :=
  let bytes := b.toBytes
  if b.isBinary && 0 < b.byteSize && bytes.all isPlainByte then
    "<<\"" ++ String.ofList (bytes.map fun c => Char.ofNat c.toNat) ++ "\">>"
  else
    let whole := (bytes.take b.byteSize).map fun c => toString c.toNat
    let rest := b.size % 8
    let last :=
      if rest = 0 then []
      else [toString (b.read (8 * b.byteSize) rest) ++ ":" ++ toString rest]
    "<<" ++ ",".intercalate (whole ++ last) ++ ">>"

end BitString

namespace Term

mutual

/-- The text of a term, or of the rest of a list from this cell on. -/
def render (inList : Bool) : Term → String
  | nil => if inList then "" else "[]"
  | cons head tail =>
    (if inList then "," else "[") ++ render false head ++ render true tail
      ++ if inList then "" else "]"
  | integer i => bar ++ toString i.toInt
  | float x => bar ++ x.text
  | atom a => bar ++ a.text
  | reference n => bar ++ "#Ref<0." ++ toString n ++ ">"
  | port n => bar ++ "#Port<0." ++ toString n ++ ">"
  | pid n => bar ++ "<0." ++ toString n ++ ".0>"
  | closure code entry arity _ =>
    bar ++ "#Fun<" ++ code.name.name ++ "." ++ toString entry ++ "." ++ toString arity ++ ">"
  | external id => bar ++ "fun " ++ id.text
  | tuple elements => bar ++ "\x7b" ++ ",".intercalate (renderAll elements) ++ "\x7d"
  | bits b => bar ++ b.text
  | cursor c => bar ++ "#MatchState<" ++ toString c.offset ++ ">"
  | catchTag handler _ => bar ++ "#Catch<" ++ toString handler.label ++ ">"
where
  /-- What separates the tail of a list that is not proper. -/
  bar : String := if inList then "|" else ""

/-- The texts of some terms. -/
def renderAll : List Term → List String
  | [] => []
  | t :: rest => render false t :: renderAll rest

end

/-- The text of a term. -/
def text (t : Term) : String := render false t

end Term

end ErlangMachine
