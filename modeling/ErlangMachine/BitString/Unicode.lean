import ErlangMachine.Integer

/-!
# Unicode encodings

The three encodings of a Unicode scalar value. Decoding checks that the units are well formed, which
leaves out overlong forms, surrogates and values beyond the last plane, and puts together the number
that they stand for.
-/

namespace ErlangMachine.Unicode

/-- The scalar value with a given number. -/
def scalar? (v : Int) : Option Char :=
  if 0 ≤ v ∧ v.toNat.isValidChar then some (Char.ofNat v.toNat) else none

/-- The bytes of UTF-8. -/
def encode8 (c : Char) : List UInt8 := String.utf8EncodeChar c

/-- The units of UTF-16: one, or a high and a low surrogate. -/
def encode16 (c : Char) : List Nat :=
  let v := c.toNat
  if v < 0x10000 then [v]
  else [0xD800 + (v - 0x10000) / 0x400, 0xDC00 + (v - 0x10000) % 0x400]

/-- The number of bytes of a code point in UTF-8. -/
def size8? (v : Int) : Option Nat := (scalar? v).map fun c => (encode8 c).length

/-- The number of bytes of a code point in UTF-16. -/
def size16? (v : Int) : Option Nat := (scalar? v).map fun c => 2 * (encode16 c).length

/-- The number of bytes that a first byte announces. -/
def length8? (lead : UInt8) : Option Nat :=
  if lead ≤ 0x7F then some 1
  else if 0xC2 ≤ lead ∧ lead ≤ 0xDF then some 2
  else if 0xE0 ≤ lead ∧ lead ≤ 0xEF then some 3
  else if 0xF0 ≤ lead ∧ lead ≤ 0xF4 then some 4
  else none

/-- The number that one UTF-8 sequence would stand for: the low bits of its bytes. -/
def assemble8 : List UInt8 → Nat
  | [] => 0
  | [a] => a.toNat
  | lead :: rest =>
    rest.foldl (fun v byte => v * 64 + byte.toNat % 64) (lead.toNat % (1 <<< (6 - rest.length)))

/-- Whether a byte continues a sequence. -/
def isContinuation (byte : UInt8) : Bool := 0x80 ≤ byte && byte ≤ 0xBF

/-- Whether a second byte may follow a first one. Lower ones after `E0` or `F0` would make an
overlong form, higher ones after `ED` a surrogate and after `F4` a value beyond the last plane. -/
def mayFollow (lead second : UInt8) : Bool :=
  let low : UInt8 := if lead = 0xE0 then 0xA0 else if lead = 0xF0 then 0x90 else 0x80
  let high : UInt8 := if lead = 0xED then 0x9F else if lead = 0xF4 then 0x8F else 0xBF
  low ≤ second && second ≤ high

/-- Whether bytes are one UTF-8 sequence: as many as the first announces, and each one as those
before it allow. -/
def isSequence8 : List UInt8 → Bool
  | [] => false
  | lead :: rest =>
    length8? lead == some (rest.length + 1) && rest.head?.all (mayFollow lead)
      && rest.all isContinuation

/-- The character of one UTF-8 sequence. -/
def decode8? (bytes : List UInt8) : Option Char :=
  if isSequence8 bytes then some (Char.ofNat (assemble8 bytes)) else none

/-- Whether a unit announces a second one. -/
def isHighSurrogate (unit : Nat) : Bool := 0xD800 ≤ unit && unit ≤ 0xDBFF

/-- Whether a unit may come second. -/
def isLowSurrogate (unit : Nat) : Bool := 0xDC00 ≤ unit && unit ≤ 0xDFFF

/-- The character of one UTF-16 sequence. A unit that stands alone must not be a surrogate, and of
two the first must be a high one and the second a low one. -/
def decode16? : List Nat → Option Char
  | [unit] => if unit < 0x10000 then scalar? unit else none
  | [high, low] =>
    if isHighSurrogate high && isLowSurrogate low then
      some (Char.ofNat (0x10000 + (high - 0xD800) * 0x400 + (low - 0xDC00)))
    else none
  | _ => none

end ErlangMachine.Unicode
