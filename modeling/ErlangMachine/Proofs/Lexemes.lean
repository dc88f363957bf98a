import ErlangMachine.Proofs.Segments
import ErlangMachine.Term.Reader
import ErlangMachine.Term.Text

/-!
# Tokens

The text of a term consists of tokens: brackets, separators, numbers, atoms and strings. Between
tokens there may be gaps of blanks and comments. `Spread` says that a text consists of some tokens
with some gap after each of them, and the lemmas below say that a reader which comes to a token
reads it and stands at the next one afterwards.

What a reader needs to know of the text after a number or an atom is that it does not go on with
digits, letters or a point. That is so if a separator follows or nothing (`Spread.stops`).
-/

namespace ErlangMachine.Reader

variable {c : Char} {rest : List Char} {a : Atom} {quote : Char}

/-- A token of the text of a term. -/
inductive Token where
  /-- A tuple begins. -/
  | openBrace
  /-- A tuple ends. -/
  | closeBrace
  /-- A list begins. -/
  | openBracket
  /-- A list ends. -/
  | closeBracket
  /-- A binary begins. -/
  | openBits
  /-- A binary ends. -/
  | closeBits
  /-- Another element follows. -/
  | comma
  /-- The tail of a list follows. -/
  | bar
  /-- A form of a listing ends. -/
  | period
  /-- An integer. -/
  | integer (i : Int64)
  /-- An atom. -/
  | atom (a : Atom)
  /-- A byte value in a binary. -/
  | byte (b : UInt8)
  /-- A string in a binary. -/
  | string (bytes : List UInt8)

namespace Token

/-- The text of a token. -/
def text : Token → List Char
  | openBrace => ['{']
  | closeBrace => ['}']
  | openBracket => ['[']
  | closeBracket => [']']
  | openBits => ['<', '<']
  | closeBits => ['>', '>']
  | comma => [',']
  | bar => ['|']
  | period => ['.']
  | integer i => (toString i.toInt).toList
  | atom a => a.text.toList
  | byte b => (toString b.toNat).toList
  | string bytes => '"' :: (bytes.map fun c => Char.ofNat c.toNat) ++ ['"']

/-- The tokens that may stand after an element. -/
def Separates : Token → Prop
  | closeBrace | closeBracket | closeBits | comma | bar => True
  | _ => False

end Token

/-- What may stand between tokens: blanks, and comments with the end of their line. -/
inductive Gap : List Char → Prop where
  /-- Nothing at all. -/
  | nil : Gap []
  /-- A blank. -/
  | blank {c : Char} {rest : List Char} : isBlank c = true → Gap rest → Gap (c :: rest)
  /-- A comment, up to the first end of a line. -/
  | comment {body : List Char} {c : Char} {rest : List Char} :
    (∀ d ∈ body, isLineEnd d = false) → isLineEnd c = true → Gap rest →
    Gap ('%' :: (body ++ c :: rest))

/-- A text that consists of some tokens, with a gap after each of them. -/
inductive Spread : List Token → List Char → Prop where
  /-- No tokens. -/
  | nil : Spread [] []
  /-- One token more. -/
  | cons {token : Token} {tokens : List Token} {gap text : List Char} : Gap gap →
    Spread tokens text → Spread (token :: tokens) (token.text ++ (gap ++ text))

/-- Tokens before which an element may end. -/
def Ends (tokens : List Token) : Prop := ∀ token ∈ tokens.head?, token.Separates

/-- A text that does not go on with a number or an atom. -/
def Stops (text : List Char) : Prop := ∀ c ∈ text.head?, isAtomChar c = false ∧ c ≠ '.'

/-! ## Gaps -/

/-- Inside a comment everything is skipped up to the end of the line. -/
theorem skipBlanks_comment {body : List Char} (hbody : ∀ d ∈ body, isLineEnd d = false)
    (hc : isLineEnd c = true) (rest : List Char) :
    skipBlanks true (body ++ c :: rest) = skipBlanks false rest := by
  induction body with
  | nil => simp [skipBlanks, hc]
  | cons d body ih =>
    have hd := hbody d List.mem_cons_self
    simp [skipBlanks, hd, ih fun e he => hbody e (List.mem_cons_of_mem d he)]

/-- Gaps are skipped. -/
theorem Gap.skip_append {gap : List Char} (h : Gap gap) (rest : List Char) :
    skip (gap ++ rest) = skip rest := by
  unfold skip
  induction h with
  | nil => rfl
  | blank hc _ ih => simp [skipBlanks, hc, ih]
  | comment hbody hc _ ih =>
    have hpercent : isBlank '%' = false := by decide
    simp [skipBlanks, hpercent, skipBlanks_comment hbody hc, ih]

/-- A blank does not go on with a number or an atom, since only the first character counts. -/
theorem stops_of_isBlank (h : isBlank c = true) (l : List Char) : Stops (c :: l) := by
  rintro d ⟨⟩
  simp only [isBlank, Bool.or_eq_true, beq_iff_eq] at h
  rcases h with ((rfl | rfl) | rfl) | rfl
  all_goals decide

/-- A gap does not go on with a number or an atom. -/
theorem Gap.stops {gap : List Char} (h : Gap gap) (hrest : Stops rest) : Stops (gap ++ rest) := by
  cases h with
  | nil => exact hrest
  | blank hc _ => exact stops_of_isBlank hc _
  | comment =>
    rintro d ⟨⟩
    decide

/-! ## First characters -/

/-- A digit is a character that numbers and atoms go on with. -/
theorem isAtomChar_of_isDigit (h : c.isDigit = true) : isAtomChar c = true := by
  simp [isAtomChar, Char.isAlphanum, h]

/-- A lower case letter is a character that atoms go on with. -/
theorem isAtomChar_of_isLower (h : c.isLower = true) : isAtomChar c = true := by
  simp [isAtomChar, Char.isAlphanum, Char.isAlpha, h]

/-- Neither blanks nor comments begin with a character that atoms go on with. -/
theorem solid_of_isAtomChar (h : isAtomChar c = true) : isBlank c = false ∧ c ≠ '%' := by
  constructor
  · by_contra hblank
    simp only [isBlank, Bool.not_eq_false, Bool.or_eq_true, beq_iff_eq] at hblank
    rcases hblank with ((rfl | rfl) | rfl) | rfl
    all_goals exact absurd h (by decide)
  · rintro rfl
    exact absurd h (by decide)

/-- The text of a number are its digits. -/
theorem toList_toString (n : Nat) : (toString n).toList = Nat.toDigits 10 n := by
  rw [Nat.toString_eq_ofList_toDigits, String.toList_ofList]

/-- A number begins with a digit. -/
theorem toDigits_eq_cons (n : Nat) :
    ∃ c rest, Nat.toDigits 10 n = c :: rest ∧ c.isDigit = true := by
  cases hdigits : Nat.toDigits 10 n with
  | nil => exact absurd hdigits Nat.toDigits_ne_nil
  | cons c rest =>
    have hmem : c ∈ Nat.toDigits 10 n := by rw [hdigits]; exact List.mem_cons_self
    exact ⟨c, rest, rfl, Nat.isDigit_of_mem_toDigits (by omega) (by omega) hmem⟩

/-- The text of an integer: a minus sign if it is negative, and digits. -/
theorem toList_integer (i : Int) : (toString i).toList =
    (if i < 0 then ['-'] else []) ++ Nat.toDigits 10 i.natAbs := by
  show i.repr.toList = _
  rw [Int.repr_eq_if]
  by_cases h : 0 ≤ i
  · have hnat : i.toNat = i.natAbs := by omega
    rw [if_pos h, if_neg (by omega), Nat.repr_eq_ofList_toDigits, String.toList_ofList, hnat,
      List.nil_append]
  · have hnat : (-i).toNat = i.natAbs := by omega
    have hminus : "-".toList = ['-'] := rfl
    rw [if_neg h, if_pos (by omega), String.toList_append, hminus, Nat.repr_eq_ofList_toDigits,
      String.toList_ofList, hnat]

/-- The text of a bare atom begins with a lower case letter and goes on with characters of atoms. -/
theorem toList_bare (h : a.isBare = true) : ∃ c rest, a.text.toList = c :: rest ∧
    a.name.toList = c :: rest ∧ c.isLower = true ∧ ∀ d ∈ rest, isAtomChar d = true := by
  have htext : a.text = a.name := by simp [Atom.text, h]
  unfold Atom.isBare at h
  rw [htext]
  cases hname : a.name.toList with
  | nil =>
    rw [hname] at h
    cases h
  | cons c rest =>
    rw [hname] at h
    simp only [Bool.and_eq_true, List.all_eq_true] at h
    exact ⟨c, rest, rfl, rfl, h.1, h.2⟩

theorem toList_quoted (h : a.isBare = false) :
    a.text.toList = '\'' :: (a.name.toList.flatMap Atom.escapeChar ++ ['\'']) := by
  simp [Atom.text, h]

/-- A token begins with a character that is not skipped. -/
theorem Token.text_eq_cons (token : Token) :
    ∃ c rest, token.text = c :: rest ∧ isBlank c = false ∧ c ≠ '%' := by
  have hdigits : ∀ n, ∃ c rest, Nat.toDigits 10 n = c :: rest ∧ isBlank c = false ∧ c ≠ '%' := by
    intro n
    obtain ⟨c, rest, hcons, hc⟩ := toDigits_eq_cons n
    exact ⟨c, rest, hcons, solid_of_isAtomChar (isAtomChar_of_isDigit hc)⟩
  cases token with
  | integer i =>
    have htext : (integer i).text = _ := toList_integer i.toInt
    rw [htext]
    by_cases h : i.toInt < 0
    · rw [if_pos h]
      exact ⟨'-', _, rfl, by decide⟩
    · rw [if_neg h]
      exact hdigits _
  | byte b =>
    have htext : (byte b).text = _ := toList_toString b.toNat
    rw [htext]
    exact hdigits _
  | atom a =>
    cases hbare : a.isBare with
    | true =>
      obtain ⟨c, rest, htext, -, hc, -⟩ := toList_bare hbare
      exact ⟨c, rest, htext, solid_of_isAtomChar (isAtomChar_of_isLower hc)⟩
    | false => exact ⟨'\'', _, toList_quoted hbare, by decide⟩
  | _ => exact ⟨_, _, rfl, by decide⟩

/-! ## Spread tokens -/

namespace Spread

variable {token : Token} {tokens : List Token} {text : List Char}

/-- The first token of a text, the gap after it and the rest. -/
theorem of_cons (h : Spread (token :: tokens) text) :
    ∃ gap rest, text = token.text ++ (gap ++ rest) ∧ Gap gap ∧ Spread tokens rest := by
  cases h with
  | cons hgap hrest => exact ⟨_, _, rfl, hgap, hrest⟩

/-- A text that begins with a token is not skipped. -/
theorem skip_eq (h : Spread tokens text) : skip text = text := by
  cases h with
  | nil => rfl
  | @cons token =>
    obtain ⟨c, rest, htext, hblank, hpercent⟩ := token.text_eq_cons
    rw [htext]
    simp [skip, skipBlanks, hblank, hpercent]

/-- The gap before the next token is skipped. -/
theorem skip_gap (h : Spread tokens text) {gap : List Char} (hgap : Gap gap) :
    skip (gap ++ text) = text := by
  rw [hgap.skip_append, h.skip_eq]

/-- There are at least as many characters as tokens. -/
theorem length_le (h : Spread tokens text) : tokens.length ≤ text.length := by
  induction h with
  | nil => exact Nat.le_refl _
  | @cons token _ _ _ _ _ ih =>
    obtain ⟨c, rest, htext, -, -⟩ := token.text_eq_cons
    rw [htext]
    simp only [List.length_cons, List.length_append]
    omega

/-- A text stops before a separator. -/
theorem stops (h : Spread tokens text) (hends : Ends tokens) {gap : List Char} (hgap : Gap gap) :
    Stops (gap ++ text) := by
  refine hgap.stops ?_
  cases h with
  | nil => rintro c ⟨⟩
  | @cons token =>
    -- Each separator begins with a sign that no number and no atom has in it.
    have hseparates := hends token rfl
    rintro c hc
    cases token with
    | closeBrace | closeBracket | closeBits | comma | bar =>
      cases hc
      decide
    | _ => exact hseparates.elim

end Spread

/-- Tokens that stand close together. -/
theorem spread_flatMap (tokens : List Token) : Spread tokens (tokens.flatMap Token.text) := by
  induction tokens with
  | nil => exact .nil
  | cons token tokens ih => exact .cons .nil ih

/-! ## Numbers -/

/-- What is taken from a text as long as a test holds, if it holds of all characters up to the point
where it fails. -/
theorem span_append {p : Char → Bool} {front : List Char} (hfront : ∀ c ∈ front, p c = true)
    (hrest : ∀ c ∈ rest.head?, p c = false) :
    (front ++ rest).takeWhile p = front ∧ (front ++ rest).dropWhile p = rest := by
  rw [List.takeWhile_append_of_pos hfront, List.dropWhile_append_of_pos hfront]
  cases rest with
  | nil => simp
  | cons c rest =>
    have hc : p c = false := hrest c rfl
    simp [hc]

/-- A text that stops does not go on with a digit. -/
theorem Stops.not_isDigit {text : List Char} (h : Stops text) :
    ∀ c ∈ text.head?, c.isDigit = false := by
  intro c hc
  by_contra hdigit
  have hatom := isAtomChar_of_isDigit (Bool.not_eq_false _ ▸ hdigit)
  exact absurd (h c hc).1 (by simp [hatom])

/-- The digits of a number are read. -/
theorem digits?_toDigits (n : Nat) (h : Stops rest) :
    digits? (Nat.toDigits 10 n ++ rest) = some (Nat.toDigits 10 n, rest) := by
  have hdigits : ∀ c ∈ Nat.toDigits 10 n, c.isDigit = true := fun c hc =>
    Nat.isDigit_of_mem_toDigits (by omega) (by omega) hc
  obtain ⟨htake, hdrop⟩ := span_append hdigits h.not_isDigit
  obtain ⟨c, tail, hcons, -⟩ := toDigits_eq_cons n
  unfold digits?
  rw [htake, hdrop, hcons]

/-- The value of the digits of a number is the number. -/
theorem digitsValue_toDigits (n : Nat) : digitsValue (Nat.toDigits 10 n) = n := by
  have hvalue : Nat.ofDigitChars 10 (Nat.toDigits 10 n) 0 = digitsValue (Nat.toDigits 10 n) :=
    Nat.ofDigitChars_eq_foldl
  rw [← hvalue, Nat.ofDigitChars_ten_toDigits]

/-- There are no digits where none comes first. -/
theorem digits?_eq_none (h : c.isDigit = false) (rest : List Char) :
    digits? (c :: rest) = none := by
  simp [digits?, h]

/-- There is no sign where no minus comes first. -/
theorem sign_eq (h : c ≠ '-') (rest : List Char) : sign (c :: rest) = (false, c :: rest) := by
  unfold sign
  split
  · rename_i heq
    exact absurd (List.cons.inj heq).1 h
  · rfl

/-- The sign and the digits of an integer. -/
theorem sign_integer (i : Int) (rest : List Char) : sign ((toString i).toList ++ rest) =
    (decide (i < 0), Nat.toDigits 10 i.natAbs ++ rest) := by
  rw [toList_integer]
  by_cases h : i < 0
  · rw [if_pos h, decide_eq_true h]
    rfl
  · obtain ⟨c, tail, hcons, hdigit⟩ := toDigits_eq_cons i.natAbs
    have hminus : c ≠ '-' := by
      rintro rfl
      exact absurd hdigit (by decide)
    rw [if_neg h, decide_eq_false h, List.nil_append, hcons]
    exact sign_eq hminus _

section Integers

variable (i : Int64) {rest : List Char} (h : Stops rest)
include h

/-- An integer is read. -/
theorem integer?_eq : integer? ((toString i.toInt).toList ++ rest) = some (.integer i, rest) := by
  have hvalue : (if decide (i.toInt < 0) = true then -(i.toInt.natAbs : Int) else i.toInt.natAbs) =
      i.toInt := by
    simp only [decide_eq_true_eq]
    split <;> omega
  unfold integer?
  rw [sign_integer]
  dsimp only
  rw [digits?_toDigits _ h, Option.bind_eq_bind, Option.bind_some]
  rw [digitsValue_toDigits, hvalue, Integer.ofInt?_toInt]
  rfl

/-- An integer is not read as a float, since no point follows. -/
theorem float?_integer : float? ((toString i.toInt).toList ++ rest) = none := by
  have hpoint : expect? '.' rest = none := by
    cases rest with
    | nil => rfl
    | cons c rest =>
      have hc : '.' ≠ c := (h c rfl).2.symm
      simp [expect?, hc]
  unfold float?
  rw [sign_integer]
  dsimp only
  rw [digits?_toDigits _ h, Option.bind_eq_bind, Option.bind_some]
  rw [hpoint]
  rfl

end Integers

/-! ## Atoms and strings -/

/-- What begins neither with a digit nor with a minus sign is no number. -/
theorem no_number (hdigit : c.isDigit = false) (hminus : c ≠ '-') (rest : List Char) :
    float? (c :: rest) = none ∧ integer? (c :: rest) = none := by
  unfold float? integer?
  rw [sign_eq hminus]
  dsimp only
  rw [digits?_eq_none hdigit]
  exact ⟨rfl, rfl⟩

/-- A lower case letter is neither. -/
theorem not_number_of_isLower (h : c.isLower = true) : c.isDigit = false ∧ c ≠ '-' := by
  simp only [Char.isLower, Bool.and_eq_true, decide_eq_true_eq] at h
  have hlow : 97 ≤ c.toNat := h.1
  constructor
  · by_contra hdigit
    rw [Bool.not_eq_false, Char.isDigit_iff_toNat] at hdigit
    have hhigh : c.toNat ≤ 57 := hdigit.2
    omega
  · rintro rfl
    exact absurd hlow (by decide)

/-- A bare atom is read. -/
theorem bareAtom?_eq (ha : a.isBare = true) (h : Stops rest) :
    bareAtom? (a.text.toList ++ rest) = some (.atom a, rest) := by
  obtain ⟨c, tail, htext, hname, hc, htail⟩ := toList_bare ha
  obtain ⟨htake, hdrop⟩ := span_append htail fun d hd => (h d hd).1
  have hatom : String.ofList (c :: tail) = a.name := by rw [← hname, String.ofList_toList]
  rw [htext]
  unfold bareAtom?
  simp only [List.cons_append, hc, if_true, htake, hdrop, hatom]

/-- A quotation ends with the quote. -/
theorem quoted?_quote (quote : Char) (rest : List Char) :
    quoted? quote (quote :: rest) = some ([], rest) := by
  rw [quoted?.eq_def]
  simp

/-- A character of a quotation stands for itself. -/
theorem quoted?_cons (hquote : c ≠ quote) (hbackslash : c ≠ '\\') (rest : List Char) :
    quoted? quote (c :: rest) = (quoted? quote rest).map fun (body, rest) => (c :: body, rest) := by
  rw [quoted?.eq_def]
  simp [hquote, hbackslash]

/-- A character of a quotation after a backslash. -/
theorem quoted?_backslash (hquote : '\\' ≠ quote) (c : Char) (rest : List Char) :
    quoted? quote ('\\' :: c :: rest) =
      (quoted? quote rest).map fun (body, rest) => (unescape c :: body, rest) := by
  rw [quoted?.eq_def]
  simp [hquote]

/-- A quotation without quotes and backslashes is read as it is. -/
theorem quoted?_plain {body : List Char} (hquote : quote ∉ body) (hbackslash : '\\' ∉ body)
    (rest : List Char) : quoted? quote (body ++ quote :: rest) = some (body, rest) := by
  induction body with
  | nil => exact quoted?_quote quote rest
  | cons c body ih =>
    simp only [List.mem_cons, not_or] at hquote hbackslash
    rw [List.cons_append, quoted?_cons (Ne.symm hquote.1) (Ne.symm hbackslash.1),
      ih hquote.2 hbackslash.2]
    rfl

/-- A name is read from its quotation. -/
theorem quoted?_escaped (name rest : List Char) :
    quoted? '\'' (name.flatMap Atom.escapeChar ++ '\'' :: rest) = some (name, rest) := by
  induction name with
  | nil => exact quoted?_quote _ rest
  | cons c name ih =>
    rw [List.flatMap_cons, List.append_assoc]
    unfold Atom.escapeChar
    by_cases hc : c = '\\' ∨ c = '\''
    · -- The backslash is dropped again, since it stands before a character that is no letter.
      have hsame : unescape c = c := by rcases hc with rfl | rfl <;> decide
      rw [if_pos hc]
      show quoted? '\'' ('\\' :: c :: (name.flatMap Atom.escapeChar ++ '\'' :: rest)) = _
      rw [quoted?_backslash (by decide), ih, hsame]
      rfl
    · rw [if_neg hc]
      rw [not_or] at hc
      show quoted? '\'' (c :: (name.flatMap Atom.escapeChar ++ '\'' :: rest)) = _
      rw [quoted?_cons hc.2 hc.1, ih]
      rfl

/-- A plain byte is the only byte of a character that stands for itself in a string. -/
theorem plain_char {b : UInt8} (h : BitString.isPlainByte b = true) :
    Char.ofNat b.toNat ≠ '"' ∧ Char.ofNat b.toNat ≠ '\\' ∧
      String.utf8EncodeChar (Char.ofNat b.toNat) = [b] := by
  simp only [BitString.isPlainByte, Bool.and_eq_true, decide_eq_true_eq, bne_iff_ne, ne_eq] at h
  obtain ⟨⟨⟨-, hhigh⟩, hquote⟩, hbackslash⟩ := h
  have hlt : b.toNat < 127 := hhigh
  have hnat : (Char.ofNat b.toNat).toNat = b.toNat := by
    rw [Char.ofNat, dif_pos (Or.inl (by omega))]
    rfl
  have hbyte : UInt8.ofNat b.toNat = b := UInt8.ofNat_toNat
  -- Below 128 a character has one byte, which is its number.
  refine ⟨fun heq => hquote ?_, fun heq => hbackslash ?_, ?_⟩
  · rw [← hbyte, ← hnat, heq]
    rfl
  · rw [← hbyte, ← hnat, heq]
    rfl
  · have hval : (Char.ofNat b.toNat).val.toNat = b.toNat := hnat
    unfold String.utf8EncodeChar
    rw [hval, if_pos (by omega), hbyte]

/-- A string of plain bytes is read as its characters, and these are the bytes. -/
theorem quoted?_string {bytes : List UInt8} (h : ∀ b ∈ bytes, BitString.isPlainByte b = true)
    (rest : List Char) : quoted? '"' ((bytes.map fun c => Char.ofNat c.toNat) ++ '"' :: rest) =
        some (bytes.map fun c => Char.ofNat c.toNat, rest) ∧
      (bytes.map fun c => Char.ofNat c.toNat).flatMap String.utf8EncodeChar = bytes := by
  constructor
  · refine quoted?_plain ?_ ?_ rest
    · intro hmem
      obtain ⟨b, hb, heq⟩ := List.mem_map.1 hmem
      exact (plain_char (h b hb)).1 heq
    · intro hmem
      obtain ⟨b, hb, heq⟩ := List.mem_map.1 hmem
      exact (plain_char (h b hb)).2.1 heq
  · rw [List.flatMap_map]
    induction bytes with
    | nil => rfl
    | cons b bytes ih =>
      rw [List.flatMap_cons, (plain_char (h b List.mem_cons_self)).2.2,
        ih fun c hc => h c (List.mem_cons_of_mem b hc)]
      rfl

end ErlangMachine.Reader
