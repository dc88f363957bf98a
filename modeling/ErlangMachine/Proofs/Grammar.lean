import ErlangMachine.Proofs.Lexemes
import ErlangMachine.Proofs.NearestDouble

/-!
# The grammar of terms

The grammar says which texts denote which terms. Its rules are relations between a text, what a
first part of it denotes, and the text after that part, so that a rule for a sequence of symbols
hands the rest of the text on from symbol to symbol. Between symbols there may be blanks and
comments (`Skipped`).

term = tuple | list | binary | string | float | integer | atom tuple = "{" [ term { "," term } ] "}"
list = "[" [ term { "," term } [ "|" term ] ] "]" binary = "<<" [ segment { "," segment } ] ">>"
segment = string | byte float = [ "-" ] digits "." digits [ ( "e" | "E" ) [ "+" | "-" ] digits ]
integer = [ "-" ] digits atom = lower { letter | digit | "_" | "@" } | quoted

There is one rule more in `Denotes`, for a list with a tail and no elements, and it counts how often
it was used: `Denotes 0` is the grammar above. The count can be read off the text without a
derivation (`Denotes.bareTails_eq`), by looking for brackets that are followed by a bar.
-/

namespace ErlangMachine.Reader

variable {l l' body digits : List Char} {c : Char} {t : Term} {bytes : List UInt8}

/-! ## Symbols -/

/-- The second text is what is left of the first one after some blanks and comments. A comment goes
on to the end of its line. -/
inductive Skipped : List Char → List Char → Prop where
  | refl (l : List Char) : Skipped l l
  | blank {c : Char} {l l' : List Char} (hc : isBlank c = true) (h : Skipped l l') :
    Skipped (c :: l) l'
  | comment {body l l' : List Char} (hbody : ∀ d ∈ body, isLineEnd d = false)
    (hend : ∀ c ∈ l.head?, isLineEnd c = true) (h : Skipped l l') : Skipped ('%' :: (body ++ l)) l'

/-- Characters up to a closing quote. A backslash stands before a character that is taken as it is,
before `n` for the end of a line and before `t` for a tabulator. -/
inductive Quoted (quote : Char) : List Char → List Char → List Char → Prop where
  | close (l : List Char) : Quoted quote (quote :: l) [] l
  | plain {c : Char} {l body l' : List Char} (hquote : c ≠ quote) (hbackslash : c ≠ '\\')
    (h : Quoted quote l body l') : Quoted quote (c :: l) (c :: body) l'
  | newline {l body l' : List Char} (h : Quoted quote l body l') :
    Quoted quote ('\\' :: 'n' :: l) ('\n' :: body) l'
  | tab {l body l' : List Char} (h : Quoted quote l body l') :
    Quoted quote ('\\' :: 't' :: l) ('\t' :: body) l'
  | escaped {c : Char} {l body l' : List Char} (hn : c ≠ 'n') (ht : c ≠ 't')
    (h : Quoted quote l body l') : Quoted quote ('\\' :: c :: l) (c :: body) l'

/-- One digit or more. -/
structure Digits (l digits l' : List Char) : Prop where
  /-- They come first. -/
  eq : l = digits ++ l'
  /-- There is one. -/
  ne_nil : digits ≠ []
  /-- They are digits. -/
  isDigit : ∀ c ∈ digits, c.isDigit = true

/-- The number that digits stand for. -/
def number (digits : List Char) : Nat := Nat.ofDigitChars 10 digits 0

/-- A minus sign, or none. -/
inductive Sign : List Char → Bool → List Char → Prop where
  | minus (l : List Char) : Sign ('-' :: l) true l
  | none (l : List Char) : Sign l false l

/-- The number with a sign. -/
def signed (negative : Bool) (n : Nat) : Int := if negative then -n else n

/-- An exponent, or none. -/
inductive Exponent : List Char → Int → List Char → Prop where
  | none (l : List Char) : Exponent l 0 l
  | unsigned {e : Char} {l digits l' : List Char} (he : e = 'e' ∨ e = 'E')
    (h : Digits l digits l') : Exponent (e :: l) (number digits) l'
  | plus {e : Char} {l digits l' : List Char} (he : e = 'e' ∨ e = 'E') (h : Digits l digits l') :
    Exponent (e :: '+' :: l) (number digits) l'
  | minus {e : Char} {l digits l' : List Char} (he : e = 'e' ∨ e = 'E') (h : Digits l digits l') :
    Exponent (e :: '-' :: l) (-number digits) l'

/-- The number with a fraction and an exponent. -/
def decimal (whole part : List Char) (e : Int) : ℚ :=
  (number whole + number part / 10 ^ part.length) * 10 ^ e

/-- Strings, numbers and atoms. A string is the list of its character codes, and a float is the
double nearest to the number that is written. -/
inductive Scalar : List Char → Term → List Char → Prop where
  | string {l body l' : List Char} (h : Quoted '"' l body l') :
    Scalar ('"' :: l) (.list (body.map fun c => .integer (.ofNat c.toNat))) l'
  | float {l l₁ l₂ l₃ l' whole part : List Char} {negative : Bool} {e : Int} {x : Binary64}
    (hsign : Sign l negative l₁) (hwhole : Digits l₁ whole ('.' :: l₂))
    (hpart : Digits l₂ part l₃) (hexponent : Exponent l₃ e l')
    (hx : x.Rounded negative (decimal whole part e)) : Scalar l (.float x) l'
  | integer {l l₁ l' digits : List Char} {negative : Bool} {i : Int64} (hsign : Sign l negative l₁)
    (hdigits : Digits l₁ digits l') (hi : i.toInt = signed negative (number digits)) :
    Scalar l (.integer i) l'
  | bareAtom {c : Char} {name l' : List Char} (hc : c.isLower = true)
    (hname : ∀ d ∈ name, isAtomChar d = true) :
    Scalar (c :: (name ++ l')) (.atom (String.ofList (c :: name))) l'
  | quotedAtom {l body l' : List Char} (h : Quoted '\'' l body l') :
    Scalar ('\'' :: l) (.atom (String.ofList body)) l'

/-! ## Brackets -/

/-- One part of a binary: a string in its encoding, or a byte value. -/
inductive Segment : List Char → List UInt8 → List Char → Prop where
  | string {l body l' : List Char} (h : Quoted '"' l body l') :
    Segment ('"' :: l) (body.flatMap String.utf8EncodeChar) l'
  | byte {l digits l' : List Char} {b : UInt8} (h : Digits l digits l')
    (hb : b.toNat = number digits) : Segment l [b] l'

/-- Parts of a binary with commas between them. -/
inductive Segments : List Char → List UInt8 → List Char → Prop where
  | one {l l' : List Char} {bytes : List UInt8} (h : Segment l bytes l') : Segments l bytes l'
  | more {l l₁ l₂ l₃ l' : List Char} {bytes rest : List UInt8} (h : Segment l bytes l₁)
    (hcomma : Skipped l₁ (',' :: l₂)) (hskip : Skipped l₂ l₃) (hrest : Segments l₃ rest l') :
    Segments l (bytes ++ rest) l'

mutual

/-- `Denotes n l t l'` says that the text `l` begins with a term `t`, after which `l'` is left. The
number `n` counts the lists in it that have a tail and no elements. -/
inductive Denotes : Nat → List Char → Term → List Char → Prop where
  | scalar {l l' : List Char} {t : Term} (h : Scalar l t l') : Denotes 0 l t l'
  | noBytes {l l' : List Char} (hclose : Skipped l ('>' :: '>' :: l')) :
    Denotes 0 ('<' :: '<' :: l) (.ofBytes []) l'
  | bytes {l l₁ l₂ l' : List Char} {bytes : List UInt8} (hskip : Skipped l l₁)
    (h : Segments l₁ bytes l₂) (hclose : Skipped l₂ ('>' :: '>' :: l')) :
    Denotes 0 ('<' :: '<' :: l) (.ofBytes bytes) l'
  | emptyTuple {l l' : List Char} (hclose : Skipped l ('}' :: l')) :
    Denotes 0 ('{' :: l) (.tuple []) l'
  | tuple {n : Nat} {l l₁ l₂ l' : List Char} {ts : List Term} (hskip : Skipped l l₁)
    (h : Elements n l₁ ts l₂) (hclose : Skipped l₂ ('}' :: l')) :
    Denotes n ('{' :: l) (.tuple ts) l'
  | emptyList {l l' : List Char} (hclose : Skipped l (']' :: l')) :
    Denotes 0 ('[' :: l) .nil l'
  | list {n : Nat} {l l₁ l₂ l' : List Char} {ts : List Term} (hskip : Skipped l l₁)
    (h : Elements n l₁ ts l₂) (hclose : Skipped l₂ (']' :: l')) :
    Denotes n ('[' :: l) (.list ts) l'
  | listWithTail {n k : Nat} {l l₁ l₂ l₃ l₄ l₅ l' : List Char} {ts : List Term} {t : Term}
    (hskip : Skipped l l₁) (h : Elements n l₁ ts l₂) (hbar : Skipped l₂ ('|' :: l₃))
    (hskip' : Skipped l₃ l₄) (htail : Denotes k l₄ t l₅) (hclose : Skipped l₅ (']' :: l')) :
    Denotes (n + k) ('[' :: l) (.listWithTail ts t) l'
  | bareTail {n : Nat} {l l₁ l₂ l₃ l' : List Char} {t : Term} (hbar : Skipped l ('|' :: l₁))
    (hskip : Skipped l₁ l₂) (htail : Denotes n l₂ t l₃) (hclose : Skipped l₃ (']' :: l')) :
    Denotes (n + 1) ('[' :: l) t l'

/-- Terms with commas between them. -/
inductive Elements : Nat → List Char → List Term → List Char → Prop where
  | one {n : Nat} {l l' : List Char} {t : Term} (h : Denotes n l t l') : Elements n l [t] l'
  | more {n k : Nat} {l l₁ l₂ l₃ l' : List Char} {t : Term} {ts : List Term}
    (h : Denotes n l t l₁) (hcomma : Skipped l₁ (',' :: l₂)) (hskip : Skipped l₂ l₃)
    (hrest : Elements k l₃ ts l') : Elements (n + k) l (t :: ts) l'

end

/-- The whole text denotes a term, with `n` lists in it that have a tail and no elements. -/
def Spelled (n : Nat) (text : List Char) (t : Term) : Prop :=
  ∃ l l', Skipped text l ∧ Denotes n l t l' ∧ Skipped l' []

/-! ## Blanks and comments -/

/-- Blanks and comments are as long as they are. -/
theorem Skipped.length_le (h : Skipped l l') : l'.length ≤ l.length := by
  induction h with
  | refl => exact Nat.le_refl _
  | blank _ _ ih => exact Nat.le_succ_of_le ih
  | comment _ _ _ ih =>
    rw [List.length_cons, List.length_append]
    omega

/-- The end of a line is a blank. -/
theorem isBlank_of_isLineEnd (h : isLineEnd c = true) : isBlank c = true := by
  simp only [isLineEnd, Bool.or_eq_true, beq_iff_eq] at h
  rcases h with rfl | rfl <;> decide

/-- A comment is skipped up to the end of its line. -/
theorem skipBlanks_comment_append (hbody : ∀ d ∈ body, isLineEnd d = false)
    (hend : ∀ c ∈ l.head?, isLineEnd c = true) : skipBlanks true (body ++ l) = skip l := by
  unfold skip
  induction body with
  | nil =>
    cases l with
    | nil => rfl
    | cons c l =>
      have hc := hend c rfl
      simp [skipBlanks, hc, isBlank_of_isLineEnd hc]
  | cons d body ih =>
    have hd := hbody d List.mem_cons_self
    simp [skipBlanks, hd, ih fun e he => hbody e (List.mem_cons_of_mem d he)]

/-- Blanks and comments are skipped. -/
theorem Skipped.skip_eq (h : Skipped l l') : skip l = skip l' := by
  induction h with
  | refl => rfl
  | blank hc _ ih =>
    rw [← ih]
    simp [skip, skipBlanks, hc]
  | comment hbody hend _ ih =>
    rw [← ih, ← skipBlanks_comment_append hbody hend]
    simp [skip, skipBlanks, isBlank]

/-- What is skipped are blanks and comments. -/
theorem skipped_skip (l : List Char) : Skipped l (skip l) := by
  -- Inside a comment, its rest is skipped first.
  suffices h : Skipped l (skip l) ∧ ∃ body l₁, l = body ++ l₁ ∧
      (∀ d ∈ body, isLineEnd d = false) ∧ (∀ c ∈ l₁.head?, isLineEnd c = true) ∧
      Skipped l₁ (skipBlanks true l) from h.1
  unfold skip
  induction l with
  | nil => exact ⟨.refl _, [], [], rfl, by simp, by simp, .refl _⟩
  | cons c l ih =>
    obtain ⟨hskip, body, l₁, rfl, hbody, hend, hcomment⟩ := ih
    constructor
    · rw [skipBlanks]
      simp only [Bool.false_eq_true, if_false]
      split
      case isTrue hc => exact .blank hc hskip
      case isFalse =>
        split
        case isTrue hpercent => exact hpercent ▸ .comment hbody hend hcomment
        case isFalse => exact .refl _
    · rw [skipBlanks]
      cases hc : isLineEnd c with
      | true => exact ⟨[], c :: (body ++ l₁), rfl, by simp, by simpa using hc,
          .blank (isBlank_of_isLineEnd hc) hskip⟩
      | false =>
        refine ⟨c :: body, l₁, rfl, ?_, hend, hcomment⟩
        rintro d (_ | ⟨_, hd⟩)
        · exact hc
        · exact hbody d hd

/-- Nothing is skipped twice. -/
theorem skip_skip (l : List Char) : skip (skip l) = skip l := (skipped_skip l).skip_eq.symm

/-- A character that is neither a blank nor the beginning of a comment. -/
def Solid (c : Char) : Prop := isBlank c = false ∧ c ≠ '%'

instance (c : Char) : Decidable (Solid c) := inferInstanceAs (Decidable (_ ∧ _))

/-- A solid character is not skipped. -/
theorem Solid.skip_eq (h : Solid c) (l : List Char) : skip (c :: l) = c :: l := by
  simp [skip, skipBlanks, h.1, h.2]

/-- Before such a character all blanks and comments are skipped. -/
theorem Skipped.skip_eq_cons (h : Skipped l (c :: l')) (hc : Solid c) : skip l = c :: l' := by
  rw [h.skip_eq, hc.skip_eq]

/-- A text that begins with blanks or comments does not go on with a number or an atom. -/
theorem Skipped.stops (h : Skipped l l') (hl' : Stops l') : Stops l := by
  cases h with
  | refl => exact hl'
  | blank hc _ => exact stops_of_isBlank hc _
  | comment =>
    rintro d ⟨⟩
    decide

/-! ## Lengths -/

/-- A quotation takes its closing quote. -/
theorem Quoted.length_lt {quote : Char} (h : Quoted quote l body l') : l'.length < l.length := by
  induction h with
  | close => exact Nat.lt_succ_self _
  | plain | newline | tab | escaped =>
    simp only [List.length_cons]
    omega

/-- Digits take one character or more. -/
theorem Digits.length_lt (h : Digits l digits l') : l'.length < l.length := by
  have hpos : 0 < digits.length := List.length_pos_iff.2 h.ne_nil
  rw [h.eq, List.length_append]
  omega

/-- A sign takes one character at most. -/
theorem Sign.length_le {negative : Bool} (h : Sign l negative l') : l'.length ≤ l.length := by
  cases h with
  | minus => exact Nat.le_succ _
  | none => exact Nat.le_refl _

/-- An exponent takes nothing, or its digits. -/
theorem Exponent.length_le {e : Int} (h : Exponent l e l') : l'.length ≤ l.length := by
  cases h with
  | none => exact Nat.le_refl _
  | unsigned _ h | plus _ h | minus _ h =>
    have hlt := h.length_lt
    simp only [List.length_cons]
    omega

/-- A string, a number or an atom takes one character or more. -/
theorem Scalar.length_lt (h : Scalar l t l') : l'.length < l.length := by
  cases h with
  | string h | quotedAtom h => exact Nat.lt_succ_of_lt h.length_lt
  | float hsign hwhole hpart hexponent =>
    have hwhole := hwhole.length_lt
    rw [List.length_cons] at hwhole
    have hsign := hsign.length_le
    have hpart := hpart.length_lt
    have hexponent := hexponent.length_le
    omega
  | integer hsign hdigits _ => exact Nat.lt_of_lt_of_le hdigits.length_lt hsign.length_le
  | bareAtom =>
    rw [List.length_cons, List.length_append]
    omega

/-- A part of a binary takes one character or more. -/
theorem Segment.length_lt (h : Segment l bytes l') : l'.length < l.length := by
  cases h with
  | string h => exact Nat.lt_succ_of_lt h.length_lt
  | byte h _ => exact h.length_lt

/-- Parts of a binary take one character or more. -/
theorem Segments.length_lt (h : Segments l bytes l') : l'.length < l.length := by
  induction h with
  | one h => exact h.length_lt
  | more h hcomma hskip _ ih =>
    have hfirst := h.length_lt
    have hcomma := hcomma.length_le
    have hskip := hskip.length_le
    rw [List.length_cons] at hcomma
    omega

mutual

/-- A term takes one character or more. -/
theorem Denotes.length_lt : {n : Nat} → {l l' : List Char} → {t : Term} → Denotes n l t l' →
    l'.length < l.length
  | _, _, _, _, .scalar h => h.length_lt
  -- Each bracket is a character of its own, whatever is skipped between them.
  | _, _, _, _, .noBytes hclose | _, _, _, _, .emptyTuple hclose
  | _, _, _, _, .emptyList hclose => by
    have hclose := hclose.length_le
    simp only [List.length_cons] at hclose ⊢
    omega
  | _, _, _, _, .bytes hskip h hclose | _, _, _, _, .tuple hskip h hclose
  | _, _, _, _, .list hskip h hclose => by
    have hskip := hskip.length_le
    have hinside := h.length_lt
    have hclose := hclose.length_le
    simp only [List.length_cons] at hclose ⊢
    omega
  | _, _, _, _, .listWithTail hskip h hbar hskip' htail hclose => by
    have hskip := hskip.length_le
    have helements := h.length_lt
    have hbar := hbar.length_le
    have hskip' := hskip'.length_le
    have htail := htail.length_lt
    have hclose := hclose.length_le
    simp only [List.length_cons] at hbar hclose ⊢
    omega
  | _, _, _, _, .bareTail hbar hskip htail hclose => by
    have hbar := hbar.length_le
    have hskip := hskip.length_le
    have htail := htail.length_lt
    have hclose := hclose.length_le
    simp only [List.length_cons] at hbar hclose ⊢
    omega

theorem Elements.length_lt : {n : Nat} → {l l' : List Char} → {ts : List Term} →
    Elements n l ts l' → l'.length < l.length
  | _, _, _, _, .one h => h.length_lt
  | _, _, _, _, .more h hcomma hskip hrest => by
    have hfirst := h.length_lt
    have hcomma := hcomma.length_le
    have hskip := hskip.length_le
    have hrest := hrest.length_lt
    rw [List.length_cons] at hcomma
    omega

end

/-! ## Tails without elements -/

/-- Where a scan of a text stands. -/
inductive Mode where
  /-- Between symbols, perhaps right after an opening bracket. -/
  | between (opened : Bool)
  /-- In a comment that came there. -/
  | comment (opened : Bool)
  /-- In a quotation. -/
  | quoted (quote : Char)
  /-- In a quotation, after a backslash. -/
  | escaped (quote : Char)

namespace Mode

/-- Where the scan stands after a character. -/
def next : Mode → Char → Mode
  | between opened, c =>
    if isBlank c then between opened
    else if c = '%' then comment opened
    else if c = '"' ∨ c = '\'' then quoted c
    else between (c == '[')
  | comment opened, c => if isLineEnd c then between opened else comment opened
  | quoted quote, c =>
    if c = quote then between false else if c = '\\' then escaped quote else quoted quote
  | escaped quote, _ => quoted quote

/-- Whether a character is a bar right after an opening bracket. -/
def isBareTail : Mode → Char → Bool
  | between true, c => c == '|'
  | _, _ => false

end Mode

/-- The number of bars right after an opening bracket in the rest of a text. -/
def bareTailsFrom : Mode → List Char → Nat
  | _, [] => 0
  | mode, c :: l => (mode.isBareTail c).toNat + bareTailsFrom (mode.next c) l

/-- The number of bars right after an opening bracket, with nothing but blanks and comments between
them. Quotations and comments do not count. -/
def bareTails (text : List Char) : Nat := bareTailsFrom (.between false) text

/-- A character that is not skipped, does not begin a quotation and has nothing to do with tails. -/
def Plain (c : Char) : Prop := Solid c ∧ c ≠ '"' ∧ c ≠ '\'' ∧ c ≠ '[' ∧ c ≠ '|'

instance (c : Char) : Decidable (Plain c) := inferInstanceAs (Decidable (_ ∧ _))

/-- A plain character is passed. -/
theorem Plain.bareTails_cons (h : Plain c) (opened : Bool) (l : List Char) :
    bareTailsFrom (.between opened) (c :: l) = bareTailsFrom (.between false) l := by
  obtain ⟨⟨hblank, hpercent⟩, hquote, hapostrophe, hbracket, hbar⟩ := h
  have hbare : (Mode.between opened).isBareTail c = false := by
    cases opened
    · rfl
    · simpa [Mode.isBareTail] using hbar
  have hnext : (Mode.between opened).next c = .between false := by
    simp [Mode.next, hblank, hpercent, hquote, hapostrophe, hbracket]
  rw [bareTailsFrom, hbare, hnext]
  exact Nat.zero_add _

/-- Some plain characters are passed. -/
theorem bareTails_append {s : List Char} (hs : ∀ c ∈ s, Plain c) (l : List Char) :
    bareTailsFrom (.between false) (s ++ l) = bareTailsFrom (.between false) l := by
  induction s with
  | nil => rfl
  | cons c s ih =>
    rw [List.cons_append, (hs c List.mem_cons_self).bareTails_cons]
    exact ih fun d hd => hs d (List.mem_cons_of_mem c hd)

/-- The characters of numbers and atoms are plain. -/
theorem plain_of_isAtomChar (h : isAtomChar c = true) : Plain c := by
  refine ⟨solid_of_isAtomChar h, ?_, ?_, ?_, ?_⟩ <;> rintro rfl <;> exact absurd h (by decide)

/-- Blanks and comments are passed. -/
theorem Skipped.bareTails_eq (h : Skipped l l') (opened : Bool) :
    bareTailsFrom (.between opened) l = bareTailsFrom (.between opened) l' := by
  have hblank : ∀ {c : Char}, isBlank c = true → ∀ l, bareTailsFrom (.between opened) (c :: l) =
      bareTailsFrom (.between opened) l := by
    intro c hc l
    have hbare : (Mode.between opened).isBareTail c = false := by
      cases opened
      · rfl
      · simp only [Mode.isBareTail, beq_eq_false_iff_ne]
        rintro rfl
        exact absurd hc (by decide)
    rw [bareTailsFrom, hbare, Mode.next, if_pos hc]
    exact Nat.zero_add _
  induction h with
  | refl => rfl
  | blank hc _ ih => rw [hblank hc, ih]
  | @comment body l _ hbody hend _ ih =>
    have hpercent : bareTailsFrom (.between opened) ('%' :: (body ++ l)) =
        bareTailsFrom (.comment opened) (body ++ l) := by
      cases opened <;> exact Nat.zero_add _
    rw [hpercent, ← ih]
    clear hpercent ih
    -- The comment goes on until the end of its line comes.
    induction body with
    | nil =>
      cases l with
      | nil => rfl
      | cons c l =>
        have hc := hend c rfl
        rw [hblank (isBlank_of_isLineEnd hc), List.nil_append, bareTailsFrom, Mode.next, if_pos hc]
        exact Nat.zero_add _
    | cons d body ih =>
      have hd := hbody d List.mem_cons_self
      rw [List.cons_append, bareTailsFrom, Mode.next, hd, if_neg Bool.false_ne_true,
        ih fun e he => hbody e (List.mem_cons_of_mem d he)]
      exact Nat.zero_add _

/-- A quotation is passed. -/
theorem Quoted.bareTails_eq {quote : Char} (h : Quoted quote l body l') (hquote : quote ≠ '\\') :
    bareTailsFrom (.quoted quote) l = bareTailsFrom (.between false) l' := by
  have hbackslash : ∀ c l, bareTailsFrom (.quoted quote) ('\\' :: c :: l) =
      bareTailsFrom (.quoted quote) l := by
    intro c l
    simp [bareTailsFrom, Mode.next, Mode.isBareTail, hquote.symm]
  induction h with
  | close => simp [bareTailsFrom, Mode.next, Mode.isBareTail]
  | plain hc hc' _ ih => simp [bareTailsFrom, Mode.next, Mode.isBareTail, hc, hc', ih]
  | newline _ ih | tab _ ih | escaped _ _ _ ih => rw [hbackslash, ih]

/-- A string is passed. -/
theorem Quoted.bareTails_string (h : Quoted '"' l body l') (opened : Bool) :
    bareTailsFrom (.between opened) ('"' :: l) = bareTailsFrom (.between false) l' := by
  rw [← h.bareTails_eq (by decide)]
  cases opened <;> exact Nat.zero_add _

/-- An atom in quotes is passed. -/
theorem Quoted.bareTails_atom (h : Quoted '\'' l body l') (opened : Bool) :
    bareTailsFrom (.between opened) ('\'' :: l) = bareTailsFrom (.between false) l' := by
  rw [← h.bareTails_eq (by decide)]
  cases opened <;> exact Nat.zero_add _

/-- Digits are passed. -/
theorem Digits.bareTails_eq (h : Digits l digits l') (opened : Bool) :
    bareTailsFrom (.between opened) l = bareTailsFrom (.between false) l' := by
  obtain ⟨rfl, hne, hdigits⟩ := h
  have hplain : ∀ c ∈ digits, Plain c :=
    fun c hc => plain_of_isAtomChar (isAtomChar_of_isDigit (hdigits c hc))
  cases digits with
  | nil => exact absurd rfl hne
  | cons c digits =>
    rw [List.cons_append, (hplain c List.mem_cons_self).bareTails_cons,
      bareTails_append fun d hd => hplain d (List.mem_cons_of_mem c hd)]

/-- A sign and digits are passed. -/
theorem Sign.bareTails_eq {l₁ : List Char} {negative : Bool} (hsign : Sign l negative l₁)
    (h : Digits l₁ digits l') (opened : Bool) :
    bareTailsFrom (.between opened) l = bareTailsFrom (.between false) l' := by
  cases hsign with
  | minus => rw [Plain.bareTails_cons (by decide), h.bareTails_eq]
  | none => exact h.bareTails_eq opened

/-- An exponent is passed. -/
theorem Exponent.bareTails_eq {e : Int} (h : Exponent l e l') :
    bareTailsFrom (.between false) l = bareTailsFrom (.between false) l' := by
  have hmark : ∀ {e : Char}, e = 'e' ∨ e = 'E' → Plain e := by
    rintro e (rfl | rfl) <;> decide
  cases h with
  | none => rfl
  | unsigned he h => rw [(hmark he).bareTails_cons, h.bareTails_eq]
  | plus he h | minus he h =>
    rw [(hmark he).bareTails_cons, Plain.bareTails_cons (by decide), h.bareTails_eq]

/-- Strings, numbers and atoms are passed. -/
theorem Scalar.bareTails_eq (h : Scalar l t l') (opened : Bool) :
    bareTailsFrom (.between opened) l = bareTailsFrom (.between false) l' := by
  cases h with
  | string h => exact h.bareTails_string opened
  | float hsign hwhole hpart hexponent =>
    rw [hsign.bareTails_eq hwhole, Plain.bareTails_cons (by decide), hpart.bareTails_eq,
      hexponent.bareTails_eq]
  | integer hsign hdigits _ => exact hsign.bareTails_eq hdigits opened
  | bareAtom hc hname =>
    rw [(plain_of_isAtomChar (isAtomChar_of_isLower hc)).bareTails_cons,
      bareTails_append fun d hd => plain_of_isAtomChar (hname d hd)]
  | quotedAtom h => exact h.bareTails_atom opened

/-- Parts of a binary are passed. -/
theorem Segments.bareTails_eq (h : Segments l bytes l') :
    bareTailsFrom (.between false) l = bareTailsFrom (.between false) l' := by
  have hsegment : ∀ {l l' : List Char} {bytes : List UInt8}, Segment l bytes l' →
      bareTailsFrom (.between false) l = bareTailsFrom (.between false) l' := by
    rintro l l' bytes (h | ⟨h, -⟩)
    · exact h.bareTails_string false
    · exact h.bareTails_eq false
  induction h with
  | one h => exact hsegment h
  | more h hcomma hskip _ ih =>
    rw [hsegment h, hcomma.bareTails_eq, Plain.bareTails_cons (by decide), hskip.bareTails_eq, ih]

/-- An opening bracket is noted. -/
theorem bareTails_bracket (opened : Bool) (l : List Char) :
    bareTailsFrom (.between opened) ('[' :: l) = bareTailsFrom (.between true) l := by
  cases opened <;> exact Nat.zero_add _

/-- A bar counts right after one. -/
theorem bareTails_bar (opened : Bool) (l : List Char) :
    bareTailsFrom (.between opened) ('|' :: l) =
      opened.toNat + bareTailsFrom (.between false) l := by
  cases opened <;> rfl

mutual

/-- The lists in a term that have a tail and no elements are counted by their bars. -/
theorem Denotes.bareTails_eq : {n : Nat} → {l l' : List Char} → {t : Term} → Denotes n l t l' →
    (opened : Bool) →
    bareTailsFrom (.between opened) l = n + bareTailsFrom (.between false) l'
  | _, _, _, _, .scalar h, opened => by rw [h.bareTails_eq, Nat.zero_add]
  | _, _, _, _, .noBytes hclose, opened => by
    rw [Plain.bareTails_cons (by decide), Plain.bareTails_cons (by decide), hclose.bareTails_eq,
      Plain.bareTails_cons (by decide), Plain.bareTails_cons (by decide), Nat.zero_add]
  | _, _, _, _, .bytes hskip h hclose, opened => by
    rw [Plain.bareTails_cons (by decide), Plain.bareTails_cons (by decide), hskip.bareTails_eq,
      h.bareTails_eq, hclose.bareTails_eq, Plain.bareTails_cons (by decide),
      Plain.bareTails_cons (by decide), Nat.zero_add]
  | _, _, _, _, .emptyTuple hclose, opened => by
    rw [Plain.bareTails_cons (by decide), hclose.bareTails_eq, Plain.bareTails_cons (by decide),
      Nat.zero_add]
  | _, _, _, _, .tuple hskip h hclose, opened => by
    rw [Plain.bareTails_cons (by decide), hskip.bareTails_eq, h.bareTails_eq, hclose.bareTails_eq,
      Plain.bareTails_cons (by decide)]
  | _, _, _, _, .emptyList hclose, opened => by
    rw [bareTails_bracket, hclose.bareTails_eq, Plain.bareTails_cons (by decide), Nat.zero_add]
  | _, _, _, _, .list hskip h hclose, opened => by
    rw [bareTails_bracket, hskip.bareTails_eq, h.bareTails_eq, hclose.bareTails_eq,
      Plain.bareTails_cons (by decide)]
  | _, _, _, _, .listWithTail hskip h hbar hskip' htail hclose, opened => by
    -- After the elements the bar does not count.
    rw [bareTails_bracket, hskip.bareTails_eq, h.bareTails_eq, hbar.bareTails_eq, bareTails_bar,
      hskip'.bareTails_eq, htail.bareTails_eq, hclose.bareTails_eq,
      Plain.bareTails_cons (by decide), Bool.toNat_false, Nat.zero_add, Nat.add_assoc]
  | _, _, _, _, .bareTail hbar hskip htail hclose, opened => by
    rw [bareTails_bracket, hbar.bareTails_eq, bareTails_bar, hskip.bareTails_eq,
      htail.bareTails_eq, hclose.bareTails_eq, Plain.bareTails_cons (by decide), Bool.toNat_true]
    omega

theorem Elements.bareTails_eq : {n : Nat} → {l l' : List Char} → {ts : List Term} →
    Elements n l ts l' → (opened : Bool) →
    bareTailsFrom (.between opened) l = n + bareTailsFrom (.between false) l'
  | _, _, _, _, .one h, opened => h.bareTails_eq opened
  | _, _, _, _, .more h hcomma hskip hrest, opened => by
    rw [h.bareTails_eq, hcomma.bareTails_eq, Plain.bareTails_cons (by decide), hskip.bareTails_eq,
      hrest.bareTails_eq, Nat.add_assoc]

end

/-- The lists in a text that have a tail and no elements are counted by their bars. -/
theorem Spelled.bareTails_eq {n : Nat} {text : List Char} (h : Spelled n text t) :
    bareTails text = n := by
  obtain ⟨l, l', hbefore, hterm, hafter⟩ := h
  unfold bareTails
  rw [hbefore.bareTails_eq, hterm.bareTails_eq, hafter.bareTails_eq]
  rfl

end ErlangMachine.Reader
