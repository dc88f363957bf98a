import ErlangMachine.Proofs.Lexemes
import ErlangMachine.Proofs.Subterms
import ErlangMachine.Proofs.TermOrder

/-!
# Reading what was written

The text of a term is read as a term that is exactly equal to it, also with blanks and comments
between the tokens. This holds of all terms that are made of integers, atoms, binaries of whole
bytes, tuples and lists, proper or not.

`Term.tokens` gives the tokens of a term, and `Term.toList_text` says that its text consists of
them. The reader is then followed from token to token. Each reader of the grammar has a lemma of the
same form: where some tokens come next and a separator follows, it reads what they stand for and
stops before the separator. Readers of elements stop by themselves, since what closes a bracket is
no beginning of a term.

A reader makes new bit strings from bytes, so what is read is not the term itself but `Term.reread`.
-/

namespace ErlangMachine

open Reader

/-! ## The tokens of a term -/

/-- The tokens of byte values, each after a comma. -/
def BitString.byteTokens (bytes : List UInt8) : List Token :=
  bytes.flatMap fun b => [.comma, .byte b]

/-- The tokens of a binary. -/
def BitString.tokens (b : BitString) : List Token :=
  if b.isBinary && 0 < b.byteSize && b.toBytes.all isPlainByte then
    [.openBits, .string b.toBytes, .closeBits]
  else .openBits :: (byteTokens b.toBytes).tail ++ [.closeBits]

namespace Term

/-- The terms that can be written and read, apart from what is inside them. -/
def IsData : Term → Prop
  | integer _ | atom _ | tuple _ | nil | cons .. => True
  | bits b => b.isBinary = true
  | _ => False

/-- The terms that can be written and read: integers, atoms, whole bytes, and tuples and lists of
these. -/
def Readable (t : Term) : Prop := t.Every IsData

mutual

/-- The tokens of a readable term, or of the rest of a list from this cell on. -/
def tokens (inList : Bool) : Term → List Token
  | nil => if inList then [] else [.openBracket, .closeBracket]
  | cons head tail =>
    (if inList then .comma else .openBracket) :: (tokens false head ++ tokens true tail)
      ++ if inList then [] else [.closeBracket]
  | integer i => lead ++ [.integer i]
  | atom a => lead ++ [.atom a]
  | tuple elements => lead ++ .openBrace :: (moreTokens elements).tail ++ [.closeBrace]
  | bits b => lead ++ b.tokens
  | _ => []
where
  /-- What separates the tail of a list that is not proper. -/
  lead : List Token := if inList then [.bar] else []

/-- The tokens of some readable terms, each after a comma. -/
def moreTokens : List Term → List Token
  | [] => []
  | t :: ts => .comma :: (tokens false t ++ moreTokens ts)

end

mutual

/-- The term as it is read. Its binaries are new. -/
def reread : Term → Term
  | cons head tail => cons (reread head) (reread tail)
  | tuple elements => tuple (rereadAll elements)
  | bits b => ofBytes b.toBytes
  | t => t

/-- Terms as they are read. -/
def rereadAll : List Term → List Term
  | [] => []
  | t :: ts => reread t :: rereadAll ts

end

mutual

/-- What is read is exactly equal to the term. -/
theorem exactEq_reread : (t : Term) → t.Readable → t.reread.exactEq t = true
  | cons head tail, h => by
    rw [reread, exactEq, exactEq_reread head h.2.1, exactEq_reread tail h.2.2]
    rfl
  | tuple elements, h => by
    obtain ⟨hlength, helements⟩ := exactEqAll_rereadAll elements h.2
    rw [reread, exactEq, hlength, helements, beq_self_eq_true]
    rfl
  | bits b, h => by
    -- Bit strings are equal as terms if their bits are, wherever they stand in their bytes.
    refine exactEq_bits ?_
    have hbinary : b.isBinary = true := h
    have hsize : b.size % 8 = 0 := by simpa [BitString.isBinary] using hbinary
    rw [BitString.toList_ofBytes, BitString.flatMap_toBytes, hsize]
    simp
  | integer _, _ | atom _, _ | nil, _ => exactEq_self _

/-- What is read of some terms is exactly equal to them, element by element. -/
theorem exactEqAll_rereadAll : (ts : List Term) → EveryOf IsData ts →
    (rereadAll ts).length = ts.length ∧ exactEqAll (rereadAll ts) ts = true
  | [], _ => ⟨rfl, rfl⟩
  | t :: ts, h => by
    obtain ⟨hlength, helements⟩ := exactEqAll_rereadAll ts h.2
    rw [rereadAll, exactEqAll, exactEq_reread t h.1, helements, List.length_cons, hlength]
    exact ⟨rfl, rfl⟩

end

/-! ## The text of a term -/

/-- Texts with commas between them. -/
theorem toList_intercalate_comma (texts : List String) :
    (",".intercalate texts).toList = (texts.flatMap fun t => ',' :: t.toList).tail := by
  have hcomma : ",".toList = [','] := rfl
  induction texts with
  | nil => rfl
  | cons text texts ih =>
    cases texts with
    | nil => simp [String.intercalate_singleton]
    | cons next texts =>
      rw [String.intercalate_cons_cons, String.toList_append, String.toList_append, hcomma, ih]
      simp

/-- A comma is one character. -/
theorem flatMap_text_tail {tokens : List Token} (h : ∀ token ∈ tokens.head?, token = .comma) :
    tokens.tail.flatMap Token.text = (tokens.flatMap Token.text).tail := by
  cases tokens with
  | nil => rfl
  | cons token tokens =>
    obtain rfl := h token rfl
    rfl

/-- The first of some terms comes after a comma. -/
theorem head?_moreTokens (ts : List Term) : ∀ token ∈ (moreTokens ts).head?, token = .comma := by
  cases ts with
  | nil => rintro token ⟨⟩
  | cons t ts => rintro token ⟨⟩; rfl

end Term

/-- The text of a binary consists of its tokens. -/
theorem BitString.toList_text {b : BitString} (h : b.isBinary = true) :
    b.text.toList = b.tokens.flatMap Token.text := by
  have hsize : b.size % 8 = 0 := by simpa [isBinary] using h
  unfold text tokens
  dsimp only
  by_cases hplain : (b.isBinary && decide (0 < b.byteSize) && b.toBytes.all isPlainByte) = true
  · rw [if_pos hplain, if_pos hplain]
    simp [Token.text]
  · -- Whole bytes leave no last part that would need a size.
    rw [if_neg hplain, if_neg hplain]
    have hall : b.toBytes.take b.byteSize = b.toBytes := by
      refine List.take_of_length_le ?_
      rw [length_toBytes, byteSize]
      omega
    have hbytes : ((b.toBytes.map fun c => toString c.toNat).flatMap fun t => ',' :: t.toList) =
        (byteTokens b.toBytes).flatMap Token.text := by
      simp [byteTokens, List.flatMap_map, List.flatMap_assoc, Token.text]
    have hcomma : ∀ token ∈ (byteTokens b.toBytes).head?, token = .comma := by
      cases b.toBytes with
      | nil => rintro token ⟨⟩
      | cons c bytes => rintro token ⟨⟩; rfl
    rw [hall, if_pos hsize, List.append_nil, String.toList_append, String.toList_append,
      Term.toList_intercalate_comma, hbytes, ← Term.flatMap_text_tail hcomma]
    simp [Token.text]

namespace Term

mutual

/-- The text of a term, or of the rest of a list, consists of its tokens. -/
theorem toList_render (inList : Bool) : (t : Term) → t.Readable →
    (render inList t).toList = (tokens inList t).flatMap Token.text
  | nil, _ => by cases inList <;> rfl
  | cons head tail, h => by
    have hhead := toList_render false head h.2.1
    have htail := toList_render true tail h.2.2
    cases inList <;> simp [render, tokens, hhead, htail, Token.text]
  | integer i, _ => by cases inList <;> simp [render, render.bar, tokens, tokens.lead, Token.text]
  | atom a, _ => by cases inList <;> simp [render, render.bar, tokens, tokens.lead, Token.text]
  | tuple elements, h => by
    have helements := toList_renderAll elements h.2
    have hjoined := toList_intercalate_comma (renderAll elements)
    rw [helements, ← flatMap_text_tail (head?_moreTokens elements)] at hjoined
    cases inList <;> simp [render, render.bar, tokens, tokens.lead, Token.text, hjoined]
  | bits b, h => by
    have hbits := BitString.toList_text h
    cases inList <;> simp [render, render.bar, tokens, tokens.lead, Token.text, hbits]

/-- The texts of some terms, each after a comma, consist of their tokens. -/
theorem toList_renderAll : (ts : List Term) → EveryOf IsData ts →
    ((renderAll ts).flatMap fun t => ',' :: t.toList) = (moreTokens ts).flatMap Token.text
  | [], _ => rfl
  | t :: ts, h => by
    have ht := toList_render false t h.1
    have hts := toList_renderAll ts h.2
    simp [renderAll, moreTokens, ht, hts, Token.text]

end

end Term

namespace Reader

variable {last : List Char} {t : Term} {c : Char}

/-! ## Binaries -/

section Binaries

variable {more : List Token} {gap text : List Char}

/-- A byte value is read. -/
theorem segment?_byte {b : UInt8} (hends : Ends more) (hgap : Gap gap)
    (h : Spread (.byte b :: more) text) :
    ∃ rest, segment? (gap ++ text) = some ([b], rest) ∧ Spread more rest := by
  have hskip := h.skip_gap hgap
  obtain ⟨gap', rest, rfl, hgap', hrest⟩ := h.of_cons
  have htext : (Token.byte b).text = Nat.toDigits 10 b.toNat := toList_toString b.toNat
  have hdigits := digits?_toDigits b.toNat (hrest.stops hends hgap')
  have hlt := b.toNat_lt
  refine ⟨rest, ?_, hrest⟩
  unfold segment?
  rw [hskip]
  split
  · -- Digits are no quotation.
    rename_i heq
    obtain ⟨c, tail, hcons, hdigit⟩ := toDigits_eq_cons b.toNat
    rw [htext, hcons] at heq
    obtain rfl := (List.cons.inj heq).1
    exact absurd hdigit (by decide)
  · rw [htext, hdigits, Option.bind_some]
    dsimp only
    rw [digitsValue_toDigits, if_pos hlt, hrest.skip_gap hgap', UInt8.ofNat_toNat]

/-- A part that begins with a quote is a string. -/
theorem segment?_quote {rest : List Char} (h : skip text = '"' :: rest) : segment? text =
    (quoted? '"' rest).map fun (body, rest) =>
      (body.flatMap String.utf8EncodeChar, skip rest) := by
  unfold segment?
  rw [h]
  rfl

/-- A string of plain bytes is read. -/
theorem segment?_string {bytes : List UInt8}
    (hplain : ∀ b ∈ bytes, BitString.isPlainByte b = true) (hgap : Gap gap)
    (h : Spread (.string bytes :: more) text) :
    ∃ rest, segment? (gap ++ text) = some (bytes, rest) ∧ Spread more rest := by
  have hskip := h.skip_gap hgap
  obtain ⟨gap', rest, rfl, hgap', hrest⟩ := h.of_cons
  obtain ⟨hquoted, hbytes⟩ := quoted?_string hplain (gap' ++ rest)
  have htext : (Token.string bytes).text ++ (gap' ++ rest) =
      '"' :: ((bytes.map fun c => Char.ofNat c.toNat) ++ '"' :: (gap' ++ rest)) := by
    simp [Token.text]
  refine ⟨rest, ?_, hrest⟩
  rw [segment?_quote (hskip.trans htext), hquoted, Option.map_some]
  dsimp only
  rw [hbytes, hrest.skip_gap hgap']

/-- What closes a binary is no part of it. -/
theorem segment?_closeBits (h : Spread (.closeBits :: more) text) : segment? text = none := by
  have hskip := h.skip_eq
  obtain ⟨gap', rest, rfl, -, -⟩ := h.of_cons
  unfold segment?
  rfl

/-- No further part of a binary comes after its end. -/
theorem moreSegments_closeBits (bound : Nat) (h : Spread (.closeBits :: more) text) :
    moreSegments bound text = ([], text) := by
  obtain ⟨gap', rest, rfl, -, -⟩ := h.of_cons
  cases bound with
  | zero => rfl
  | succ bound => rfl

/-- What follows byte values in a binary separates them. -/
theorem ends_byteTokens (bytes : List UInt8) :
    Ends (BitString.byteTokens bytes ++ .closeBits :: more) := by
  cases bytes with
  | nil => rintro token ⟨⟩; trivial
  | cons b bytes => rintro token ⟨⟩; trivial

/-- Byte values, each after a comma, are read. -/
theorem moreSegments_eq {bytes : List UInt8} {bound : Nat} (hbound : bytes.length ≤ bound)
    (h : Spread (BitString.byteTokens bytes ++ .closeBits :: more) text) :
    ∃ rest, moreSegments bound text = (bytes, rest) ∧ Spread (.closeBits :: more) rest := by
  -- The bound goes down by one with each byte, and each byte has tokens of its own.
  induction bytes generalizing bound text with
  | nil => exact ⟨text, moreSegments_closeBits bound h, h⟩
  | cons b bytes ih =>
    rw [List.length_cons] at hbound
    obtain ⟨bound, rfl⟩ : ∃ k, bound = k + 1 := ⟨bound - 1, by omega⟩
    obtain ⟨gap', rest, rfl, hgap', hrest⟩ := h.of_cons
    obtain ⟨rest', hsegment, hrest'⟩ := segment?_byte (ends_byteTokens bytes) hgap' hrest
    have hle : bytes.length ≤ bound := by omega
    obtain ⟨last, hmore, hlast⟩ := ih hle hrest'
    refine ⟨last, ?_, hlast⟩
    show moreSegments (bound + 1) (',' :: (gap' ++ rest)) = _
    rw [moreSegments, hsegment]
    dsimp only
    rw [hmore]
    rfl

/-- The parts of a binary are read up to its end. -/
theorem segments_eq {b : BitString} (h : Spread (b.tokens.tail ++ more) text) :
    ∃ rest, segments text = (b.toBytes, rest) ∧ Spread (.closeBits :: more) rest := by
  unfold BitString.tokens at h
  unfold segments
  split at h
  · -- One string.
    rename_i hcase
    rw [Bool.and_eq_true, List.all_eq_true] at hcase
    obtain ⟨rest, hsegment, hrest⟩ := segment?_string hcase.2 .nil h
    refine ⟨rest, ?_, hrest⟩
    rw [List.nil_append] at hsegment
    rw [hsegment]
    dsimp only
    rw [moreSegments_closeBits _ hrest, List.append_nil]
  · -- Byte values, perhaps none.
    cases hbytes : b.toBytes with
    | nil =>
      rw [hbytes] at h
      refine ⟨text, ?_, h⟩
      rw [segment?_closeBits h]
    | cons c bytes =>
      rw [hbytes] at h
      have hspread : Spread (.byte c :: (BitString.byteTokens bytes ++ .closeBits :: more))
          text := by
        simpa [BitString.byteTokens] using h
      obtain ⟨rest, hsegment, hrest⟩ := segment?_byte (ends_byteTokens bytes) .nil hspread
      -- The number of further bytes is bounded by the characters that are left for them.
      have hbound : bytes.length ≤ rest.length := by
        have hlength := hrest.length_le
        simp only [BitString.byteTokens, List.length_append, List.length_flatMap, List.length_cons,
          List.length_nil, List.map_const', List.sum_replicate, smul_eq_mul] at hlength
        omega
      obtain ⟨last, hmore, hlast⟩ := moreSegments_eq hbound hrest
      refine ⟨last, ?_, hlast⟩
      rw [List.nil_append] at hsegment
      rw [hsegment]
      dsimp only
      rw [hmore]
      rfl

/-- A binary is read from the tokens after its beginning. -/
theorem binary?_eq {b : BitString} (hgap : Gap gap) (h : Spread (b.tokens.tail ++ more) text) :
    ∃ gap' rest, binary? (gap ++ text) = some (.ofBytes b.toBytes, gap' ++ rest) ∧ Gap gap' ∧
      Spread more rest := by
  obtain ⟨rest, hsegments, hrest⟩ := segments_eq h
  obtain ⟨gap', last, rfl, hgap', hlast⟩ := hrest.of_cons
  refine ⟨gap', last, ?_, hgap', hlast⟩
  unfold binary?
  rw [h.skip_gap hgap, hsegments]
  rfl

end Binaries

/-! ## Terms -/

section Terms

variable {bound : Nat} {text rest : List Char}

/-- A term that begins with a brace is a tuple. -/
theorem termWithin_tuple {elements : List Term} (h : skip text = '{' :: rest)
    (helements : elementsWithin bound (skip rest) = (elements, '}' :: last)) :
    termWithin (bound + 1) text = some (.tuple elements, skip last) := by
  simp [termWithin, h, helements, expect?]

/-- A term that begins with a bracket is a list. -/
theorem termWithin_list {elements : List Term} {tail : Term} {middle : List Char}
    (h : skip text = '[' :: rest)
    (helements : elementsWithin bound (skip rest) = (elements, middle))
    (htail : tailWithin bound middle = (tail, ']' :: last)) :
    termWithin (bound + 1) text = some (.listWithTail elements tail, skip last) := by
  simp [termWithin, h, helements, htail, expect?]

/-- A term that begins with two angles is a binary. -/
theorem termWithin_bits (h : skip text = '<' :: '<' :: rest)
    (hbinary : binary? rest = some (t, last)) :
    termWithin (bound + 1) text = some (t, skip last) := by
  simp [termWithin, h, hbinary]

/-- A term that begins with a quote is an atom. -/
theorem termWithin_quoted {body : List Char} (h : skip text = '\'' :: rest)
    (hquoted : quoted? '\'' rest = some (body, last)) :
    termWithin (bound + 1) text = some (.atom (String.ofList body), skip last) := by
  simp [termWithin, h, hquoted]

/-- The characters with which a bracket or a quotation begins. -/
def opens (c : Char) : Bool := c == '{' || c == '[' || c == '<' || c == '"' || c == '\''

/-- Numbers and bare atoms begin otherwise. -/
theorem opens_of_isAtomChar (h : isAtomChar c = true) : opens c = false := by
  by_contra hopens
  simp only [opens, Bool.not_eq_false, Bool.or_eq_true, beq_iff_eq] at hopens
  rcases hopens with (((rfl | rfl) | rfl) | rfl) | rfl
  all_goals exact absurd h (by decide)

/-- A term that begins otherwise is a number or a bare atom. -/
theorem termWithin_bare (hc : opens c = false) (h : skip text = c :: rest) :
    termWithin (bound + 1) text =
      (float? (c :: rest) <|> integer? (c :: rest) <|> bareAtom? (c :: rest)).map
        fun (t, rest) => (t, skip rest) := by
  simp only [opens, Bool.or_eq_false_iff, beq_eq_false_iff_ne, ne_eq] at hc
  obtain ⟨⟨⟨⟨hbrace, hbracket⟩, hangle⟩, hquote⟩, hapostrophe⟩ := hc
  rw [termWithin, h]
  split <;> simp_all

/-- The characters with which a term begins. -/
def begins (c : Char) : Bool := opens c || c.isDigit || c == '-' || c.isLower

/-- No term begins with any other. -/
theorem termWithin_eq_none (hc : begins c = false) (h : skip text = c :: rest) :
    termWithin bound text = none := by
  simp only [begins, Bool.or_eq_false_iff, beq_eq_false_iff_ne] at hc
  obtain ⟨⟨⟨hopens, hdigit⟩, hminus⟩, hlower⟩ := hc
  obtain ⟨hfloat, hinteger⟩ := no_number hdigit hminus rest
  cases bound with
  | zero => rw [termWithin]
  | succ bound =>
    rw [termWithin_bare hopens h, hfloat, hinteger]
    simp [bareAtom?, hlower]

/-- No elements come before such a character. -/
theorem elementsWithin_eq_nil (hc : begins c = false) (h : skip text = c :: rest) :
    elementsWithin bound text = ([], text) := by
  cases bound with
  | zero => rw [elementsWithin]
  | succ bound => rw [elementsWithin, termWithin_eq_none hc h]

section Elements

variable {t : Term} {ts : List Term} {middle : List Char}
  (ht : termWithin bound text = some (t, middle)) (hts : moreWithin bound middle = (ts, rest))
include ht hts

/-- A first element is read, and then those after commas. -/
theorem elementsWithin_cons : elementsWithin (bound + 1) text = (t :: ts, rest) := by
  rw [elementsWithin, ht]
  dsimp only
  rw [hts]

/-- An element after a comma is read, and then those after it. -/
theorem moreWithin_cons : moreWithin (bound + 1) (',' :: text) = (t :: ts, rest) := by
  rw [moreWithin, ht]
  dsimp only
  rw [hts]

end Elements

end Terms

/-- A term is read from its tokens, where something follows that separates it from the rest. -/
def Reads (t : Term) : Prop :=
  ∀ (bound : Nat) (more : List Token) (gap text : List Char), (t.tokens false).length ≤ bound →
    Ends more → Gap gap → Spread (t.tokens false ++ more) text →
    ∃ rest, termWithin bound (gap ++ text) = some (t.reread, rest) ∧ Spread more rest

/-- A term is read from its tokens, whatever follows. -/
def ReadsClosed (t : Term) : Prop :=
  ∀ (bound : Nat) (more : List Token) (gap text : List Char), (t.tokens false).length ≤ bound →
    Gap gap → Spread (t.tokens false ++ more) text →
    ∃ rest, termWithin bound (gap ++ text) = some (t.reread, rest) ∧ Spread more rest

theorem ReadsClosed.reads (h : ReadsClosed t) : Reads t :=
  fun bound more gap text hbound _ hgap hspread => h bound more gap text hbound hgap hspread

/-- The rest of a list is read from its tokens: its elements, and the tail that is left. -/
def ReadsTail (t : Term) : Prop :=
  ∀ (bound bound' : Nat) (more : List Token) (text : List Char), (t.tokens true).length ≤ bound →
    (t.tokens true).length ≤ bound' → Spread (t.tokens true ++ .closeBracket :: more) text →
    ∃ elements middle tail rest, moreWithin bound text = (elements, middle) ∧
      tailWithin bound' middle = (tail, rest) ∧ Term.listWithTail elements tail = t.reread ∧
      Spread (.closeBracket :: more) rest

/-- Elements of a tuple, each after a comma, are read from their tokens. -/
def ReadsMore (ts : List Term) : Prop :=
  ∀ (bound : Nat) (more : List Token) (text : List Char), (Term.moreTokens ts).length ≤ bound →
    Spread (Term.moreTokens ts ++ .closeBrace :: more) text →
    ∃ rest, moreWithin bound text = (Term.rereadAll ts, rest) ∧ Spread (.closeBrace :: more) rest

/-- A term of one token is read if its reader reads the token. -/
theorem reads_token {token : Token} (htokens : t.tokens false = [token])
    (hread : ∀ (bound : Nat) (text rest : List Char), Stops rest →
      skip text = token.text ++ rest → termWithin (bound + 1) text = some (t.reread, skip rest)) :
    Reads t := by
  intro bound more gap text hbound hends hgap hspread
  rw [htokens] at hbound hspread
  obtain ⟨bound, rfl⟩ : ∃ k, bound = k + 1 := ⟨bound - 1, by simp at hbound; omega⟩
  have hskip := hspread.skip_gap hgap
  obtain ⟨gap', rest, rfl, hgap', hrest⟩ := hspread.of_cons
  refine ⟨rest, ?_, hrest⟩
  rw [hread bound _ _ (hrest.stops hends hgap') hskip, hrest.skip_gap hgap']

/-- An integer is read. -/
theorem reads_integer (i : Int64) : Reads (.integer i) := by
  refine reads_token rfl fun bound text rest hstops hskip => ?_
  -- Floats are tried first.
  have hfloat := float?_integer i hstops
  have hinteger := integer?_eq i hstops
  obtain ⟨c, tail, hcons, hopens⟩ : ∃ c tail, (Token.integer i).text ++ rest = c :: tail ∧
      opens c = false := by
    have htext : (Token.integer i).text = _ := toList_integer i.toInt
    obtain ⟨c, tail, hcons, hdigit⟩ := toDigits_eq_cons i.toInt.natAbs
    rw [htext, hcons]
    by_cases h : i.toInt < 0
    · rw [if_pos h]
      exact ⟨'-', _, rfl, by decide⟩
    · rw [if_neg h]
      exact ⟨c, _, rfl, opens_of_isAtomChar (isAtomChar_of_isDigit hdigit)⟩
  rw [hcons] at hskip
  rw [termWithin_bare hopens hskip, ← hcons]
  show ((float? ((toString i.toInt).toList ++ rest) <|> integer? ((toString i.toInt).toList ++ rest)
    <|> bareAtom? ((toString i.toInt).toList ++ rest)).map fun (t, rest) => (t, skip rest)) = _
  rw [hfloat, hinteger]
  rfl

/-- An atom is read. -/
theorem reads_atom (a : Atom) : Reads (.atom a) := by
  refine reads_token rfl fun bound text rest hstops hskip => ?_
  change skip text = a.text.toList ++ rest at hskip
  cases hbare : a.isBare with
  | true =>
    have hatom := bareAtom?_eq hbare hstops
    obtain ⟨c, tail, htext, -, hlower, -⟩ := toList_bare hbare
    obtain ⟨hdigit, hminus⟩ := not_number_of_isLower hlower
    obtain ⟨hfloat, hinteger⟩ := no_number hdigit hminus (tail ++ rest)
    have hopens : opens c = false := opens_of_isAtomChar (isAtomChar_of_isLower hlower)
    rw [htext, List.cons_append] at hskip hatom
    rw [termWithin_bare hopens hskip, hfloat, hinteger, hatom]
    rfl
  | false =>
    have hquoted := quoted?_escaped a.name.toList rest
    rw [toList_quoted hbare] at hskip
    have hskip' : skip text = '\'' :: (a.name.toList.flatMap Atom.escapeChar ++ '\'' :: rest) := by
      simpa using hskip
    rw [termWithin_quoted hskip' hquoted, String.ofList_toList]
    rfl

/-- A binary is read. -/
theorem reads_bits (b : BitString) : Reads (.bits b) := by
  intro bound more gap text hbound _ hgap hspread
  obtain ⟨rest, htokens⟩ : ∃ rest, b.tokens = .openBits :: rest := by
    unfold BitString.tokens
    split
    · exact ⟨_, rfl⟩
    · exact ⟨_, rfl⟩
  have hbits : (Term.bits b).tokens false = b.tokens := rfl
  rw [hbits, htokens] at hbound hspread
  obtain ⟨bound, rfl⟩ : ∃ k, bound = k + 1 := ⟨bound - 1, by simp at hbound; omega⟩
  have hskip := hspread.skip_gap hgap
  obtain ⟨inner, text', rfl, hinner, hrest⟩ := hspread.of_cons
  have htail : Spread (b.tokens.tail ++ more) text' := by rw [htokens]; exact hrest
  obtain ⟨gap', last, hbinary, hgap', hlast⟩ := binary?_eq hinner htail
  refine ⟨last, ?_, hlast⟩
  rw [termWithin_bits hskip hbinary, hlast.skip_gap hgap']
  rfl

/-! ## Brackets -/

/-- Elements of a tuple end before the brace. -/
theorem ends_moreTokens (ts : List Term) (more : List Token) :
    Ends (Term.moreTokens ts ++ .closeBrace :: more) := by
  cases ts with
  | nil => rintro token ⟨⟩; trivial
  | cons t ts => rintro token ⟨⟩; trivial

/-- An element of a list ends before the rest of the list. -/
theorem ends_tokens (h : t.Readable) (more : List Token) :
    Ends (t.tokens true ++ .closeBracket :: more) := by
  have hdata := Term.Every.self h
  cases t with
  | nil | cons | integer | atom | tuple | bits => rintro token ⟨⟩; trivial
  | _ => exact hdata.elim

/-- No further elements come where there is no comma. -/
theorem moreWithin_eq_nil (hc : c ≠ ',') (bound : Nat) (rest : List Char) :
    moreWithin bound (c :: rest) = ([], c :: rest) := by
  cases bound with
  | zero => rw [moreWithin]
  | succ bound =>
    rw [moreWithin]
    intro rest' heq
    exact hc (List.cons.inj heq).1

/-- The tail of a list that is not proper is read after the bar. -/
theorem readsTail_of_reads (hreads : Reads t) (htokens : t.tokens true = .bar :: t.tokens false) :
    ReadsTail t := by
  intro bound bound' more text _ hbound' hspread
  rw [htokens] at hbound' hspread
  rw [List.length_cons] at hbound'
  obtain ⟨bound', rfl⟩ : ∃ k, bound' = k + 1 := ⟨bound' - 1, by omega⟩
  obtain ⟨gap, text', rfl, hgap, hspread'⟩ := hspread.of_cons
  have hends : Ends (.closeBracket :: more) := by rintro token ⟨⟩; trivial
  obtain ⟨rest, hread, hrest⟩ :=
    hreads bound' (.closeBracket :: more) gap text' (by omega) hends hgap hspread'
  refine ⟨[], '|' :: (gap ++ text'), t.reread, rest, ?_, ?_, rfl, hrest⟩
  · exact moreWithin_eq_nil (by decide) bound _
  · rw [tailWithin, hread]

/-- One more element of a tuple is read. -/
theorem readsMore_cons {ts : List Term} (ht : Reads t) (hts : ReadsMore ts) :
    ReadsMore (t :: ts) := by
  intro bound more text hbound hspread
  rw [Term.moreTokens, List.length_cons, List.length_append] at hbound
  rw [Term.moreTokens, List.cons_append, List.append_assoc] at hspread
  obtain ⟨bound, rfl⟩ : ∃ k, bound = k + 1 := ⟨bound - 1, by omega⟩
  obtain ⟨gap, text', rfl, hgap, hspread'⟩ := hspread.of_cons
  obtain ⟨middle, hread, hmiddle⟩ :=
    ht bound _ gap text' (by omega) (ends_moreTokens ts more) hgap hspread'
  obtain ⟨rest, hmore, hrest⟩ := hts bound more middle (by omega) hmiddle
  exact ⟨rest, moreWithin_cons hread hmore, hrest⟩

/-- A tuple is read, and its brace is the end of it. -/
theorem readsClosed_tuple {elements : List Term}
    (h : ∀ t ts, elements = t :: ts → Reads t ∧ ReadsMore ts) : ReadsClosed (.tuple elements) := by
  intro bound more gap text hbound hgap hspread
  have htokens : (Term.tuple elements).tokens false =
      .openBrace :: ((Term.moreTokens elements).tail ++ [.closeBrace]) := rfl
  rw [htokens, List.length_cons, List.length_append] at hbound
  rw [htokens, List.cons_append, List.append_assoc] at hspread
  obtain ⟨bound, rfl⟩ : ∃ k, bound = k + 1 := ⟨bound - 1, by omega⟩
  have hskip := hspread.skip_gap hgap
  obtain ⟨inner, text', rfl, hinner, hspread'⟩ := hspread.of_cons
  -- The elements are read up to the brace.
  obtain ⟨rest, helements, hrest⟩ : ∃ rest, elementsWithin bound text' =
      (Term.rereadAll elements, rest) ∧ Spread (.closeBrace :: more) rest := by
    cases elements with
    | nil =>
      have hclose := hspread'.skip_eq
      obtain ⟨gap', last, rfl, -, -⟩ := hspread'.of_cons
      exact ⟨_, elementsWithin_eq_nil (by decide) hclose, hspread'⟩
    | cons t ts =>
      obtain ⟨ht, hts⟩ := h t ts rfl
      rw [Term.moreTokens, List.tail_cons, List.length_append] at hbound
      rw [Term.moreTokens, List.tail_cons, List.append_assoc] at hspread'
      obtain ⟨bound, rfl⟩ : ∃ k, bound = k + 1 := ⟨bound - 1, by simp at hbound; omega⟩
      rw [List.length_singleton] at hbound
      obtain ⟨middle, hread, hmiddle⟩ :=
        ht bound _ [] text' (by omega) (ends_moreTokens ts more) .nil hspread'
      obtain ⟨rest, hmore, hrest⟩ := hts bound more middle (by omega) hmiddle
      exact ⟨rest, elementsWithin_cons hread hmore, hrest⟩
  obtain ⟨gap', last, rfl, hgap', hlast⟩ := hrest.of_cons
  rw [← hspread'.skip_gap hinner] at helements
  have hread : termWithin (bound + 1) _ = some (_, skip (gap' ++ last)) :=
    termWithin_tuple hskip helements
  rw [hlast.skip_gap hgap'] at hread
  exact ⟨last, hread, hlast⟩

/-- A list is read if what is between its brackets is. -/
theorem reads_list (tokens : List Token)
    (htokens : t.tokens false = .openBracket :: (tokens ++ [.closeBracket]))
    (hinside : ∀ bound more text, tokens.length + 1 ≤ bound →
      Spread (tokens ++ .closeBracket :: more) text →
      ∃ elements middle tail rest, elementsWithin bound text = (elements, middle) ∧
        tailWithin bound middle = (tail, rest) ∧ Term.listWithTail elements tail = t.reread ∧
        Spread (.closeBracket :: more) rest) : Reads t := by
  intro bound more gap text hbound _ hgap hspread
  rw [htokens, List.length_cons, List.length_append] at hbound
  rw [htokens, List.cons_append, List.append_assoc] at hspread
  obtain ⟨bound, rfl⟩ : ∃ k, bound = k + 1 := ⟨bound - 1, by omega⟩
  have hskip := hspread.skip_gap hgap
  obtain ⟨inner, text', rfl, hinner, hspread'⟩ := hspread.of_cons
  obtain ⟨elements, middle, tail, rest, helements, htail, heq, hrest⟩ :=
    hinside bound more text' (by simpa using hbound) hspread'
  obtain ⟨gap', last, rfl, hgap', hlast⟩ := hrest.of_cons
  rw [← hspread'.skip_gap hinner] at helements
  have hread : termWithin (bound + 1) _ = some (_, skip (gap' ++ last)) :=
    termWithin_list hskip helements htail
  rw [hlast.skip_gap hgap', heq] at hread
  exact ⟨last, hread, hlast⟩

/-- The empty list and the end of a list are read. -/
theorem reads_nil : Reads .nil ∧ ReadsTail .nil := by
  have htail : ∀ bound rest, tailWithin bound (']' :: rest) = (.nil, ']' :: rest) := by
    intro bound rest
    cases bound with
    | zero => rw [tailWithin]
    | succ bound => rfl
  constructor
  · refine reads_list [] rfl fun bound more text _ hspread => ?_
    have hclose := hspread.skip_eq
    obtain ⟨gap, rest, rfl, -, -⟩ := hspread.of_cons
    exact ⟨[], _, .nil, _, elementsWithin_eq_nil (by decide) hclose, htail bound _, rfl, hspread⟩
  · intro bound bound' more text _ _ hspread
    have hspread' : Spread (.closeBracket :: more) text := hspread
    obtain ⟨gap, rest, rfl, -, -⟩ := hspread'.of_cons
    exact ⟨[], _, .nil, _, moreWithin_eq_nil (by decide) bound _, htail bound' _, rfl, hspread'⟩

/-- A list and the rest of a list are read from their first element on. -/
theorem reads_cons {head tail : Term} (hreadable : tail.Readable) (hhead : Reads head)
    (htail : ReadsTail tail) : Reads (.cons head tail) ∧ ReadsTail (.cons head tail) := by
  have hends := ends_tokens hreadable
  constructor
  · -- By itself, the list has its first element right after the bracket.
    refine reads_list (head.tokens false ++ tail.tokens true) rfl
      fun bound more text hbound hspread => ?_
    rw [List.length_append] at hbound
    rw [List.append_assoc] at hspread
    obtain ⟨bound, rfl⟩ : ∃ k, bound = k + 1 := ⟨bound - 1, by omega⟩
    obtain ⟨middle, hread, hmiddle⟩ :=
      hhead bound _ [] text (by omega) (hends more) .nil hspread
    obtain ⟨elements, rest, last, final, hmore, hlast, heq, hfinal⟩ :=
      htail bound (bound + 1) more middle (by omega) (by omega) hmiddle
    refine ⟨head.reread :: elements, rest, last, final, elementsWithin_cons hread hmore, hlast, ?_,
      hfinal⟩
    rw [Term.reread, ← heq]
    rfl
  · -- As the rest of a list it has a comma before it, and the bound of the tail is one of its own.
    intro bound bound' more text hbound hbound' hspread
    have htokens : (Term.cons head tail).tokens true =
        .comma :: (head.tokens false ++ tail.tokens true) := by simp [Term.tokens]
    rw [htokens, List.length_cons, List.length_append] at hbound hbound'
    rw [htokens, List.cons_append, List.append_assoc] at hspread
    obtain ⟨bound, rfl⟩ : ∃ k, bound = k + 1 := ⟨bound - 1, by omega⟩
    obtain ⟨gap, text', rfl, hgap, hspread'⟩ := hspread.of_cons
    obtain ⟨middle, hread, hmiddle⟩ := hhead bound _ gap text' (by omega) (hends more) hgap hspread'
    obtain ⟨elements, rest, last, final, hmore, hlast, heq, hfinal⟩ :=
      htail bound bound' more middle (by omega) (by omega) hmiddle
    refine ⟨head.reread :: elements, rest, last, final, moreWithin_cons hread hmore, hlast, ?_,
      hfinal⟩
    rw [Term.reread, ← heq]
    rfl

/-! ## All terms -/

mutual

/-- Every readable term is read from its tokens, by itself and as the rest of a list. -/
theorem reads_of_readable : (t : Term) → t.Readable → Reads t ∧ ReadsTail t
  | .integer i, _ => ⟨reads_integer i, readsTail_of_reads (reads_integer i) rfl⟩
  | .atom a, _ => ⟨reads_atom a, readsTail_of_reads (reads_atom a) rfl⟩
  | .bits b, _ => ⟨reads_bits b, readsTail_of_reads (reads_bits b) rfl⟩
  | .nil, _ => reads_nil
  | .cons head tail, h =>
    reads_cons h.2.2 (reads_of_readable head h.2.1).1 (reads_of_readable tail h.2.2).2
  | .tuple [], _ =>
    have hreads : Reads (.tuple []) := (readsClosed_tuple fun t ts heq => by cases heq).reads
    ⟨hreads, readsTail_of_reads hreads rfl⟩
  | .tuple (t :: ts), h =>
    have hclosed : ReadsClosed (.tuple (t :: ts)) := readsClosed_tuple fun t' ts' heq => by
      cases heq
      exact ⟨(reads_of_readable t h.2.1).1, readsMore_of_readable ts h.2.2⟩
    have hreads : Reads (.tuple (t :: ts)) := hclosed.reads
    ⟨hreads, readsTail_of_reads hreads rfl⟩

/-- Readable terms are read as elements of a tuple. -/
theorem readsMore_of_readable : (ts : List Term) → Term.EveryOf Term.IsData ts → ReadsMore ts
  | [], _ => by
    intro bound more text _ hspread
    have hspread' : Spread (.closeBrace :: more) text := hspread
    obtain ⟨gap, rest, rfl, -, -⟩ := hspread'.of_cons
    exact ⟨_, moreWithin_eq_nil (by decide) bound _, hspread'⟩
  | t :: ts, h => readsMore_cons (reads_of_readable t h.1).1 (readsMore_of_readable ts h.2)

end

end Reader

namespace Term

/-- A text of a term: its tokens in order, with gaps before and after them. -/
def Spells (text : String) (t : Term) : Prop :=
  ∃ gap rest, text.toList = gap ++ rest ∧ Gap gap ∧ Spread (t.tokens false) rest

/-- The text of a readable term is one of its texts. -/
theorem spells_text {t : Term} (h : t.Readable) : Spells t.text t := by
  refine ⟨[], (t.tokens false).flatMap Token.text, ?_, .nil, spread_flatMap _⟩
  exact toList_render false t h

/-- Every text of a readable term is read as a term that is exactly equal to it. -/
theorem parse_of_spells {t : Term} (h : t.Readable) {text : String} (htext : Spells text t) :
    parse text = .ok t.reread := by
  obtain ⟨gap, rest, hchars, hgap, hspread⟩ := htext
  have hlength := hspread.length_le
  have hbound : (t.tokens false).length ≤ 2 * text.toList.length + 2 := by
    rw [hchars, List.length_append]
    omega
  have hends : Ends [] := by rintro token ⟨⟩
  have hspread' : Spread (t.tokens false ++ []) rest := by rw [List.append_nil]; exact hspread
  obtain ⟨last, hread, hlast⟩ := (reads_of_readable t h).1 _ [] gap rest hbound hends hgap hspread'
  -- No tokens are left, so nothing of the text is.
  cases hlast
  rw [← hchars] at hread
  have hterm : term? text.toList = some (t.reread, []) := hread
  unfold parse
  dsimp only
  rw [hterm]

/-- Reading undoes writing. The text of a term made of integers, atoms, whole bytes, tuples and
lists consists of its tokens and is read as a term that is exactly equal to it. So is every text
that has blanks and comments between these tokens. -/
theorem parse_text (t : Term) (h : t.Readable) :
    t.text.toList = (t.tokens false).flatMap Token.text ∧
      (∃ u, parse t.text = .ok u ∧ u.exactEq t = true) ∧
      ∀ text, Spells text t → ∃ u, parse text = .ok u ∧ u.exactEq t = true := by
  have hequal := exactEq_reread t h
  refine ⟨toList_render false t h, ?_, fun text htext => ?_⟩
  · exact ⟨t.reread, parse_of_spells h (spells_text h), hequal⟩
  · exact ⟨t.reread, parse_of_spells h htext, hequal⟩

/-- A tuple of an atom in quotes and a list that is not proper, with a comment and blanks between
its tokens. -/
theorem parse_text_commented :
    ∃ u, parse " \x7b'it\\'s',% a quote\n[ -7|<<255>>]\x7d\t" = .ok u ∧
      u.exactEq (tuple [atom "it's", cons (integer (-7)) (ofBytes [255])]) = true := by
  refine (parse_text (tuple [atom "it's", cons (integer (-7)) (ofBytes [255])]) ?_).2.2 _ ?_
  · simp [Readable, Every, EveryOf, IsData, ofBytes, BitString.ofBytes, BitString.isBinary]
  · have hspace : Gap [' '] := .blank (by decide) .nil
    have htab : Gap ['\t'] := .blank (by decide) .nil
    have hcomment : Gap ('%' :: ([' ', 'a', ' ', 'q', 'u', 'o', 't', 'e'] ++ ['\n'])) :=
      .comment (by simp [isLineEnd]) (by decide) .nil
    have htokens : (tuple [atom "it's", cons (integer (-7)) (ofBytes [255])]).tokens false =
        [.openBrace, .atom "it's", .comma, .openBracket, .integer (-7), .bar, .openBits, .byte 255,
          .closeBits, .closeBracket, .closeBrace] := by
      cbv
    unfold Spells
    refine ⟨[' '], _, ?_, hspace, .cons .nil (.cons .nil (.cons hcomment (.cons hspace (.cons .nil
      (.cons .nil (.cons .nil (.cons .nil (.cons .nil (.cons .nil (.cons htab .nil))))))))))⟩
    cbv

end Term

end ErlangMachine
