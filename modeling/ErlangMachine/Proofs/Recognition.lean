import ErlangMachine.Proofs.Equality
import ErlangMachine.Proofs.Grammar
import ErlangMachine.Proofs.ReadBack

/-!
# The reader recognizes the grammar

Each reader is related to its rule of the grammar in both directions. What a reader reads is an
instance of the rule, and the text that it leaves is what the rule leaves, without the blanks and
comments at its beginning. The other way round, a reader reads every instance of its rule, if the
text after it does not go on with a number or an atom: a reader of digits or letters takes as many
as there are. Wherever a rule is used something else follows, so nothing is lost by that.

A reader of elements also stops by itself, at a separator that no element follows. That is why the
reader accepts one kind of text that the grammar proper does not have: a list with a tail and no
elements.
-/

namespace ErlangMachine.Reader

variable {l l' digits l₁ text rest : List Char} {negative : Bool} {c : Char} {t : Term}
  {bytes : List UInt8} {bound : Nat} {e : Int} {last : List Char}

/-! ## Quotations -/

/-- A quotation is read if and only if it is one. -/
theorem quoted?_eq_some_iff {quote : Char} (hquote : quote ≠ '\\') {body : List Char} :
    quoted? quote l = some (body, l') ↔ Quoted quote l body l' := by
  constructor
  · -- The first induction follows the reader, the second the grammar.
    intro h
    fun_induction quoted? quote l generalizing body with
    | case1 => cases h
    | case2 rest =>
      cases h
      exact .close _
    | case3 => cases h
    | case4 e rest _ ih =>
      obtain ⟨⟨body', rest'⟩, hrest, heq⟩ := Option.map_eq_some_iff.1 h
      cases heq
      have hread := ih hrest
      unfold unescape
      split
      case isTrue he => exact he ▸ .newline hread
      case isFalse hn =>
        split
        case isTrue he => exact he ▸ .tab hread
        case isFalse ht => exact .escaped hn ht hread
    | case5 c rest hc hbackslash ih =>
      obtain ⟨⟨body', rest'⟩, hrest, heq⟩ := Option.map_eq_some_iff.1 h
      cases heq
      exact .plain hc hbackslash (ih hrest)
  · intro h
    induction h with
    | close l => exact quoted?_quote quote l
    | plain hc hbackslash _ ih => rw [quoted?_cons hc hbackslash, ih]; rfl
    | newline _ ih | tab _ ih => rw [quoted?_backslash hquote.symm, ih]; rfl
    | @escaped c _ _ _ hn ht _ ih =>
      have hsame : unescape c = c := by simp [unescape, hn, ht]
      rw [quoted?_backslash hquote.symm, ih, hsame]
      rfl

/-! ## Numbers -/

/-- The value of digits is the number that they stand for. -/
theorem digitsValue_eq (digits : List Char) : digitsValue digits = number digits :=
  Nat.ofDigitChars_eq_foldl.symm

/-- Digits that are read are digits. -/
theorem digits_of_digits? (h : digits? l = some (digits, l')) : Digits l digits l' := by
  unfold digits? at h
  split at h
  case h_1 => cases h
  case h_2 hne =>
    cases h
    exact ⟨List.takeWhile_append_dropWhile.symm, fun heq => hne heq,
      fun c hc => List.mem_takeWhile_imp hc⟩

/-- Digits are read up to the point where they end. -/
theorem Digits.digits?_eq (h : Digits l digits l') (hend : ∀ c ∈ l'.head?, c.isDigit = false) :
    digits? l = some (digits, l') := by
  obtain ⟨rfl, hne, hdigits⟩ := h
  obtain ⟨htake, hdrop⟩ := span_append hdigits hend
  unfold digits?
  rw [htake, hdrop]
  cases digits with
  | nil => exact absurd rfl hne
  | cons c digits => rfl

/-- Digits begin with a digit. -/
theorem Digits.exists_cons (h : Digits l digits l') :
    ∃ c rest, l = c :: rest ∧ c.isDigit = true := by
  obtain ⟨rfl, hne, hdigits⟩ := h
  cases digits with
  | nil => exact absurd rfl hne
  | cons c digits => exact ⟨c, digits ++ l', rfl, hdigits c List.mem_cons_self⟩

/-- The digits on both sides of a point are those of one number. -/
theorem value_eq_decimal (whole part : List Char) (e : Int) :
    Decimal.value ⟨number (whole ++ part), e - part.length⟩ = decimal whole part e := by
  have happend : number (whole ++ part) = 10 ^ part.length * number whole + number part := by
    unfold number
    rw [Nat.ofDigitChars_append, Nat.ofDigitChars_eq_ofDigitChars_zero]
  unfold Decimal.value decimal
  rw [happend, zpow_sub₀ (by norm_num), zpow_natCast]
  push_cast
  field_simp

/-- A sign that is read is one. -/
theorem sign_sign (l : List Char) : Sign l (sign l).1 (sign l).2 := by
  unfold sign
  split
  · exact .minus _
  · exact .none _

/-- A sign before digits is read. -/
theorem Sign.sign_eq (h : Sign l negative l₁) (hdigits : Digits l₁ digits l') :
    sign l = (negative, l₁) := by
  cases h with
  | minus => rfl
  | none =>
    obtain ⟨c, rest, rfl, hc⟩ := hdigits.exists_cons
    refine Reader.sign_eq ?_ rest
    rintro rfl
    exact absurd hc (by decide)

/-- A sign and digits begin with a character that does not open a bracket or a quotation. -/
theorem Sign.exists_cons (h : Sign l negative l₁) (hdigits : Digits l₁ digits l') :
    ∃ c rest, l = c :: rest ∧ opens c = false ∧ Solid c := by
  cases h with
  | minus => exact ⟨'-', l₁, rfl, by decide, by decide⟩
  | none =>
    obtain ⟨c, rest, rfl, hc⟩ := hdigits.exists_cons
    have hatom := isAtomChar_of_isDigit hc
    exact ⟨c, rest, rfl, opens_of_isAtomChar hatom, solid_of_isAtomChar hatom⟩

/-- An exponent that is read is one. -/
theorem exponent_exponent (l : List Char) : Exponent l (exponent l).1 (exponent l).2 := by
  unfold exponent
  split
  case h_2 => exact .none _
  case h_1 e rest =>
    split
    case isFalse => exact .none _
    case isTrue he =>
      dsimp only
      split
      case h_2 => exact .none _
      case h_1 digits l' hdigits =>
        revert hdigits
        -- There is a plus, a minus or no sign.
        split <;> intro hdigits
        · exact digitsValue_eq digits ▸ .plus he (digits_of_digits? hdigits)
        · exact digitsValue_eq digits ▸ .minus he (digits_of_digits? hdigits)
        · exact digitsValue_eq digits ▸ .unsigned he (digits_of_digits? hdigits)

/-- An exponent is read. -/
theorem Exponent.exponent_eq (h : Exponent l e l') (hl' : Stops l') : exponent l = (e, l') := by
  cases h with
  | none =>
    cases l with
    | nil => rfl
    | cons c l =>
      have hmark : ¬ (c = 'e' ∨ c = 'E') := by
        rintro (rfl | rfl) <;> exact absurd (hl' _ rfl).1 (by decide)
      simp [exponent, hmark]
  | unsigned he h =>
    have hread := h.digits?_eq hl'.not_isDigit
    obtain ⟨c, rest, rfl, hc⟩ := h.exists_cons
    have hplus : c ≠ '+' := by rintro rfl; exact absurd hc (by decide)
    have hminus : c ≠ '-' := by rintro rfl; exact absurd hc (by decide)
    simp [exponent, he, hplus, hminus, hread, digitsValue_eq]
  | plus he h | minus he h =>
    simp [exponent, he, h.digits?_eq hl'.not_isDigit, digitsValue_eq]

/-- What follows a point and digits, up to the end of an exponent, is no digit. -/
theorem Exponent.not_isDigit (h : Exponent l e l') (hl' : Stops l') :
    ∀ c ∈ l.head?, c.isDigit = false := by
  cases h with
  | none => exact hl'.not_isDigit
  | unsigned he _ | plus he _ | minus he _ =>
    rintro c ⟨⟩
    rcases he with rfl | rfl <;> decide

/-- The character that had to come. -/
theorem expect?_eq_some_iff : expect? c l = some l' ↔ l = c :: l' := by
  cases l with
  | nil => simp [expect?]
  | cons d l =>
    by_cases h : c = d
    · simp [expect?, h]
    · simp [expect?, h, Ne.symm h]

/-- A float that is read is one. -/
theorem scalar_of_float? (h : float? l = some (t, l')) : Scalar l t l' := by
  have hsign := sign_sign l
  simp only [float?, Option.bind_eq_bind, Option.bind_eq_some_iff] at h
  obtain ⟨⟨whole, l₁⟩, hwhole, l₂, hpoint, ⟨part, l₃⟩, hpart, heq⟩ := h
  cases heq
  obtain rfl := expect?_eq_some_iff.1 hpoint
  refine .float hsign (digits_of_digits? hwhole) (digits_of_digits? hpart) (exponent_exponent l₃) ?_
  rw [digitsValue_eq, ← value_eq_decimal]
  exact Binary64.rounded_ofDecimal _ _

/-- An integer that is read is one. -/
theorem scalar_of_integer? (h : integer? l = some (t, l')) : Scalar l t l' := by
  have hsign := sign_sign l
  simp only [integer?, Option.bind_eq_bind, Option.bind_eq_some_iff] at h
  obtain ⟨⟨digits, l₁⟩, hdigits, i, hi, heq⟩ := h
  cases heq
  have hvalue := Integer.toInt_of_ofInt? hi
  exact .integer hsign (digits_of_digits? hdigits) hvalue

/-- A bare atom that is read is one. -/
theorem scalar_of_bareAtom? (h : bareAtom? l = some (t, l')) : Scalar l t l' := by
  cases l with
  | nil => cases h
  | cons c l =>
    unfold bareAtom? at h
    dsimp only at h
    split at h
    case isFalse => cases h
    case isTrue hc =>
      cases h
      have hname : ∀ d ∈ l.takeWhile isAtomChar, isAtomChar d = true :=
        fun d hd => List.mem_takeWhile_imp hd
      have hscalar := @Scalar.bareAtom c _ (l.dropWhile isAtomChar) hc hname
      rwa [List.takeWhile_append_dropWhile] at hscalar

/-- A float is read. -/
theorem float?_eq {l₂ l₃ whole part : List Char} {x : Binary64} (hsign : Sign l negative l₁)
    (hwhole : Digits l₁ whole ('.' :: l₂)) (hpart : Digits l₂ part l₃)
    (hexponent : Exponent l₃ e l') (hx : x.Rounded negative (decimal whole part e))
    (hl' : Stops l') : float? l = some (.float x, l') := by
  rw [← value_eq_decimal, ← Binary64.ofDecimal_eq_iff] at hx
  have hpoint : ∀ c ∈ ('.' :: l₂).head?, c.isDigit = false := by
    rintro c ⟨⟩
    decide
  simp [float?, hsign.sign_eq hwhole, hwhole.digits?_eq hpoint, expect?,
    hpart.digits?_eq (hexponent.not_isDigit hl'), hexponent.exponent_eq hl', digitsValue_eq, hx]

/-- An integer is read, and not as a float. -/
theorem integer?_eq_of_stops {i : Int64} (hsign : Sign l negative l₁)
    (hdigits : Digits l₁ digits l') (hi : i.toInt = signed negative (number digits))
    (hl' : Stops l') : float? l = none ∧ integer? l = some (.integer i, l') := by
  have hread := hdigits.digits?_eq hl'.not_isDigit
  have hpoint : expect? '.' l' = none := by
    cases h : expect? '.' l' with
    | none => rfl
    | some l₂ =>
      obtain rfl := expect?_eq_some_iff.1 h
      exact absurd rfl (hl' _ rfl).2
  have hvalue : Integer.ofInt? (if negative = true then -(number digits : Int) else number digits) =
      some i := Integer.ofInt?_of_toInt hi
  constructor
  · simp [float?, hsign.sign_eq hdigits, hread, hpoint]
  · simp [integer?, hsign.sign_eq hdigits, hread, digitsValue_eq, hvalue]

/-! ## What is read is in the grammar -/

theorem skipped_of_skip_eq (h : skip l = l') : Skipped l l' :=
  h ▸ skipped_skip l

/-- A part of a binary that is read is one. -/
theorem segment_of_segment? (h : segment? text = some (bytes, rest)) :
    ∃ l', Segment (skip text) bytes l' ∧ rest = skip l' := by
  unfold segment? at h
  split at h
  case h_1 l heq =>
    obtain ⟨⟨body, l'⟩, hquoted, heq'⟩ := Option.map_eq_some_iff.1 h
    cases heq'
    rw [heq]
    exact ⟨l', .string ((quoted?_eq_some_iff (by decide)).1 hquoted), rfl⟩
  case h_2 =>
    obtain ⟨⟨digits, l'⟩, hdigits, h⟩ := Option.bind_eq_some_iff.1 h
    dsimp only at h
    split at h
    case isFalse => cases h
    case isTrue hlt =>
      cases h
      refine ⟨l', .byte (digits_of_digits? hdigits) ?_, rfl⟩
      exact UInt8.toNat_ofNat_of_lt' hlt

/-- The parts of a binary that are read after a first one. -/
theorem segments_of_moreSegments {more : List UInt8} (h : Segment l bytes l₁)
    (hmore : moreSegments bound (skip l₁) = (more, rest)) :
    ∃ l', Segments l (bytes ++ more) l' ∧ rest = skip l' := by
  have hone : Segments l (bytes ++ []) l₁ := by
    rw [List.append_nil]
    exact .one h
  induction bound generalizing l l₁ bytes more with
  | zero =>
    cases hmore
    exact ⟨l₁, hone, rfl⟩
  | succ bound ih =>
    rw [moreSegments.eq_def] at hmore
    dsimp only at hmore
    split at hmore
    case h_2 =>
      cases hmore
      exact ⟨l₁, hone, rfl⟩
    case h_1 l₂ hcomma =>
      split at hmore
      case h_2 =>
        cases hmore
        exact ⟨l₁, hone, rfl⟩
      case h_1 next last hnext =>
        obtain ⟨l₃, hsegment, rfl⟩ := segment_of_segment? hnext
        cases hmore
        obtain ⟨l', hrest, hl'⟩ := ih hsegment rfl (by rw [List.append_nil]; exact .one hsegment)
        exact ⟨l', .more h (skipped_of_skip_eq hcomma) (skipped_skip l₂) hrest, hl'⟩

/-- A binary that is read is one. -/
theorem denotes_of_binary? (h : binary? l = some (t, l')) : Denotes 0 ('<' :: '<' :: l) t l' := by
  simp only [binary?, Option.bind_eq_bind, Option.bind_eq_some_iff, expect?_eq_some_iff] at h
  obtain ⟨l₁, hfirst, l₂, rfl, heq⟩ := h
  cases heq
  unfold segments at hfirst ⊢
  split at hfirst
  case h_2 => exact .noBytes (skipped_of_skip_eq hfirst)
  case h_1 bytes rest hsegment =>
    obtain ⟨l₃, hfirst', rfl⟩ := segment_of_segment? hsegment
    obtain ⟨l₄, hsegments, hl₄⟩ := segments_of_moreSegments hfirst' rfl
    rw [skip_skip] at hsegments
    exact .bytes (skipped_skip l) hsegments (skipped_of_skip_eq (hl₄.symm.trans hfirst))

/-- Terms that are read with a given bound are in the grammar. -/
def SoundWithin (bound : Nat) : Prop :=
  ∀ {text : List Char} {t : Term} {rest : List Char}, termWithin bound text = some (t, rest) →
    ∃ n l', Denotes n (skip text) t l' ∧ rest = skip l'

section Sound

variable {bound n : Nat} {text l l₁ rest : List Char} {t : Term} {ts : List Term}
  (hsound : ∀ b < bound, SoundWithin b)
include hsound

/-- The elements that are read after a first one. -/
theorem elements_of_moreWithin (h : Denotes n l t l₁)
    (hmore : moreWithin bound (skip l₁) = (ts, rest)) :
    ∃ k l', Elements k l (t :: ts) l' ∧ rest = skip l' := by
  induction bound generalizing n l t l₁ ts with
  | zero =>
    cases hmore
    exact ⟨n, l₁, .one h, rfl⟩
  | succ bound ih =>
    rw [moreWithin.eq_def] at hmore
    dsimp only at hmore
    split at hmore
    case h_2 =>
      cases hmore
      exact ⟨n, l₁, .one h, rfl⟩
    case h_1 l₂ hcomma =>
      split at hmore
      case h_2 =>
        cases hmore
        exact ⟨n, l₁, .one h, rfl⟩
      case h_1 next last hnext =>
        obtain ⟨k, l₃, hterm, rfl⟩ := hsound bound (Nat.lt_succ_self _) hnext
        cases hmore
        obtain ⟨k', l', hrest, hl'⟩ := ih (fun b hb => hsound b (Nat.lt_succ_of_lt hb)) hterm rfl
        exact ⟨n + k', l', .more h (skipped_of_skip_eq hcomma) (skipped_skip l₂) hrest, hl'⟩

/-- Elements that are read, if there are any. -/
theorem elements_of_elementsWithin (h : elementsWithin bound text = (ts, rest)) :
    (ts = [] ∧ rest = text) ∨ ∃ n l', Elements n (skip text) ts l' ∧ rest = skip l' := by
  cases bound with
  | zero =>
    cases h
    exact .inl ⟨rfl, rfl⟩
  | succ bound =>
    rw [elementsWithin] at h
    split at h
    case h_2 =>
      cases h
      exact .inl ⟨rfl, rfl⟩
    case h_1 t last hfirst =>
      obtain ⟨n, l₁, hterm, rfl⟩ := hsound bound (Nat.lt_succ_self _) hfirst
      cases h
      exact .inr (elements_of_moreWithin (fun b hb => hsound b (Nat.lt_succ_of_lt hb)) hterm rfl)

/-- A tail that is read, if there is one. -/
theorem tail_of_tailWithin (h : tailWithin bound text = (t, rest)) :
    (t = .nil ∧ rest = text) ∨ ∃ l₁, text = '|' :: l₁ ∧
      ∃ n l', Denotes n (skip l₁) t l' ∧ rest = skip l' := by
  cases bound with
  | zero =>
    cases h
    exact .inl ⟨rfl, rfl⟩
  | succ bound =>
    rw [tailWithin.eq_def] at h
    dsimp only at h
    split at h
    case h_2 =>
      cases h
      exact .inl ⟨rfl, rfl⟩
    case h_1 l₁ =>
      split at h
      case h_2 =>
        cases h
        exact .inl ⟨rfl, rfl⟩
      case h_1 t last hterm =>
        cases h
        exact .inr ⟨l₁, rfl, hsound bound (Nat.lt_succ_self _) hterm⟩

end Sound

/-- A tuple that is read is one. -/
theorem denotes_tuple {bound : Nat} {l middle l' : List Char} {ts : List Term}
    (hsound : ∀ b < bound, SoundWithin b)
    (helements : elementsWithin bound (skip l) = (ts, middle)) (hclose : middle = '}' :: l') :
    ∃ n, Denotes n ('{' :: l) (.tuple ts) l' := by
  rcases elements_of_elementsWithin hsound helements with ⟨rfl, rfl⟩ | ⟨n, l₁, h, rfl⟩
  · exact ⟨0, .emptyTuple (skipped_of_skip_eq hclose)⟩
  · rw [skip_skip] at h
    exact ⟨n, .tuple (skipped_skip l) h (skipped_of_skip_eq hclose)⟩

/-- A list that is read is one, but it may have a tail and no elements. -/
theorem denotes_list {bound : Nat} {l middle l' : List Char} {ts : List Term} {t : Term}
    (hsound : ∀ b < bound, SoundWithin b) (helements : elementsWithin bound (skip l) = (ts, middle))
    (htail : tailWithin bound middle = (t, last)) (hclose : last = ']' :: l') :
    ∃ n, Denotes n ('[' :: l) (.listWithTail ts t) l' := by
  rcases elements_of_elementsWithin hsound helements with ⟨rfl, rfl⟩ | ⟨n, l₁, h, rfl⟩
  · rcases tail_of_tailWithin hsound htail with ⟨rfl, rfl⟩ | ⟨l₂, hbar, k, l₃, hterm, rfl⟩
    · exact ⟨0, .emptyList (skipped_of_skip_eq hclose)⟩
    · exact ⟨k + 1, .bareTail (skipped_of_skip_eq hbar) (skipped_skip l₂) hterm
        (skipped_of_skip_eq hclose)⟩
  · rw [skip_skip] at h
    rcases tail_of_tailWithin hsound htail with ⟨rfl, rfl⟩ | ⟨l₂, hbar, k, l₃, hterm, rfl⟩
    · exact ⟨n, .list (skipped_skip l) h (skipped_of_skip_eq hclose)⟩
    · exact ⟨n + k, .listWithTail (skipped_skip l) h (skipped_of_skip_eq hbar) (skipped_skip l₂)
        hterm (skipped_of_skip_eq hclose)⟩

/-- Terms that are read are in the grammar. -/
theorem soundWithin (bound : Nat) : SoundWithin bound := by
  induction bound using Nat.strong_induction_on with
  | _ bound ih =>
    intro text t rest h
    cases bound with
    | zero =>
      cases h
    | succ bound =>
      have hsound : ∀ b < bound, SoundWithin b := fun b hb => ih b (Nat.lt_succ_of_lt hb)
      obtain ⟨⟨t, l'⟩, hread, heq⟩ := Option.map_eq_some_iff.1 h
      cases heq
      -- The rest comes without leading blanks, while a derivation ends at the last character read.
      suffices hterm : ∃ n, Denotes n (skip text) t l' by
        obtain ⟨n, hterm⟩ := hterm
        exact ⟨n, l', hterm, rfl⟩
      split at hread
      case h_1 l hl =>
        obtain ⟨l₁, hclose, heq'⟩ := Option.map_eq_some_iff.1 hread
        cases heq'
        rw [hl]
        exact denotes_tuple hsound rfl (expect?_eq_some_iff.1 hclose)
      case h_2 l hl =>
        obtain ⟨l₁, hclose, heq'⟩ := Option.map_eq_some_iff.1 hread
        cases heq'
        rw [hl]
        exact denotes_list hsound rfl rfl (expect?_eq_some_iff.1 hclose)
      case h_3 l hl =>
        rw [hl]
        exact ⟨0, denotes_of_binary? hread⟩
      case h_4 l hl =>
        obtain ⟨⟨body, l₁⟩, hquoted, heq'⟩ := Option.map_eq_some_iff.1 hread
        cases heq'
        rw [hl]
        exact ⟨0, .scalar (.string ((quoted?_eq_some_iff (by decide)).1 hquoted))⟩
      case h_5 l hl =>
        obtain ⟨⟨body, l₁⟩, hquoted, heq'⟩ := Option.map_eq_some_iff.1 hread
        cases heq'
        rw [hl]
        exact ⟨0, .scalar (.quotedAtom ((quoted?_eq_some_iff (by decide)).1 hquoted))⟩
      -- Without bracket or quote, a float is tried, then an integer, then an atom.
      case h_6 =>
        refine ⟨0, .scalar ?_⟩
        simp only [Option.orElse_eq_orElse, Option.orElse_eq_or, Option.or_eq_some_iff] at hread
        rcases hread with hfloat | ⟨-, hinteger | ⟨-, hatom⟩⟩
        · exact scalar_of_float? hfloat
        · exact scalar_of_integer? hinteger
        · exact scalar_of_bareAtom? hatom

/-! ## What is in the grammar is read -/

/-- A character that ends a sequence: it is not skipped, no number or atom goes on with it, and it
is no comma. -/
def Closes (c : Char) : Prop := Solid c ∧ (isAtomChar c = false ∧ c ≠ '.') ∧ c ≠ ','

instance (c : Char) : Decidable (Closes c) := inferInstanceAs (Decidable (_ ∧ _))

/-- Before a comma no number or atom goes on. -/
theorem Skipped.stops_comma (h : Skipped l (',' :: l')) : Stops l :=
  h.stops (by rintro c ⟨⟩; decide)

/-- Before the end of a sequence no number or atom goes on. -/
theorem Closes.stops (hc : Closes c) (h : Skipped l (c :: l')) : Stops l :=
  h.stops (by rintro d ⟨⟩; exact hc.2.1)

/-- A bare atom is read, and not as a number. -/
theorem bareAtom?_eq_of_stops {name : List Char} (hc : c.isLower = true)
    (hname : ∀ d ∈ name, isAtomChar d = true) (hl' : Stops l') :
    float? (c :: (name ++ l')) = none ∧ integer? (c :: (name ++ l')) = none ∧
      bareAtom? (c :: (name ++ l')) = some (.atom (String.ofList (c :: name)), l') := by
  obtain ⟨hdigit, hminus⟩ := not_number_of_isLower hc
  obtain ⟨hfloat, hinteger⟩ := no_number hdigit hminus (name ++ l')
  obtain ⟨htake, hdrop⟩ := span_append hname fun d hd => (hl' d hd).1
  refine ⟨hfloat, hinteger, ?_⟩
  simp [bareAtom?, hc, htake, hdrop]

/-- A term that begins with a double quote is a string. -/
theorem termWithin_string {body : List Char} (h : skip text = '"' :: rest)
    (hquoted : quoted? '"' rest = some (body, last)) :
    termWithin (bound + 1) text =
      some (.list (body.map fun c => .integer (.ofNat c.toNat)), skip last) := by
  simp [termWithin, h, hquoted]

/-- Nothing is skipped before a string, a number or an atom. -/
theorem Scalar.skip_eq (h : Scalar l t l') : skip l = l := by
  cases h with
  | string | quotedAtom => exact Solid.skip_eq (by decide) _
  | float hsign hdigits | integer hsign hdigits =>
    obtain ⟨c, rest, rfl, -, hc⟩ := hsign.exists_cons hdigits
    exact hc.skip_eq rest
  | bareAtom hc => exact Solid.skip_eq (solid_of_isAtomChar (isAtomChar_of_isLower hc)) _

/-- Strings, numbers and atoms are read. -/
theorem Scalar.termWithin_eq (h : Scalar l t l') (htext : skip text = skip l) (hl' : Stops l') :
    termWithin (bound + 1) text = some (t, skip l') := by
  rw [h.skip_eq] at htext
  cases h with
  | string h => exact termWithin_string htext ((quoted?_eq_some_iff (by decide)).2 h)
  | quotedAtom h => exact termWithin_quoted htext ((quoted?_eq_some_iff (by decide)).2 h)
  | float hsign hwhole hpart hexponent hx =>
    have hread := float?_eq hsign hwhole hpart hexponent hx hl'
    obtain ⟨c, rest, rfl, hc, -⟩ := hsign.exists_cons hwhole
    rw [termWithin_bare hc htext, hread]
    rfl
  | integer hsign hdigits hi =>
    obtain ⟨hfloat, hread⟩ := integer?_eq_of_stops hsign hdigits hi hl'
    obtain ⟨c, rest, rfl, hc, -⟩ := hsign.exists_cons hdigits
    rw [termWithin_bare hc htext, hfloat, hread]
    rfl
  | bareAtom hc hname =>
    obtain ⟨hfloat, hinteger, hread⟩ := bareAtom?_eq_of_stops hc hname hl'
    have hopens := opens_of_isAtomChar (isAtomChar_of_isLower hc)
    rw [termWithin_bare hopens htext, hfloat, hinteger, hread]
    rfl

/-- Nothing is skipped before a part of a binary. -/
theorem Segment.skip_eq (h : Segment l bytes l') : skip l = l := by
  cases h with
  | string => exact Solid.skip_eq (by decide) _
  | byte h =>
    obtain ⟨c, rest, rfl, hc⟩ := h.exists_cons
    exact Solid.skip_eq (solid_of_isAtomChar (isAtomChar_of_isDigit hc)) rest

/-- A part of a binary is read. -/
theorem Segment.segment?_eq (h : Segment l bytes l') (htext : skip text = skip l) (hl' : Stops l') :
    segment? text = some (bytes, skip l') := by
  rw [h.skip_eq] at htext
  cases h with
  | string h =>
    rw [segment?_quote htext, (quoted?_eq_some_iff (by decide)).2 h]
    rfl
  | @byte _ digits _ b h hb =>
    have hread := h.digits?_eq hl'.not_isDigit
    have hlt : number digits < 256 := hb ▸ b.toNat_lt
    obtain ⟨c, rest, rfl, hc⟩ := h.exists_cons
    unfold segment?
    split
    case h_1 l heq =>
      -- A digit is no quote.
      rw [htext] at heq
      obtain rfl := (List.cons.inj heq).1
      exact absurd hc (by decide)
    case h_2 =>
      rw [htext, hread, Option.bind_some]
      dsimp only
      rw [digitsValue_eq, if_pos hlt, ← hb, UInt8.ofNat_toNat]

/-- No further parts of a binary come where there is no comma. -/
theorem moreSegments_eq_nil (hc : c ≠ ',') (bound : Nat) (rest : List Char) :
    moreSegments bound (c :: rest) = ([], c :: rest) := by
  cases bound with
  | zero => rfl
  | succ bound =>
    rw [moreSegments]
    intro rest' heq
    exact hc (List.cons.inj heq).1

/-- Parts of a binary after a comma are read. -/
theorem Segments.moreSegments_eq (h : Segments l bytes l') (htext : skip text = skip l)
    (hc : Closes c) (hclose : Skipped l' (c :: last)) (hbound : l.length ≤ bound + l'.length) :
    moreSegments bound (',' :: text) = (bytes, c :: last) := by
  induction h generalizing bound text with
  | one h =>
    have hlt := h.length_lt
    obtain ⟨bound, rfl⟩ : ∃ b, bound = b + 1 := ⟨bound - 1, by omega⟩
    rw [moreSegments, h.segment?_eq htext (hc.stops hclose), hclose.skip_eq_cons hc.1]
    dsimp only
    rw [moreSegments_eq_nil hc.2.2, List.append_nil]
  | more h hcomma hskip hrest ih =>
    have hfirst := h.length_lt
    have hbefore := hcomma.length_le
    have hafter := hskip.length_le
    have hlast := hrest.length_lt
    rw [List.length_cons] at hbefore
    obtain ⟨bound, rfl⟩ : ∃ b, bound = b + 1 := ⟨bound - 1, by omega⟩
    rw [moreSegments, h.segment?_eq htext hcomma.stops_comma, hcomma.skip_eq_cons (by decide)]
    dsimp only
    rw [ih hskip.skip_eq hclose (by omega)]

/-- Parts of a binary are read. -/
theorem Segments.segments_eq (h : Segments l bytes l') (htext : skip text = skip l) (hc : Closes c)
    (hclose : Skipped l' (c :: last)) : segments text = (bytes, c :: last) := by
  unfold segments
  cases h with
  | one h =>
    rw [h.segment?_eq htext (hc.stops hclose), hclose.skip_eq_cons hc.1]
    dsimp only
    rw [moreSegments_eq_nil hc.2.2, List.append_nil]
  | more h hcomma hskip hrest =>
    have hafter := hskip.length_le
    rw [h.segment?_eq htext hcomma.stops_comma, hcomma.skip_eq_cons (by decide)]
    dsimp only
    rw [hrest.moreSegments_eq hskip.skip_eq hc hclose (by rw [List.length_cons]; omega)]

/-- A binary with nothing in it is read. -/
theorem binary?_eq_nil (h : skip l = '>' :: '>' :: l') : binary? l = some (.ofBytes [], l') := by
  have hnone : segment? ('>' :: '>' :: l') = none := rfl
  simp [binary?, h, segments, hnone, expect?]

/-- A binary is read. -/
theorem Segments.binary?_eq {l₂ : List Char} (h : Segments l₁ bytes l₂) (hskip : Skipped l l₁)
    (hclose : Skipped l₂ ('>' :: '>' :: l')) : binary? l = some (.ofBytes bytes, l') := by
  have hsegments := h.segments_eq ((skip_skip l).trans hskip.skip_eq) (by decide) hclose
  simp [binary?, hsegments, expect?]

/-- No tail is read if no bar follows. -/
theorem tailWithin_eq_nil (hc : c ≠ '|') (bound : Nat) (rest : List Char) :
    tailWithin bound (c :: rest) = (.nil, c :: rest) := by
  cases bound with
  | zero => rw [tailWithin]
  | succ bound =>
    rw [tailWithin.eq_def]
    dsimp only
    split
    case h_1 heq => exact absurd (List.cons.inj heq).1 hc
    case h_2 => rfl

/-- A tail after a bar is read. -/
theorem tailWithin_bar (h : termWithin bound text = some (t, rest)) :
    tailWithin (bound + 1) ('|' :: text) = (t, rest) := by
  rw [tailWithin, h]

mutual

/-- Terms are read, if the bound is not less than the number of their characters. -/
theorem Denotes.termWithin_eq : {n : Nat} → {l l' : List Char} → {t : Term} → Denotes n l t l' →
    {bound : Nat} → {text : List Char} → skip text = skip l → Stops l' →
    l.length ≤ bound + l'.length → termWithin bound text = some (t, skip l')
  -- A derivation takes at least one character, so the bound cannot be used up.
  | _, _, _, _, h, 0, _, _, _, hbound => absurd h.length_lt (by omega)
  | _, _, _, _, .scalar h, _ + 1, _, htext, hl', _ => h.termWithin_eq htext hl'
  | _, _, _, _, .noBytes hclose, _ + 1, _, htext, _, _ =>
    termWithin_bits (htext.trans (Solid.skip_eq (by decide) _))
      (binary?_eq_nil (hclose.skip_eq_cons (by decide)))
  | _, _, _, _, .bytes hskip h hclose, _ + 1, _, htext, _, _ =>
    termWithin_bits (htext.trans (Solid.skip_eq (by decide) _)) (h.binary?_eq hskip hclose)
  | _, _, _, _, .emptyTuple hclose, _ + 1, _, htext, _, _ => by
    have hnone := hclose.skip_eq_cons (by decide)
    refine termWithin_tuple (htext.trans (Solid.skip_eq (by decide) _)) ?_
    rw [elementsWithin_eq_nil (by decide) ((skip_skip _).trans hnone), hnone]
  | _, _, _, _, .tuple hskip h hclose, _ + 1, _, htext, _, hbound => by
    have hbefore := hskip.length_le
    have hend := hclose.length_le
    simp only [List.length_cons] at hbound hend
    exact termWithin_tuple (htext.trans (Solid.skip_eq (by decide) _))
      (h.elementsWithin_eq ((skip_skip _).trans hskip.skip_eq) (by decide) hclose (by omega)).1
  | _, _, _, _, .emptyList hclose, _ + 1, _, htext, _, _ => by
    have hnone := hclose.skip_eq_cons (by decide)
    refine termWithin_list (htext.trans (Solid.skip_eq (by decide) _))
      (elementsWithin_eq_nil (by decide) ((skip_skip _).trans hnone)) ?_
    rw [hnone, tailWithin_eq_nil (by decide)]
  | _, _, _, _, .list hskip h hclose, _ + 1, _, htext, _, hbound => by
    have hbefore := hskip.length_le
    have hend := hclose.length_le
    simp only [List.length_cons] at hbound hend
    exact termWithin_list (htext.trans (Solid.skip_eq (by decide) _))
      (h.elementsWithin_eq ((skip_skip _).trans hskip.skip_eq) (by decide) hclose (by omega)).1
      (tailWithin_eq_nil (by decide) _ _)
  | _, _, _, _, .listWithTail hskip h hbar hskip' htail hclose, bound + 1, _, htext, _, hbound => by
    have hbefore := hskip.length_le
    have helements := h.length_lt
    have hmiddle := hbar.length_le
    have hafter := hskip'.length_le
    have hlast := htail.length_lt
    have hend := hclose.length_le
    simp only [List.length_cons] at hbound hmiddle hend
    -- Reading the tail takes one off the bound, and its characters leave room for that.
    obtain ⟨bound, rfl⟩ : ∃ b, bound = b + 1 := ⟨bound - 1, by omega⟩
    have hread := htail.termWithin_eq hskip'.skip_eq (Closes.stops (by decide) hclose)
      (show _ ≤ bound + _ by omega)
    rw [hclose.skip_eq_cons (by decide)] at hread
    exact termWithin_list (htext.trans (Solid.skip_eq (by decide) _))
      (h.elementsWithin_eq ((skip_skip _).trans hskip.skip_eq) (by decide) hbar (by omega)).1
      (tailWithin_bar hread)
  | _, _, _, _, .bareTail hbar hskip htail hclose, bound + 1, _, htext, _, hbound => by
    have hbefore := hbar.length_le
    have hafter := hskip.length_le
    have hlast := htail.length_lt
    have hend := hclose.length_le
    simp only [List.length_cons] at hbound hbefore hend
    obtain ⟨bound, rfl⟩ : ∃ b, bound = b + 1 := ⟨bound - 1, by omega⟩
    have hread := htail.termWithin_eq hskip.skip_eq (Closes.stops (by decide) hclose)
      (show _ ≤ bound + _ by omega)
    rw [hclose.skip_eq_cons (by decide)] at hread
    have hnone := hbar.skip_eq_cons (by decide)
    refine termWithin_list (htext.trans (Solid.skip_eq (by decide) _))
      (elementsWithin_eq_nil (by decide) ((skip_skip _).trans hnone)) ?_
    rw [hnone, tailWithin_bar hread]

/-- Elements are read, at the beginning of a sequence and after a comma. -/
theorem Elements.elementsWithin_eq : {n : Nat} → {l l' : List Char} → {ts : List Term} →
    Elements n l ts l' → {bound : Nat} → {c : Char} → {text last : List Char} →
    skip text = skip l → Closes c → Skipped l' (c :: last) → l.length < bound + l'.length →
    elementsWithin bound text = (ts, c :: last) ∧ moreWithin bound (',' :: text) = (ts, c :: last)
  | _, _, _, _, h, 0, _, _, _, _, _, _, hbound => absurd h.length_lt (by omega)
  | _, _, _, _, .one h, bound + 1, _, _, _, htext, hc, hclose, hbound => by
    have hread := h.termWithin_eq htext (hc.stops hclose) (show _ ≤ bound + _ by omega)
    rw [hclose.skip_eq_cons hc.1] at hread
    have hnone := moreWithin_eq_nil hc.2.2 bound
    exact ⟨elementsWithin_cons hread (hnone _), moreWithin_cons hread (hnone _)⟩
  | _, _, _, _, .more h hcomma hskip hrest, bound + 1, _, _, _, htext, hc, hclose, hbound => by
    have hfirst := h.length_lt
    have hbefore := hcomma.length_le
    have hafter := hskip.length_le
    have hlast := hrest.length_lt
    rw [List.length_cons] at hbefore
    have hread := h.termWithin_eq htext hcomma.stops_comma (show _ ≤ bound + _ by omega)
    rw [hcomma.skip_eq_cons (by decide)] at hread
    have hmore := (hrest.elementsWithin_eq hskip.skip_eq hc hclose (show _ < bound + _ by omega)).2
    exact ⟨elementsWithin_cons hread hmore, moreWithin_cons hread hmore⟩

end

/-- A text is read to its end if and only if it is in the grammar. -/
theorem term?_eq_some_iff {text : List Char} {t : Term} :
    term? text = some (t, []) ↔ ∃ n, Spelled n text t := by
  unfold term? Spelled
  constructor
  · intro h
    obtain ⟨n, l', hterm, hrest⟩ := soundWithin _ h
    exact ⟨n, skip text, l', skipped_skip text, hterm, skipped_of_skip_eq hrest.symm⟩
  · rintro ⟨n, l, l', hbefore, hterm, hafter⟩
    have hlength := hbefore.length_le
    have hstops : Stops l' := hafter.stops (by rintro c ⟨⟩)
    rw [hterm.termWithin_eq hbefore.skip_eq hstops (by omega), hafter.skip_eq]
    rfl

end ErlangMachine.Reader

namespace ErlangMachine.Term

open Reader

/-- A text is parsed as a term if and only if it denotes that term by the grammar, in which a list
may also have a tail and no elements. Without such lists it is the grammar proper, and whether there
is one can be seen from the text: an opening bracket is followed by a bar. -/
theorem parse_eq_ok_iff_spelled (text : String) (t : Term) :
    (parse text = .ok t ↔ ∃ n, Spelled n text.toList t) ∧
      (Spelled 0 text.toList t ↔ parse text = .ok t ∧ bareTails text.toList = 0) := by
  have hparse : parse text = .ok t ↔ ∃ n, Spelled n text.toList t := by
    rw [← term?_eq_some_iff]
    unfold parse
    dsimp only
    split
    case h_1 u heq =>
      rw [heq]
      simp
    case h_2 u rest hrest heq =>
      rw [heq]
      simpa using fun _ => hrest
    case h_3 heq =>
      rw [heq]
      simp
  refine ⟨hparse, ?_⟩
  rw [hparse]
  constructor
  · exact fun h => ⟨⟨0, h⟩, h.bareTails_eq⟩
  · rintro ⟨⟨n, h⟩, hnone⟩
    obtain rfl : n = 0 := h.bareTails_eq.symm.trans hnone
    exact h

/-- A list with a tail and no elements is parsed as its tail, and the grammar proper does not have
it. -/
theorem parse_bare_tail :
    parse "[|a]" = .ok (.atom "a") ∧ ∀ t, ¬ Spelled 0 "[|a]".toList t := by
  constructor
  · exact eq_ok_of_toOption (by decide +kernel)
  · intro t h
    exact absurd h.bareTails_eq (by decide)

end ErlangMachine.Term
