import ErlangMachine.Proofs.Forms
import ErlangMachine.Proofs.ReadBack

/-!
# Reading a listing that was written

A module can be written as a listing: one form names it, one form opens each function, and one form
stands for each instruction, with its operands in the notation of listings. Reading such a text
gives the functions back, in order and with the same instructions.

Every form is a tuple, so the work is divided in two. A text of forms is read as their terms
(`forms_of_spells`), which follows from how a single term is read. And the terms are turned into
functions one by one, where each operand is found again in the term that stands for it
(`Operand.operand_term`). Literals that hold binaries are the same as terms only, since reading
makes new ones.
-/

namespace ErlangMachine

open Reader

/-! ## Operands as terms -/

namespace Operand

variable {tag : String} {t : Term}

mutual

/-- The term that stands for an operand in a listing. -/
def term : Operand → Term
  | x n => .tuple [.atom "x", .integer (Int64.ofNat n.toNat)]
  | y n => .tuple [.atom "y", .integer (Int64.ofNat n.toNat)]
  | fr n => .tuple [.atom "fr", .integer (Int64.ofNat n.toNat)]
  | int i => .tuple [.atom "integer", .integer i]
  | atom a => .tuple [.atom "atom", .atom a]
  | nil => .atom "nil"
  | literal t => .tuple [.atom "literal", t]
  | label n => .tuple [.atom "f", .integer (Int64.ofNat n.toNat)]
  | external id =>
    .tuple [.atom "extfunc", .atom id.module, .atom id.function, .integer (Int64.ofNat id.arity)]
  | list items => .tuple [.atom "list", termList items]

/-- The list of the terms that stand for some operands. -/
def termList : List Operand → Term
  | [] => .nil
  | o :: rest => .cons (term o) (termList rest)

end

mutual

/-- An operand that can be written and read: its literals are readable terms, and an arity has 32
bits. -/
def Writable : Operand → Prop
  | literal t => t.Readable
  | external id => id.arity < UInt32.size
  | list items => WritableAll items
  | _ => True

/-- Some operands can be written and read. -/
def WritableAll : List Operand → Prop
  | [] => True
  | o :: rest => Writable o ∧ WritableAll rest

end

/-- Operands that are the same, where literals are compared as terms. -/
inductive Same : Operand → Operand → Prop where
  /-- Equal operands. -/
  | of_eq {o o' : Operand} : o = o' → Same o o'
  /-- Literals of terms that are exactly equal. -/
  | literal {t u : Term} : t.exactEq u = true → Same (literal t) (literal u)
  /-- Jump tables with the same entries. -/
  | list {items others : List Operand} : List.Forall₂ Same items others →
    Same (list items) (list others)

mutual

/-- The term of an operand that can be written is readable. -/
theorem readable_term : (o : Operand) → o.Writable → o.term.Readable
  | x _, _ | y _, _ | fr _, _ | int _, _ | atom _, _ | label _, _ =>
    ⟨trivial, trivial, trivial, trivial⟩
  | nil, _ => trivial
  | literal _, h => ⟨trivial, trivial, h, trivial⟩
  | external _, _ => ⟨trivial, trivial, trivial, trivial, trivial, trivial⟩
  | list items, h => ⟨trivial, trivial, readable_termList items h, trivial⟩

theorem readable_termList : (os : List Operand) → WritableAll os → (termList os).Readable
  | [], _ => trivial
  | o :: rest, h => ⟨trivial, readable_term o h.1, readable_termList rest h.2⟩

end

/-! ## The text of an operand -/

/-- The text of a number that fits the machine is that of its integer. -/
theorem toList_toString_ofNat {n : Nat} (h : n < 2 ^ 63) :
    (toString n).toList = Token.text (.integer (Int64.ofNat n)) := by
  have hvalue : (Int64.ofNat n).toInt = n := by
    rw [Int64.toInt_ofNat_of_lt h]
  have htext : Token.text (.integer (Int64.ofNat n)) = (toString (n : Int)).toList := by
    rw [← hvalue]
    rfl
  rw [htext, toList_integer, toList_toString, if_neg (by omega), List.nil_append,
    Int.natAbs_natCast]

/-- The rest of a list is written as its elements, each after a comma. -/
theorem tokens_termList (os : List Operand) :
    (termList os).tokens false =
      .openBracket :: ((termList os).tokens true).tail ++ [.closeBracket] := by
  cases os with
  | nil => rfl
  | cons o rest => simp [termList, Term.tokens]

/-- Parts in braces after a tag are written as the tuple of their terms. -/
theorem toList_tagged (htag : Atom.isBare ⟨tag⟩ = true) {parts : List String} {ts : List Term}
    (h : (parts.flatMap fun t => ',' :: t.toList) = (Term.moreTokens ts).flatMap Token.text) :
    (tagged tag parts).toList =
      ((Term.tuple (.atom tag :: ts)).tokens false).flatMap Token.text := by
  have htext : Atom.text ⟨tag⟩ = tag := by simp [Atom.text, htag]
  have hopen : "\x7b".toList = ['{'] := rfl
  have hclose : "\x7d".toList = ['}'] := rfl
  unfold tagged
  rw [String.toList_append, String.toList_append, Term.toList_intercalate_comma, List.flatMap_cons,
    List.cons_append, List.tail_cons, h, hopen, hclose]
  simp [Term.tokens, Term.tokens.lead, Term.moreTokens, htext, Token.text]

/-- One more part. -/
theorem toList_cons_parts {text : String} {texts : List String} {ts : List Term}
    (h : text.toList = (t.tokens false).flatMap Token.text)
    (hrest : (texts.flatMap fun t => ',' :: t.toList) = (Term.moreTokens ts).flatMap Token.text) :
    ((text :: texts).flatMap fun t => ',' :: t.toList) =
      (Term.moreTokens (t :: ts)).flatMap Token.text := by
  simp [Term.moreTokens, h, hrest, Token.text]

/-- A number as a part. -/
theorem toList_number {n : Nat} (h : n < 2 ^ 63) : (toString n).toList =
    ((Term.integer (Int64.ofNat n)).tokens false).flatMap Token.text := by
  rw [toList_toString_ofNat h]
  exact (List.append_nil _).symm

theorem toList_atom (a : Atom) :
    a.text.toList = ((Term.atom a).tokens false).flatMap Token.text :=
  (List.append_nil _).symm

/-- A single part after a tag. -/
theorem toList_single (htag : Atom.isBare ⟨tag⟩ = true) {text : String}
    (h : text.toList = (t.tokens false).flatMap Token.text) :
    (tagged tag [text]).toList = ((Term.tuple [.atom tag, t]).tokens false).flatMap Token.text :=
  toList_tagged htag (toList_cons_parts h rfl)

mutual

/-- The text of an operand that can be written consists of the tokens of its term. -/
theorem toList_text : (o : Operand) → o.Writable →
    o.text.toList = (o.term.tokens false).flatMap Token.text
  | x n, _ | y n, _ | fr n, _ => by
    have hlt := n.toNat_lt
    exact toList_single (by decide) (toList_number (by omega))
  | label n, _ => by
    have hlt := n.toNat_lt
    exact toList_single (by decide) (toList_number (by omega))
  | int i, _ => toList_single (by decide) (List.append_nil _).symm
  | atom a, _ => toList_single (by decide) (toList_atom a)
  | nil, _ => by decide
  | literal t, h => toList_single (by decide) (Term.toList_render false t h)
  | external id, h => by
    have hlt : id.arity < 2 ^ 32 := h
    have harity := toList_number (n := id.arity) (by omega)
    exact toList_tagged (by decide) (toList_cons_parts (toList_atom _)
      (toList_cons_parts (toList_atom _) (toList_cons_parts harity rfl)))
  | list items, h => by
    have hitems := toList_textAll items h
    have hcomma : ∀ token ∈ ((termList items).tokens true).head?, token = .comma := by
      cases items with
      | nil => rintro token ⟨⟩
      | cons o rest => rintro token ⟨⟩; rfl
    refine toList_single (by decide) ?_
    rw [String.toList_append, String.toList_append, Term.toList_intercalate_comma, hitems,
      ← Term.flatMap_text_tail hcomma, tokens_termList]
    simp [Token.text]

/-- The texts of some operands, each after a comma, consist of the tokens of their terms. -/
theorem toList_textAll : (os : List Operand) → WritableAll os →
    ((textAll os).flatMap fun t => ',' :: t.toList) =
      ((termList os).tokens true).flatMap Token.text
  | [], _ => rfl
  | o :: rest, h => by
    have ho := toList_text o h.1
    have hrest := toList_textAll rest h.2
    simp [textAll, termList, Term.tokens, ho, hrest, Token.text]

end

/-! ## Operands read back -/

/-- The number of a register is read back. -/
theorem slot?_ofNat (n : UInt16) : Listing.slot? (.integer (Int64.ofNat n.toNat)) = some n := by
  have hlt : n.toNat < 2 ^ 16 := n.toNat_lt
  have hvalue := Int64.toInt_ofNat_of_lt (n := n.toNat) (by omega)
  unfold Listing.slot? Term.integer?
  rw [Option.bind_some, hvalue, if_pos (by omega), Int.toNat_natCast, UInt16.ofNat_toNat]

/-- A tag with one part that make an operand. -/
theorem operand_single (htag : tag ≠ "list") {o : Operand} (h : Listing.single? tag t = some o) :
    Listing.operand (.tuple [.atom tag, t]) = o := by
  unfold Listing.operand
  rw [if_neg htag, h, Option.getD_some]

/-- A label is read back. -/
theorem label_ofNat (n : UInt32) :
    Listing.single? "f" (.integer (Int64.ofNat n.toNat)) = some (label n) := by
  have hlt : n.toNat < 2 ^ 32 := n.toNat_lt
  have hvalue := Int64.toInt_ofNat_of_lt (n := n.toNat) (by omega)
  show (if 0 ≤ (Int64.ofNat n.toNat).toInt then
    some (label (UInt32.ofNat (Int64.ofNat n.toNat).toInt.toNat)) else none) = _
  rw [hvalue, if_pos (by omega), Int.toNat_natCast, UInt32.ofNat_toNat]

/-- A function of another module is read back. -/
theorem external_ofNat {id : FunctionId} (h : id.arity < UInt32.size) :
    Listing.external? (.atom id.module) (.atom id.function) (.integer (Int64.ofNat id.arity)) =
      some (external id) := by
  have hlt : id.arity < 2 ^ 32 := h
  have hvalue := Int64.toInt_ofNat_of_lt (n := id.arity) (by omega)
  unfold Listing.external?
  dsimp only
  rw [hvalue, if_pos (by omega), Int.toNat_natCast, Nat.mod_eq_of_lt h]

mutual

/-- An operand is read back from its term. -/
theorem operand_term : (o : Operand) → o.Writable → (Listing.operand o.term.reread).Same o
  | x n, _ => .of_eq (operand_single (by decide) (congrArg (Option.map x) (slot?_ofNat n)))
  | y n, _ => .of_eq (operand_single (by decide) (congrArg (Option.map y) (slot?_ofNat n)))
  | fr n, _ => .of_eq (operand_single (by decide) (congrArg (Option.map fr) (slot?_ofNat n)))
  | int i, _ => .of_eq (operand_single (by decide) rfl)
  | atom a, _ => .of_eq (operand_single (by decide) rfl)
  | nil, _ => .of_eq rfl
  | label n, _ => .of_eq (operand_single (by decide) (label_ofNat n))
  | external id, h => .of_eq (congrArg (Option.getD · _) (external_ofNat h))
  | literal t, h => by
    have hread : Listing.operand (literal t).term.reread = literal t.reread :=
      operand_single (by decide) rfl
    exact .literal (Term.exactEq_reread t h)
  | list items, h => by
    obtain ⟨found, hfound, hsame⟩ := operands?_termList items h
    have hread : Listing.operand (list items).term.reread = list found := by
      show ((Listing.operands? (termList items).reread).map Operand.list).getD _ = _
      rw [hfound]
      rfl
    rw [hread]
    exact .list hsame

/-- Operands are read back from the list of their terms. -/
theorem operands?_termList : (os : List Operand) → WritableAll os →
    ∃ items, Listing.operands? (termList os).reread = some items ∧ List.Forall₂ Same items os
  | [], _ => ⟨[], rfl, .nil⟩
  | o :: rest, h => by
    obtain ⟨items, hitems, hsame⟩ := operands?_termList rest h.2
    refine ⟨Listing.operand o.term.reread :: items, ?_, .cons (operand_term o h.1) hsame⟩
    simp [termList, Term.reread, Listing.operands?, hitems]

end

end Operand

/-! ## Forms -/

/-- The form of an instruction in a listing: the name of its operation and its operands. -/
def Instruction.form (i : Instruction) : Term :=
  .tuple (.atom i.operation.name :: i.operands.map Operand.term)

/-- The text of that form. -/
def Instruction.formText (i : Instruction) : String :=
  Operand.tagged i.operation.name (i.operands.map Operand.text)

/-- An instruction that can be written and read: it has as many operands as its operation takes. -/
structure Instruction.Writable (i : Instruction) : Prop where
  /-- The number of operands. -/
  arity : i.operands.length = i.operation.arity
  /-- The operands. -/
  operands : ∀ o ∈ i.operands, o.Writable

/-- Instructions that are the same, where literals are compared as terms. -/
structure Instruction.Same (i j : Instruction) : Prop where
  /-- The operation. -/
  operation : i.operation = j.operation
  /-- The operands. -/
  operands : List.Forall₂ Operand.Same i.operands j.operands

namespace FunctionListing

/-- The form that opens a function. -/
def header (f : FunctionListing) : Term :=
  .tuple [.atom "function", .atom f.function.name, .integer (Int64.ofNat f.function.arity),
    .integer (Int64.ofNat f.entry.toNat)]

/-- The forms of a function. -/
def forms (f : FunctionListing) : List Term := f.header :: f.body.toList.map Instruction.form

/-- The text of the form that opens a function. -/
def headerText (f : FunctionListing) : String :=
  Operand.tagged "function"
    [f.function.name.text, toString f.function.arity, toString f.entry.toNat]

/-- The texts of the forms of a function. -/
def formTexts (f : FunctionListing) : List String :=
  f.headerText :: f.body.toList.map Instruction.formText

/-- A function that can be written and read: its arity has 32 bits. -/
structure Writable (f : FunctionListing) : Prop where
  /-- The arity. -/
  arity : f.function.arity < UInt32.size
  /-- The instructions. -/
  body : ∀ i ∈ f.body.toList, i.Writable

/-- Functions that are the same, where literals are compared as terms. -/
structure Same (f g : FunctionListing) : Prop where
  /-- The function. -/
  function : f.function = g.function
  /-- The label at which it is entered. -/
  entry : f.entry = g.entry
  /-- The instructions. -/
  body : List.Forall₂ Instruction.Same f.body.toList g.body.toList

end FunctionListing

namespace Listing

/-- The forms of a module with some functions. -/
def formsOf (name : Atom) (functions : List FunctionListing) : List Term :=
  .tuple [.atom "module", .atom name] :: functions.flatMap FunctionListing.forms

/-- The texts of these forms. -/
def formTextsOf (name : Atom) (functions : List FunctionListing) : List String :=
  Operand.tagged "module" [name.text] :: functions.flatMap FunctionListing.formTexts

/-- The listing of a module with some functions: each form on a line of its own. -/
def write (name : Atom) (functions : List FunctionListing) : String :=
  String.join ((formTextsOf name functions).map (· ++ ".\n"))

/-- The tokens of some forms, each with a period after it. -/
def formTokens (terms : List Term) : List Token :=
  terms.flatMap fun t => t.tokens false ++ [.period]

/-- A text of some forms: their tokens in order, with gaps before and after them. -/
def Spells (text : String) (terms : List Term) : Prop :=
  ∃ gap rest, text.toList = gap ++ rest ∧ Gap gap ∧ Spread (formTokens terms) rest

/-! ### Names of operations -/

/-- The names that open a form about the module. -/
def reserved : List String := ["attributes", "labels", "module", "exports", "function"]

end Listing

/-- An operation is found by its name, which needs no quotes and is not reserved. -/
theorem Operation.name_spec (op : Operation) :
    Operation.ofName? op.name = some op ∧ Atom.isBare ⟨op.name⟩ = true ∧
      op.name ∉ Listing.reserved := by
  cases op <;> decide

/-! ## The text of forms -/

/-- A text that consists of the tokens of a term, without gaps. -/
def Writes (text : String) (t : Term) : Prop :=
  text.toList = (t.tokens false).flatMap Token.text

/-- A tuple that can be read. -/
def Term.IsForm (t : Term) : Prop := t.Readable ∧ ∃ elements, t = .tuple elements

/-- The form of an instruction that can be written is written by its text. -/
theorem Instruction.Writable.writes {i : Instruction} (h : i.Writable) :
    Writes i.formText i.form := by
  refine Operand.toList_tagged i.operation.name_spec.2.1 ?_
  have hoperands := h.operands
  generalize i.operands = operands at hoperands
  induction operands with
  | nil => rfl
  | cons o rest ih =>
    exact Operand.toList_cons_parts (Operand.toList_text o (hoperands o List.mem_cons_self))
      (ih fun o ho => hoperands o (List.mem_cons_of_mem _ ho))

/-- An instruction that can be written is a form. -/
theorem Instruction.Writable.isForm {i : Instruction} (h : i.Writable) : i.form.IsForm := by
  refine ⟨⟨trivial, trivial, Term.everyOf_iff.2 fun t ht => ?_⟩, _, rfl⟩
  obtain ⟨o, ho, rfl⟩ := List.mem_map.1 ht
  exact Operand.readable_term o (h.operands o ho)

namespace FunctionListing

variable {f : FunctionListing}

/-- The form that opens a function is written by its text. -/
theorem Writable.writes (h : f.Writable) : Writes f.headerText f.header := by
  have harity : f.function.arity < 2 ^ 32 := h.arity
  have hentry : f.entry.toNat < 2 ^ 32 := f.entry.toNat_lt
  exact Operand.toList_tagged (by decide) (Operand.toList_cons_parts (Operand.toList_atom _)
    (Operand.toList_cons_parts (Operand.toList_number (by omega))
      (Operand.toList_cons_parts (Operand.toList_number (by omega)) rfl)))

/-- All forms of a function are written by their texts. -/
theorem Writable.writesAll (h : f.Writable) : List.Forall₂ Writes f.formTexts f.forms := by
  refine .cons h.writes ?_
  rw [List.forall₂_map_left_iff, List.forall₂_map_right_iff, List.forall₂_same]
  exact fun i hi => (h.body i hi).writes

/-- A function that can be written is made of forms. -/
theorem Writable.isForm (h : f.Writable) : ∀ t ∈ f.forms, t.IsForm := by
  intro t ht
  rcases List.mem_cons.1 ht with rfl | ht
  · exact ⟨⟨trivial, trivial, trivial, trivial, trivial, trivial⟩, _, rfl⟩
  · obtain ⟨i, hi, rfl⟩ := List.mem_map.1 ht
    exact (h.body i hi).isForm

end FunctionListing

/-- Tokens that stand close together, before others. -/
theorem Reader.spread_flatMap_append (tokens : List Token) {more : List Token} {rest : List Char}
    (h : Spread more rest) : Spread (tokens ++ more) (tokens.flatMap Token.text ++ rest) := by
  induction tokens with
  | nil => exact h
  | cons token tokens ih =>
    have hspread : Spread (token :: (tokens ++ more))
        (token.text ++ ([] ++ (tokens.flatMap Token.text ++ rest))) := .cons .nil ih
    rw [List.flatMap_cons, List.append_assoc]
    exact hspread

namespace Listing

variable {functions : List FunctionListing} {terms : List Term}

/-- The forms of a module can be read. -/
theorem isForm_formsOf (name : Atom) (h : ∀ f ∈ functions, f.Writable) :
    ∀ t ∈ formsOf name functions, t.IsForm := by
  intro t ht
  rcases List.mem_cons.1 ht with rfl | ht
  · exact ⟨⟨trivial, trivial, trivial, trivial⟩, _, rfl⟩
  · obtain ⟨f, hf, ht⟩ := List.mem_flatMap.1 ht
    exact (h f hf).isForm t ht

/-- A period stands between a form and the next one. -/
theorem formTokens_cons (t : Term) (terms : List Term) :
    formTokens (t :: terms) = t.tokens false ++ .period :: formTokens terms := by
  simp [formTokens]

/-- There are at least as many tokens as forms. -/
theorem length_le_formTokens (terms : List Term) : terms.length ≤ (formTokens terms).length := by
  induction terms with
  | nil => exact Nat.le_refl _
  | cons t terms ih =>
    rw [formTokens_cons, List.length_append, List.length_cons, List.length_cons]
    omega

/-- Forms that are written on lines of their own are spread with the ends of the lines as gaps. -/
theorem spread_lines {texts : List String} (h : List.Forall₂ Writes texts terms) :
    Spread (formTokens terms) (String.join (texts.map (· ++ ".\n"))).toList := by
  induction h with
  | nil => exact .nil
  | @cons text t texts terms ht _ ih =>
    have hgap : Gap ['\n'] := .blank (by decide) .nil
    have hperiod : Spread (.period :: formTokens terms)
        (['.'] ++ (['\n'] ++ (String.join (texts.map (· ++ ".\n"))).toList)) := .cons hgap ih
    have hspread := spread_flatMap_append (t.tokens false) hperiod
    have htext : text.toList = (t.tokens false).flatMap Token.text := ht
    rw [formTokens_cons]
    rw [← htext] at hspread
    simpa [String.join_cons] using hspread

/-- The listing of a module is a text of its forms. -/
theorem spells_write (name : Atom) (h : ∀ f ∈ functions, f.Writable) :
    Spells (write name functions) (formsOf name functions) := by
  have hmodule : Writes (Operand.tagged "module" [name.text])
      (.tuple [.atom "module", .atom name]) :=
    Operand.toList_single (by decide) (Operand.toList_atom name)
  have hfunctions : List.Forall₂ Writes (functions.flatMap FunctionListing.formTexts)
      (functions.flatMap FunctionListing.forms) := by
    induction functions with
    | nil => exact .nil
    | cons f functions ih =>
      have hf := (h f List.mem_cons_self).writesAll
      exact List.rel_append hf (ih fun g hg => h g (List.mem_cons_of_mem f hg))
  exact ⟨[], _, rfl, .nil, spread_lines (.cons hmodule hfunctions)⟩

/-! ## Reading forms -/

/-- A form is read, and the period stops the reader. -/
theorem term?_form {t : Term} (h : t.IsForm) {more : List Token} {text : List Char}
    (hspread : Spread (t.tokens false ++ .period :: more) text) :
    ∃ gap rest, term? text = some (t.reread, '.' :: (gap ++ rest)) ∧ Gap gap ∧
      Spread more rest := by
  obtain ⟨hreadable, elements, rfl⟩ := h
  have hclosed : ReadsClosed (.tuple elements) := readsClosed_tuple fun t ts heq => by
    obtain rfl := heq
    exact ⟨(reads_of_readable t hreadable.2.1).1, readsMore_of_readable ts hreadable.2.2⟩
  have hlength := hspread.length_le
  rw [List.length_append] at hlength
  obtain ⟨after, hread, hafter⟩ :=
    hclosed (2 * text.length + 2) (.period :: more) [] text (by omega) .nil hspread
  obtain ⟨gap, rest, rfl, hgap, hrest⟩ := hafter.of_cons
  exact ⟨gap, rest, hread, hgap, hrest⟩

/-- Forms are read one after the other. -/
theorem formsFrom_eq (h : ∀ t ∈ terms, t.IsForm) (text : List Char) {bound : Nat} {rest : List Char}
    (hbound : terms.length ≤ bound) (hspread : Spread (formTokens terms) rest) :
    ∃ forms, formsFrom text bound rest = .ok forms ∧
      forms.map Form.term = terms.map Term.reread := by
  -- The bound goes down by one with each form.
  induction terms generalizing bound rest with
  | nil =>
    cases hspread
    cases bound <;> exact ⟨[], rfl, rfl⟩
  | cons t terms ih =>
    rw [List.length_cons] at hbound
    obtain ⟨bound, rfl⟩ : ∃ k, bound = k + 1 := ⟨bound - 1, by omega⟩
    rw [formTokens_cons] at hspread
    obtain ⟨gap, last, hread, hgap, hlast⟩ := term?_form (h t List.mem_cons_self) hspread
    have hle : terms.length ≤ bound := by omega
    obtain ⟨forms, hforms, hterms⟩ := ih (fun u hu => h u (List.mem_cons_of_mem t hu)) hle hlast
    refine ⟨⟨lineOf text rest, t.reread⟩ :: forms, ?_, by simp [hterms]⟩
    -- There is something to read, since the form has tokens.
    cases rest with
    | nil =>
      have hlength := hspread.length_le
      simp at hlength
    | cons c rest =>
      have hperiod : expect? '.' ('.' :: (gap ++ last)) = some (gap ++ last) := rfl
      rw [formsFrom, hread]
      dsimp only
      rw [hperiod]
      dsimp only
      rw [hlast.skip_gap hgap, hforms]
      rfl
      nofun

/-- A text of forms is read as these. -/
theorem forms_of_spells {text : String} (h : ∀ t ∈ terms, t.IsForm) (hspells : Spells text terms) :
    ∃ forms, Listing.forms text.toList = .ok forms ∧
      forms.map Form.term = terms.map Term.reread := by
  obtain ⟨gap, rest, htext, hgap, hspread⟩ := hspells
  have hlength := hspread.length_le
  have hterms := length_le_formTokens terms
  unfold Listing.forms
  rw [htext, hspread.skip_gap hgap]
  exact formsFrom_eq h _ (by rw [List.length_append]; omega) hspread

/-! ## From forms to functions -/

/-- Terms are read one by one. -/
theorem rereadAll_eq_map (ts : List Term) : Term.rereadAll ts = ts.map Term.reread := by
  induction ts with
  | nil => rfl
  | cons t ts ih => rw [Term.rereadAll, ih, List.map_cons]

/-- The form of an instruction as it is read. -/
theorem reread_form (i : Instruction) : i.form.reread =
    .tuple (.atom i.operation.name :: i.operands.map fun o => o.term.reread) := by
  rw [Instruction.form, Term.reread, Term.rereadAll, rereadAll_eq_map, List.map_map]
  rfl

/-- An instruction is read back from its form. -/
theorem instruction_form {i : Instruction} (h : i.Writable) (line : Nat) :
    ∃ j, instruction ⟨line, i.form.reread⟩ = .ok j ∧ j.Same i := by
  obtain ⟨hname, -, -⟩ := i.operation.name_spec
  have hlength : ¬ (i.operands.map fun o => o.term.reread).length ≠ i.operation.arity := by
    rw [List.length_map, h.arity]
    exact fun hne => hne rfl
  refine ⟨⟨i.operation, (i.operands.map fun o => o.term.reread).map operand⟩, ?_, rfl, ?_⟩
  · unfold instruction
    rw [reread_form]
    simp only [pure_bind, hname, if_neg hlength]
    rfl
  · rw [List.map_map, List.forall₂_map_left_iff, List.forall₂_same]
    exact fun o ho => Operand.operand_term o (h.operands o ho)

/-- A form whose name is not reserved is an instruction. -/
theorem add_instruction (d : Draft) (line : Nat) {name : String} (h : name ∉ reserved)
    (args : List Term) : d.add ⟨line, .tuple (.atom name :: args)⟩ =
      d.addInstruction ⟨line, .tuple (.atom name :: args)⟩ := by
  simp only [reserved, List.mem_cons, List.not_mem_nil, or_false, not_or] at h
  obtain ⟨hattributes, hlabels, hmodule, hexports, hfunction⟩ := h
  unfold Draft.add
  split
  · rename_i heq
    simp at heq
    exact absurd heq.1 hattributes
  · rename_i heq
    simp at heq
    exact absurd heq.1 hlabels
  · rename_i heq
    simp at heq
    exact absurd heq.1 hmodule
  · rename_i heq
    simp at heq
    exact absurd heq.1 hexports
  · rename_i heq
    simp at heq
    exact absurd heq.1 hfunction
  · rfl

/-- An instruction goes to the last function. -/
theorem add_form {i : Instruction} (h : i.Writable) (line : Nat) (name : Option Atom)
    (exports : Array LocalName) (done : Array FunctionListing) (f : FunctionListing) :
    ∃ j : Instruction, Draft.add ⟨name, exports, done.push f⟩ ⟨line, i.form.reread⟩ =
        .ok ⟨name, exports, done.push { f with body := f.body.push j }⟩ ∧ j.Same i := by
  obtain ⟨j, hj, hsame⟩ := instruction_form h line
  obtain ⟨-, -, hreserved⟩ := i.operation.name_spec
  refine ⟨j, ?_, hsame⟩
  rw [reread_form] at hj ⊢
  rw [add_instruction _ _ hreserved]
  have hfull : (done.push f).isEmpty = false := by simp
  have hmodify := modify_push done f fun f => { f with body := f.body.push j }
  unfold Draft.addInstruction
  rw [hj]
  simp only [bind, Except.bind, hfull, hmodify]
  rfl

/-- The instructions of a function go to it in order. -/
theorem foldlM_body {body : List Instruction} (h : ∀ i ∈ body, i.Writable) {forms : List Form}
    (hforms : forms.map Form.term = body.map fun i => i.form.reread) (name : Option Atom)
    (exports : Array LocalName) (done : Array FunctionListing) (f : FunctionListing) :
    ∃ more : List Instruction, forms.foldlM Draft.add ⟨name, exports, done.push f⟩ =
        .ok ⟨name, exports, done.push { f with body := f.body ++ more.toArray }⟩ ∧
      List.Forall₂ Instruction.Same more body := by
  induction body generalizing forms f with
  | nil =>
    obtain rfl := List.map_eq_nil_iff.1 hforms
    exact ⟨[], by simp; rfl, .nil⟩
  | cons i body ih =>
    obtain ⟨form, forms, rfl, hform, hrest⟩ := List.map_eq_cons_iff.1 hforms
    obtain ⟨line, t⟩ := form
    obtain rfl : t = i.form.reread := hform
    obtain ⟨j, hadd, hsame⟩ := add_form (h i List.mem_cons_self) line name exports done f
    obtain ⟨more, hmore, hsames⟩ := ih (fun i hi => h i (List.mem_cons_of_mem _ hi)) hrest
      { f with body := f.body.push j }
    refine ⟨j :: more, ?_, .cons hsame hsames⟩
    rw [List.foldlM_cons, hadd]
    refine hmore.trans ?_
    simp

/-- The form of a function opens it. -/
theorem add_header {f : FunctionListing} (h : f.Writable) (line : Nat) (d : Draft) :
    d.add ⟨line, f.header.reread⟩ =
      .ok { d with functions := d.functions.push ⟨f.function, f.entry, #[]⟩ } := by
  have harity : f.function.arity < 2 ^ 32 := h.arity
  have hentry : f.entry.toNat < 2 ^ 32 := f.entry.toNat_lt
  have hword : ∀ n < 2 ^ 32, word? (.integer (Int64.ofNat n)) = some (UInt32.ofNat n) := by
    intro n hn
    have hvalue := Int64.toInt_ofNat_of_lt (n := n) (by omega)
    have hsize : (UInt32.size : Int) = 2 ^ 32 := rfl
    unfold word?
    dsimp only
    rw [hvalue, if_pos (by omega), Int.toNat_natCast]
  have hheader : f.header.reread = .tuple [.atom "function", .atom f.function.name,
    .integer (Int64.ofNat f.function.arity), .integer (Int64.ofNat f.entry.toNat)] := rfl
  unfold Draft.add
  rw [hheader]
  simp [hword _ harity, hword _ hentry, Nat.mod_eq_of_lt h.arity]

/-- The forms of functions make these functions. -/
theorem foldlM_functions (h : ∀ f ∈ functions, f.Writable) {forms : List Form}
    (hforms : forms.map Form.term = (functions.flatMap FunctionListing.forms).map Term.reread)
    (name : Option Atom) (exports : Array LocalName) (done : Array FunctionListing) :
    ∃ more : List FunctionListing, forms.foldlM Draft.add ⟨name, exports, done⟩ =
        .ok ⟨name, exports, done ++ more.toArray⟩ ∧
      List.Forall₂ FunctionListing.Same more functions := by
  induction functions generalizing forms done with
  | nil =>
    obtain rfl := List.map_eq_nil_iff.1 hforms
    exact ⟨[], by simp; rfl, .nil⟩
  | cons f functions ih =>
    have hf := h f List.mem_cons_self
    rw [List.flatMap_cons, List.map_append] at hforms
    obtain ⟨front, back, rfl, hfront, hback⟩ := List.map_eq_append_iff.1 hforms
    rw [FunctionListing.forms, List.map_cons, List.map_map] at hfront
    obtain ⟨form, body, rfl, hform, hbody⟩ := List.map_eq_cons_iff.1 hfront
    obtain ⟨line, t⟩ := form
    obtain rfl : t = f.header.reread := hform
    -- The function is opened, gets its instructions, and the others follow.
    have hopened := add_header hf line ⟨name, exports, done⟩
    obtain ⟨instructions, hinstructions, hsame⟩ :=
      foldlM_body hf.body hbody name exports done ⟨f.function, f.entry, #[]⟩
    obtain ⟨more, hmore, hsames⟩ := ih (fun g hg => h g (List.mem_cons_of_mem _ hg)) hback
      (done.push ⟨f.function, f.entry, #[] ++ instructions.toArray⟩)
    refine ⟨⟨f.function, f.entry, #[] ++ instructions.toArray⟩ :: more, ?_,
      .cons ⟨rfl, rfl, by simpa using hsame⟩ hsames⟩
    rw [List.foldlM_append, List.foldlM_cons, hopened]
    show (body.foldlM Draft.add ⟨name, exports, done.push ⟨f.function, f.entry, #[]⟩⟩ >>= fun d =>
      back.foldlM Draft.add d) = _
    rw [hinstructions]
    refine hmore.trans ?_
    simp

/-- A text of the forms of a module is read as its functions. -/
theorem parse_of_spells {name : Atom} (h : ∀ f ∈ functions, f.Writable) {text : String}
    (hspells : Spells text (formsOf name functions)) :
    ∃ found : List FunctionListing, parse text = .ok ⟨name, #[], found.toArray⟩ ∧
      List.Forall₂ FunctionListing.Same found functions := by
  obtain ⟨all, hall, hterms⟩ := forms_of_spells (isForm_formsOf name h) hspells
  obtain ⟨form, forms, rfl, hform, hforms⟩ := List.map_eq_cons_iff.1 hterms
  obtain ⟨line, t⟩ := form
  obtain rfl : t = .tuple [.atom "module", .atom name] := hform
  have hmodule : Draft.add ⟨none, #[], #[]⟩ ⟨line, .tuple [.atom "module", .atom name]⟩ =
      .ok ⟨some name, #[], #[]⟩ := rfl
  obtain ⟨found, hfound, hsame⟩ := foldlM_functions h hforms (some name) #[] #[]
  refine ⟨found, ?_, hsame⟩
  unfold parse
  rw [hall]
  show (forms.foldlM Draft.add ⟨some name, #[], #[]⟩ >>= _) = _
  rw [hfound]
  simp
  rfl

/-- Listings are read back. For a module of any name with any functions, whose instructions have as
many operands as their operations take and whose literals are made of integers, atoms, whole bytes,
tuples and lists, the listing in which every operand is written as its text is accepted. It gives
the name and the same functions, in order and with the same instructions and operands. So does every
text that has blanks and comments between the tokens of that listing. -/
theorem parse_write (name : Atom) (functions : List FunctionListing)
    (h : ∀ f ∈ functions, f.Writable) :
    (∃ found : List FunctionListing,
      parse (write name functions) = .ok ⟨name, #[], found.toArray⟩ ∧
        List.Forall₂ FunctionListing.Same found functions) ∧
      ∀ text, Spells text (formsOf name functions) → ∃ found : List FunctionListing,
        parse text = .ok ⟨name, #[], found.toArray⟩ ∧
          List.Forall₂ FunctionListing.Same found functions :=
  ⟨parse_of_spells h (spells_write name h), fun _ hspells => parse_of_spells h hspells⟩

/-- A function whose name needs quotes, with a jump table that has a literal in it, a call of
another module and an instruction without operands. -/
def quotedFunction : FunctionListing where
  function := ⟨"it's", 1⟩
  entry := 2
  body := #[
    ⟨.selectVal, [.x 0, .label 1,
      .list [.atom "a", .label 3, .literal (.cons (.integer (-7)) (.ofBytes [255]))]]⟩,
    ⟨.callExt, [.int 1, .external ⟨"lists", "reverse", 1⟩]⟩,
    ⟨.ret, []⟩]

/-- That function in its listing. -/
theorem parse_write_quoted :
    ∃ found : List FunctionListing,
      parse ("\x7bmodule,m\x7d.\n\x7bfunction,'it\\'s',1,2\x7d.\n" ++
        "\x7bselect_val,\x7bx,0\x7d,\x7bf,1\x7d," ++
          "\x7blist,[\x7batom,a\x7d,\x7bf,3\x7d,\x7bliteral,[-7|<<255>>]\x7d]\x7d\x7d.\n" ++
        "\x7bcall_ext,\x7binteger,1\x7d,\x7bextfunc,lists,reverse,1\x7d\x7d.\n" ++
        "\x7breturn\x7d.\n") = .ok ⟨"m", #[], found.toArray⟩ ∧
      List.Forall₂ FunctionListing.Same found [quotedFunction] := by
  have hwritable : ∀ f ∈ [quotedFunction], f.Writable := by
    intro f hf
    obtain rfl := List.mem_singleton.1 hf
    refine ⟨by decide, fun i hi => ?_⟩
    have hmem : i ∈ [_, _, _] := hi
    simp only [List.mem_cons, List.not_mem_nil, or_false] at hmem
    rcases hmem with rfl | rfl | rfl
    · refine ⟨rfl, ?_⟩
      simp [Operand.Writable, Operand.WritableAll, Term.Readable, Term.Every, Term.IsData,
        Term.ofBytes, BitString.ofBytes, BitString.isBinary]
    · exact ⟨rfl, by simp [Operand.Writable]⟩
    · exact ⟨rfl, by simp⟩
  obtain ⟨found, hparse, hsame⟩ := (parse_write "m" [quotedFunction] hwritable).1
  refine ⟨found, Eq.trans (congrArg parse ?_) hparse, hsame⟩
  decide +kernel

end Listing

end ErlangMachine
