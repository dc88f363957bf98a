import ErlangMachine.Proofs.Equality
import ErlangMachine.Proofs.Sites

/-!
# What the numbers of a listing refer to

An instruction refers to labels and to functions of other modules by numbers: the number of the
label and the arity of the function. The forms of a listing have these numbers as they are written,
and `Listing.label?`, `Listing.function?` and `Listing.items?` find them there. In the code of the
module such a reference is a word, whose place follows from that of its form.

`Listing.Resolved` says that each word stands for what its form refers to: the offset of the form
that declares the label, the jump table with these offsets, or the import. It has a parameter for
what becomes of the numbers on the way. They would all be kept if it were `id`, but they are held in
32 bits, so what is true of every module is `Resolved` for the remainder modulo `2 ^ 32`.
`parse_resolved` says so, and also that the numbers are kept if and only if all of them have 32
bits. In `branching_wraps` they have not.
-/

namespace ErlangMachine

/-- A term without the notes on types around it. -/
def Term.untyped : Term → Term
  | .tuple [.atom tag, register, type] =>
    if tag.name = "tr" then register.untyped else .tuple [.atom tag, register, type]
  | t => t

namespace Listing

variable {o : Operand} {number : Nat} {forms : List Form}

/-! ## References as they are written -/

/-- The number of the label that a term refers to. -/
def label? (t : Term) : Option Nat :=
  match t.untyped with
  | .tuple [.atom ⟨"f"⟩, .integer v] => if 0 ≤ v.toInt then some v.toInt.toNat else none
  | _ => none

/-- The function of another module that a term refers to. -/
def function? (t : Term) : Option FunctionId :=
  match t.untyped with
  | .tuple [.atom ⟨"extfunc"⟩, .atom module, .atom function, .integer v] =>
    if 0 ≤ v.toInt then some ⟨module, function, v.toInt.toNat⟩ else none
  | _ => none

/-- The items of a term that is the list of a jump table. -/
def items? (t : Term) : Option (List Term) :=
  match t.untyped with
  | .tuple [.atom ⟨"list"⟩, items] => items.list?
  | _ => none

/-- The numbers by which an operand refers to labels and functions. -/
def numbers (args : List Term) : OperandUse → List Nat
  | .label k => (args[k]?.bind label?).toList
  | .values k | .arities k => ((args[k]?.bind items?).getD []).filterMap label?
  | .callee k _ | .builtin k _ | .guardBuiltin k _ _ =>
    ((args[k]?.bind function?).map FunctionId.arity).toList
  | _ => []

/-- Terms that denote a label, a function or a list are references of that kind. The numbers of
labels and functions have been cut down to 32 bits. -/
def Denotes (t : Term) : Operand → Prop
  | .label n => ∃ number, label? t = some number ∧ n.toNat = number % UInt32.size
  | .external id => ∃ arity, function? t = some { id with arity := arity } ∧
      id.arity = arity % UInt32.size
  | .list operands => ∃ items, items? t = some items ∧ operands = items.map operand
  | _ => True

/-- The operands of a list are those that its elements denote. -/
theorem list?_of_operands? {part : Term} {operands : List Operand}
    (h : operands? part = some operands) :
    ∃ items, part.list? = some items ∧ operands = items.map operand := by
  induction part using Term.list?.induct generalizing operands with
  | case1 =>
    cases h
    exact ⟨[], rfl, rfl⟩
  | case2 head tail ih =>
    obtain ⟨rest, hrest, rfl⟩ := Option.map_eq_some_iff.1 h
    obtain ⟨items, hitems, rfl⟩ := ih hrest
    exact ⟨head :: items, by rw [Term.list?, hitems]; rfl, rfl⟩
  | case3 part hnil hcons =>
    rw [operands?] at h
    · cases h
    · exact hnil
    · exact hcons

/-- An operand with one part that is a reference is a label. -/
theorem denotes_single? {tag : String} {part : Term} (h : single? tag part = some o) :
    Denotes (.tuple [.atom ⟨tag⟩, part]) o := by
  unfold single? at h
  split at h
  case h_4 v =>
    split at h
    · rename_i hv
      cases h
      exact ⟨v.toInt.toNat, if_pos hv, UInt32.toNat_ofNat'⟩
    · cases h
  -- All others are registers, slots and constants.
  all_goals first
    | obtain ⟨_, -, rfl⟩ := Option.map_eq_some_iff.1 h
      trivial
    | obtain rfl := Option.some.inj h
      trivial
    | cases h

/-- A function of another module. -/
theorem denotes_external? {module function arity : Term}
    (h : external? module function arity = some o) :
    Denotes (.tuple [.atom ⟨"extfunc"⟩, module, function, arity]) o := by
  unfold external? at h
  split at h
  · rename_i m f a
    split at h
    · rename_i ha
      cases h
      exact ⟨a.toInt.toNat, if_pos ha, rfl⟩
    · cases h
  · cases h

/-- A note on the type changes nothing. -/
theorem Denotes.typed {register type : Term} (h : Denotes register o) :
    Denotes (.tuple [.atom ⟨"tr"⟩, register, type]) o := by
  have huntyped : (Term.tuple [.atom ⟨"tr"⟩, register, type]).untyped = register.untyped := by
    rw [Term.untyped, if_pos rfl]
  unfold Denotes label? function? items? at h ⊢
  exact h

/-- What a term denotes. -/
theorem denotes_operand (t : Term) : Denotes t (operand t) := by
  have hread := operandRead t
  generalize operand t = o at hread
  induction hread with
  | literal t => trivial
  | integer v => trivial
  | nil => trivial
  | nilAtom a => trivial
  | atom a => trivial
  | list hitems =>
    obtain ⟨items, hlist, rfl⟩ := list?_of_operands? hitems
    exact ⟨items, hlist, rfl⟩
  | single ho => exact denotes_single? ho
  | typed _ ih => exact ih.typed
  | external ho => exact denotes_external? ho

/-- Notes on types do not matter for what a term denotes. -/
theorem operand_untyped (t : Term) : operand t.untyped = operand t := by
  induction t using Term.untyped.induct with
  | case1 tag register type htag ih =>
    obtain ⟨name⟩ := tag
    rw [Term.untyped, if_pos htag, ih, operand, if_pos htag]
  | case2 tag register type htag => rw [Term.untyped, if_neg htag]
  | case3 t ht =>
    rw [Term.untyped]
    exact ht

/-- A reference to a label denotes a label. -/
theorem operand_of_label? {t : Term} (h : label? t = some number) : ∃ n, operand t = .label n := by
  unfold label? at h
  rw [← operand_untyped]
  split at h
  · rename_i v heq
    split at h
    · rename_i hv
      rw [heq, operand, if_neg (by decide), single?, if_pos hv]
      exact ⟨_, rfl⟩
    · cases h
  · cases h

/-- An operand of an instruction was read from the term at its place in the form. -/
theorem exists_arg {form : Form} {i : Instruction} (h : instruction form = .ok i) {k : Nat}
    (ho : Assembler.operand i k = o) (hne : o ≠ .nil) :
    ∃ t, form.args[k]? = some t ∧ Denotes t o := by
  obtain ⟨hoperands, -⟩ := operands_of_instruction h
  have hget : o = (form.args[k]?.map operand).getD .nil := by
    rw [← ho, Assembler.operand, hoperands, List.getD_eq_getElem?_getD, List.getElem?_map]
    rfl
  cases hterm : form.args[k]? with
  | none =>
    rw [hterm] at hget
    exact absurd hget hne
  | some t =>
    rw [hterm] at hget
    exact ⟨t, rfl, hget ▸ denotes_operand t⟩

/-! ## References in a module -/

/-- The labels that the forms of a listing declare, by their numbers, and the code offsets at which
these forms stand. -/
def places (forms : List Form) : List (Nat × Nat) :=
  ((sites forms).filterMap Site.label?).map fun label => (label.1.toNat, label.2)

/-- The numbers of labels that are declared have 32 bits. -/
theorem lt_of_mem_places {offset : Nat} (h : (number, offset) ∈ places forms) :
    number < UInt32.size := by
  obtain ⟨label, -, heq⟩ := List.mem_map.1 h
  obtain ⟨rfl, -⟩ := Prod.mk.inj heq
  exact label.1.toNat_lt_size

section References

variable (keep : Nat → Nat) (places : List (Nat × Nat))

/-- A word stands for the label of some number. The number zero stands for no label. -/
def LabelWord (number : Nat) (w : UInt16) : Prop :=
  if number = 0 then w = noLabel else w ≠ noLabel ∧ (number, w.toNat) ∈ places

/-- The entries of a jump table: keys, each with the offset of the label that follows it. -/
inductive Jumps {α : Type} (key : Operand → α → Prop) : List Term → List (α × Nat) → Prop
  | nil : Jumps key [] []
  | cons {t label : Term} {a : α} {number target : Nat} {items : List Term}
      {entries : List (α × Nat)} :
    key (operand t) a → label? label = some number → (keep number, target) ∈ places →
      Jumps key items entries → Jumps key (t :: label :: items) ((a, target) :: entries)

/-- A word stands for the import of a function that was found. -/
def ImportWord (m : Module) (found : Option FunctionId) (w : UInt16) : Prop :=
  ∃ id guard, found = some id ∧
    m.imports[w.toNat]? = some ⟨{ id with arity := keep id.arity }, guard⟩

/-- The word of a field stands for what its operand refers to. -/
def Refers (m : Module) (args : List Term) (w : UInt16) : OperandUse → Prop
  | .label k => ∃ number, args[k]?.bind label? = some number ∧ LabelWord places (keep number) w
  | .values k => ∃ items entries, args[k]?.bind items? = some items ∧
      Jumps keep places ValueKey items entries ∧ m.valueTables[w.toNat]? = some (.ofList entries)
  | .arities k => ∃ items entries, args[k]?.bind items? = some items ∧
      Jumps keep places ArityKey items entries ∧ m.arityTables[w.toNat]? = some (.ofList entries)
  | .callee k _ | .builtin k _ | .guardBuiltin k _ _ =>
    ImportWord keep m (args[k]?.bind function?) w
  | _ => True

end References

/-- The words of a module stand for what the forms of a listing refer to, where `keep` is what
becomes of the numbers in references. -/
structure Resolved (keep : Nat → Nat) (forms : List Form) (m : Module) : Prop where
  /-- No label is declared twice. -/
  once : ((places forms).map Prod.fst).Nodup
  /-- Each field that becomes a word has it at its place, and it stands for what the operand refers
  to. -/
  words : ∀ s ∈ sites forms, ∀ shape, s.instruction.operation.shape? = some shape →
    ∀ j use, shape.fields[j]? = some use → use.slot?.isSome →
      ∃ w, m.code[s.offset + shape.place j]? = some w ∧
        Refers keep (places forms) m s.form.args w use

/-- The numbers in the references of the forms of a listing have 32 bits. -/
def Narrow (forms : List Form) : Prop :=
  ∀ s ∈ sites forms, ∀ shape ∈ s.instruction.operation.shape?, ∀ use ∈ shape.fields,
    ∀ number ∈ numbers s.form.args use, number < UInt32.size

instance (forms : List Form) : Decidable (Narrow forms) :=
  inferInstanceAs (Decidable (∀ s ∈ sites forms, ∀ shape ∈ s.instruction.operation.shape?,
    ∀ use ∈ shape.fields, ∀ number ∈ numbers s.form.args use, number < UInt32.size))

/-! ## Numbers that are kept -/

section Keeping

variable {keep keep' : Nat → Nat} {m : Module} {args : List Term} {w : UInt16} {use : OperandUse}

/-- Jump tables depend on the numbers that occur in them only. -/
theorem Jumps.congr {places : List (Nat × Nat)} {α : Type} {key : Operand → α → Prop}
    {items : List Term} {entries : List (α × Nat)} (h : Jumps keep places key items entries)
    (hkeep : ∀ number ∈ items.filterMap label?, keep number = keep' number) :
    Jumps keep' places key items entries := by
  induction h with
  | nil => exact .nil
  | @cons t label a number target items entries hkey hlabel hmem _ ih =>
    have hnumber : number ∈ (t :: label :: items).filterMap label? :=
      List.mem_filterMap.2 ⟨label, by simp, hlabel⟩
    refine .cons hkey hlabel (hkeep number hnumber ▸ hmem) (ih fun n hn => hkeep n ?_)
    obtain ⟨item, hitem, heq⟩ := List.mem_filterMap.1 hn
    exact List.mem_filterMap.2 ⟨item, by simp [hitem], heq⟩

/-- Imports depend on the arity only. -/
theorem ImportWord.congr {found : Option FunctionId} (h : ImportWord keep m found w)
    (hkeep : ∀ arity ∈ (found.map FunctionId.arity).toList, keep arity = keep' arity) :
    ImportWord keep' m found w := by
  obtain ⟨id, guard, rfl, himport⟩ := h
  exact ⟨id, guard, rfl, hkeep id.arity (by simp) ▸ himport⟩

/-- A word depends on the numbers of its operand only. -/
theorem Refers.congr {places : List (Nat × Nat)} (h : Refers keep places m args w use)
    (hkeep : ∀ number ∈ numbers args use, keep number = keep' number) :
    Refers keep' places m args w use := by
  cases use with
  | label k =>
    obtain ⟨number, hnumber, hw⟩ := h
    have heq : keep number = keep' number := hkeep number (by simp [numbers, hnumber])
    exact ⟨number, hnumber, heq ▸ hw⟩
  | values k | arities k =>
    obtain ⟨items, entries, hitems, hjumps, htable⟩ := h
    refine ⟨items, entries, hitems, hjumps.congr fun number hnumber => hkeep number ?_, htable⟩
    simpa [numbers, hitems] using hnumber
  | callee k count | builtin k arity | guardBuiltin k arity fail => exact ImportWord.congr h hkeep
  | _ => trivial

/-- The labels of a jump table are declared, so their numbers have 32 bits if they are kept. Keys
are no labels. -/
theorem Jumps.lt {α : Type} {key : Operand → α → Prop} {items : List Term}
    {entries : List (α × Nat)} (h : Jumps id (places forms) key items entries)
    (hkey : ∀ n a, ¬ key (.label n) a) :
    ∀ number ∈ items.filterMap label?, number < UInt32.size := by
  induction h with
  | nil => exact fun number hnumber => by cases hnumber
  | @cons t label a number target items entries ht hlabel hmem _ ih =>
    have hnone : label? t = none := by
      cases hsome : label? t with
      | none => rfl
      | some number =>
        obtain ⟨n, hn⟩ := operand_of_label? hsome
        exact absurd (hn ▸ ht) (hkey n a)
    rw [List.filterMap_cons_none hnone, List.filterMap_cons_some hlabel]
    intro n hn
    rcases List.mem_cons.1 hn with rfl | hn
    · exact lt_of_mem_places hmem
    · exact ih n hn

/-- An import whose arity has 32 bits, and is kept, is of a function whose arity has 32 bits. -/
theorem ImportWord.lt {found : Option FunctionId} (h : ImportWord (· % UInt32.size) m found w)
    (hid : ImportWord id m found w) :
    ∀ arity ∈ (found.map FunctionId.arity).toList, arity < UInt32.size := by
  obtain ⟨f, guard, rfl, himport⟩ := h
  obtain ⟨f', guard', heq, himport'⟩ := hid
  cases heq
  -- Both imports are the one at this place.
  have harity : f.arity % UInt32.size = f.arity :=
    congrArg (fun i : Import => i.id.arity) (Option.some.inj (himport.symm.trans himport'))
  intro arity hmem
  obtain rfl : arity = f.arity := by simpa using hmem
  rw [← harity]
  exact Nat.mod_lt _ (by decide)

/-- If the numbers of an operand are kept then they have 32 bits. -/
theorem Refers.lt (h : Refers (· % UInt32.size) (places forms) m args w use)
    (hid : Refers id (places forms) m args w use) :
    ∀ number ∈ numbers args use, number < UInt32.size := by
  cases use with
  | label k =>
    obtain ⟨number, hnumber, hw⟩ := hid
    intro n hn
    obtain rfl : n = number := by simpa [numbers, hnumber] using hn
    by_cases hzero : n = 0
    · rw [hzero]
      decide
    · rw [id, LabelWord, if_neg hzero] at hw
      exact lt_of_mem_places hw.2
  | values k =>
    obtain ⟨items, entries, hitems, hjumps, -⟩ := hid
    intro n hn
    rw [numbers, hitems] at hn
    exact hjumps.lt (fun n a hkey => by cases hkey) n hn
  | arities k =>
    obtain ⟨items, entries, hitems, hjumps, -⟩ := hid
    intro n hn
    rw [numbers, hitems] at hn
    exact hjumps.lt (fun n a ⟨v, hkey, _⟩ => by cases hkey) n hn
  | callee k count => exact ImportWord.lt h hid
  | builtin k arity => exact ImportWord.lt h hid
  | guardBuiltin k arity fail => exact ImportWord.lt h hid
  | _ => exact fun number hnumber => by cases hnumber

/-- Only fields that become words refer to something. -/
theorem slot?_of_mem_numbers (h : number ∈ numbers args use) : use.slot?.isSome := by
  cases use <;> first | rfl | cases h

/-- All numbers are kept if and only if all of them have 32 bits. -/
theorem Resolved.id_iff (h : Resolved (· % UInt32.size) forms m) :
    Resolved id forms m ↔ Narrow forms := by
  constructor
  · intro hid s hs shape hshape use huse number hnumber
    obtain ⟨j, hj⟩ := List.getElem?_of_mem huse
    have hslot := slot?_of_mem_numbers hnumber
    obtain ⟨w, hw, hrefers⟩ := h.words s hs shape hshape j use hj hslot
    obtain ⟨w', hw', hrefers'⟩ := hid.words s hs shape hshape j use hj hslot
    obtain rfl := Option.some.inj (hw.symm.trans hw')
    exact hrefers.lt hrefers' number hnumber
  · intro hnarrow
    refine ⟨h.once, fun s hs shape hshape j use hj hslot => ?_⟩
    obtain ⟨w, hw, hrefers⟩ := h.words s hs shape hshape j use hj hslot
    refine ⟨w, hw, hrefers.congr fun number hnumber => Nat.mod_eq_of_lt ?_⟩
    exact hnarrow s hs shape hshape use (List.mem_of_getElem? hj) number hnumber

end Keeping

/-! ## The references of a module -/

section Modules

variable {forms : List Form} {m : Module} {labels : List (UInt32 × Nat)}

/-- A label that is declared has a place. -/
theorem mem_places (hlabels : labels = (sites forms).filterMap Site.label?) {n : UInt32}
    {offset : Nat} (hn : n.toNat = number) (h : (n, offset) ∈ labels) :
    (number, offset) ∈ places forms := by
  rw [← hn]
  exact List.mem_map.2 ⟨(n, offset), hlabels ▸ h, rfl⟩

/-- The word of a label. -/
theorem labelWord_of_reading (hlabels : labels = (sites forms).filterMap Site.label?) {n : UInt32}
    {w : UInt16} (hn : n.toNat = number) (h : (m.reading labels).label w n) :
    LabelWord (places forms) number w := by
  change if n = 0 then w = noLabel else w ≠ noLabel ∧ (n, w.toNat) ∈ labels at h
  unfold LabelWord
  by_cases hzero : n = 0
  · have hnumber : number = 0 := by rw [← hn, hzero]; rfl
    rw [if_pos hzero] at h
    rw [if_pos hnumber]
    exact h
  · have hnumber : number ≠ 0 := by
      intro heq
      exact hzero (UInt32.toNat_inj.1 (hn.trans heq))
    rw [if_neg hzero] at h
    rw [if_neg hnumber]
    exact ⟨h.1, mem_places hlabels hn h.2⟩

/-- The entries of a jump table. -/
theorem jumps_of_pairsCoded {α : Type} {key : Operand → α → Prop}
    (hlabels : labels = (sites forms).filterMap Site.label?) {items : List Term}
    {table : List (α × UInt32)} {entries : List (α × Nat)}
    (hpairs : PairsCoded key (items.map operand) table)
    (hentries : List.Forall₂ (fun e e' => e'.1 = e.1 ∧ (e.2, e'.2) ∈ labels) table entries) :
    Jumps (· % UInt32.size) (places forms) key items entries := by
  generalize hoperands : items.map operand = operands at hpairs
  induction hpairs generalizing items entries with
  | nil =>
    obtain rfl := List.map_eq_nil_iff.1 hoperands
    cases hentries
    exact .nil
  | @cons o a n operands table hkey _ ih =>
    obtain ⟨t, rest, rfl, rfl, hrest⟩ := List.map_eq_cons_iff.1 hoperands
    obtain ⟨label, items, rfl, hlabel, hitems⟩ := List.map_eq_cons_iff.1 hrest
    have hdenotes : Denotes label (.label n) := hlabel ▸ denotes_operand label
    obtain ⟨number, hnumber, hn⟩ := hdenotes
    cases hentries with
    | @cons _ entry _ entries hentry hentries =>
      obtain ⟨a', target⟩ := entry
      obtain ⟨rfl, hmem⟩ := hentry
      exact .cons hkey hnumber (mem_places hlabels hn hmem) (ih hentries hitems)

variable {form : Form} {i : Instruction} (hi : instruction form = .ok i)

include hi

/-- The word of a function of another module. -/
theorem importWord_of_operand {k : Nat} {id : FunctionId} {guard : Bool} {w : UInt16}
    (ho : Assembler.operand i k = .external id) (hw : m.imports[w.toNat]? = some ⟨id, guard⟩) :
    ImportWord (· % UInt32.size) m (form.args[k]?.bind function?) w := by
  obtain ⟨t, hterm, arity, hfunction, harity⟩ := exists_arg hi ho nofun
  refine ⟨{ id with arity := arity }, guard, by rw [hterm]; exact hfunction, ?_⟩
  dsimp only
  rw [← harity]
  exact hw

/-- The items of a jump table. -/
theorem exists_items {k : Nat} {operands : List Operand}
    (ho : Assembler.operand i k = .list operands) :
    ∃ items, form.args[k]?.bind items? = some items ∧ operands = items.map operand := by
  obtain ⟨t, hterm, items, hitems, heq⟩ := exists_arg hi ho nofun
  exact ⟨items, by rw [hterm]; exact hitems, heq⟩

/-- What a word stands for is what the operand of its field refers to. -/
theorem refers_of_wordCoded (hlabels : labels = (sites forms).filterMap Site.label?)
    {use : OperandUse} {w : UInt16} (h : WordCoded (m.reading labels) i use w) :
    Refers (· % UInt32.size) (places forms) m form.args w use := by
  cases h with
  | label ho hw =>
    obtain ⟨t, hterm, number, hlabel, hn⟩ := exists_arg hi ho nofun
    exact ⟨number, by rw [hterm]; exact hlabel, labelWord_of_reading hlabels hn hw⟩
  | @choice _ k slot v n _ huse _ _ =>
    -- Registers, slots and constants refer to nothing.
    cases use <;> trivial
  | @number _ p n _ hw hn =>
    obtain rfl : w = n := hw
    cases use with
    | callee k count =>
      obtain ⟨id, v, ho, -, -, himported⟩ := hn
      exact importWord_of_operand hi ho himported
    | builtin k arity =>
      obtain ⟨id, ho, -, himported⟩ := hn
      exact importWord_of_operand hi ho himported
    | guardBuiltin k arity fail =>
      obtain ⟨id, guard, ho, -, -, himported⟩ := hn
      exact importWord_of_operand hi ho himported
    | values k | arities k =>
      obtain ⟨operands, table, ho, hpairs, entries, hentries, htable⟩ := hn
      obtain ⟨items, hitems, rfl⟩ := exists_items hi ho
      exact ⟨items, entries, hitems, jumps_of_pairsCoded hlabels hpairs hentries, htable⟩
    | label k => exact hn.elim
    | _ => trivial

omit hi

/-- The references of sites that are coded are resolved. -/
theorem SitesCoded.resolved (hnodup : (labels.map Prod.fst).Nodup)
    (h : SitesCoded (m.reading labels) 0 (sites forms) labels m.code.toList) :
    Resolved (· % UInt32.size) forms m := by
  refine ⟨?_, fun s hs shape hshape j use hj hslot => ?_⟩
  · have hplaces : (places forms).map Prod.fst = (labels.map Prod.fst).map UInt32.toNat := by
      rw [places, ← h.labels_eq, List.map_map, List.map_map]
      rfl
    rw [hplaces]
    exact List.Pairwise.map UInt32.toNat (fun a b hne heq => hne (UInt32.toNat_inj.1 heq)) hnodup
  · obtain ⟨p, before, block, after, hcode, hoffset, hblock⟩ := h.coded s hs shape hshape
    obtain ⟨w, hw, hword⟩ := hblock.wordCoded hj hslot
    obtain ⟨hlt, -⟩ := List.getElem?_eq_some_iff.1 hw
    have hat : m.code[s.offset + shape.place j]? = some w := by
      rw [← Array.getElem?_toList, hcode, ← hoffset, Nat.zero_add,
        List.getElem?_append_right (Nat.le_add_right _ _), Nat.add_sub_cancel_left,
        List.getElem?_append_left hlt]
      exact hw
    have hi := instruction_of_mem_sitesFrom hs
    exact ⟨w, hat, refers_of_wordCoded hi h.labels_eq hword⟩

end Modules

end Listing

/-- If a text makes a module, then each word of its code stands for what its form refers to, where
the numbers of labels and the arities of functions are taken modulo `2 ^ 32`. They are kept as they
are written if and only if all of them have 32 bits. -/
theorem parse_resolved {text : String} {m : Module} (h : Module.parse text = .ok m) :
    ∃ forms, Listing.forms text.toList = .ok forms ∧ Listing.Resolved (· % UInt32.size) forms m ∧
      (Listing.Resolved id forms m ↔ Listing.Narrow forms) := by
  obtain ⟨forms, labels, hforms, hnodup, hsites⟩ := Module.coded_sites h
  have hresolved := hsites.resolved hnodup
  exact ⟨forms, hforms, hresolved, hresolved.id_iff⟩

open Operand (tagged)

/-- A function that goes by a jump table to label 4, from there to label 3, and there calls a
function with one argument. The numbers of the references are given as they are written. -/
def branching (one three four : String) : String :=
  Listing.textOf [
    tagged "module" ["m"],
    tagged "function" ["f", "1", "2"],
    tagged "label" ["2"],
    tagged "select_val" [tagged "x" ["0"], tagged "f" [three],
      tagged "list" ["[a," ++ tagged "f" [four] ++ "]"]],
    tagged "label" ["3"],
    tagged "call_ext_only" ["1", tagged "extfunc" ["m", "g", one]],
    tagged "label" ["4"],
    tagged "jump" [tagged "f" [three]]]

/-- The code of this function, in which label 3 stands at offset 7. -/
def branchingCode : Array UInt16 := #[192, 1, 180, 0, 54, 7, 0, 60, 1, 0, 9, 7]

/-- With the usual numbers, all are kept. -/
theorem parse_resolved_branching :
    ∃ m forms, Module.parse (branching "1" "3" "4") = .ok m ∧ m.code = branchingCode ∧
      Listing.forms (branching "1" "3" "4").toList = .ok forms ∧ Listing.Narrow forms ∧
      Listing.Resolved id forms m := by
  have hruns : (Module.parse (branching "1" "3" "4")).toOption.isSome = true ∧
      (Module.ofText (branching "1" "3" "4")).code = branchingCode ∧
      ∀ forms ∈ (Listing.forms (branching "1" "3" "4").toList).toOption, Listing.Narrow forms := by
    decide +kernel
  obtain ⟨hsome, hcode, hnarrow⟩ := hruns
  have hparse := Module.parse_ofText hsome
  obtain ⟨forms, hforms, -, hkept⟩ := parse_resolved hparse
  have hnarrow : Listing.Narrow forms := hnarrow forms (by rw [hforms]; rfl)
  exact ⟨_, forms, hparse, hcode, hforms, hnarrow, hkept.2 hnarrow⟩

/-- With numbers that are larger by `2 ^ 32` the code is the same, and so is the function that is
called, although no form declares a label with such a number. -/
theorem branching_wraps : ∃ m forms,
    Module.parse (branching "4294967297" "4294967299" "4294967300") = .ok m ∧
      m.code = branchingCode ∧ m.imports = #[⟨⟨"m", "g", 1⟩, false⟩] ∧
      Listing.forms (branching "4294967297" "4294967299" "4294967300").toList = .ok forms ∧
      (Listing.places forms).map Prod.fst = [2, 3, 4] ∧ ¬ Listing.Resolved id forms m := by
  generalize htext : branching "4294967297" "4294967299" "4294967300" = text
  have hruns : (Module.parse text).toOption.isSome = true ∧
      (Module.ofText text).code = branchingCode ∧
      (Module.ofText text).imports = #[⟨⟨"m", "g", 1⟩, false⟩] ∧
      ∀ forms ∈ (Listing.forms text.toList).toOption,
        (Listing.places forms).map Prod.fst = [2, 3, 4] ∧ ¬ Listing.Narrow forms := by
    rw [← htext]
    decide +kernel
  obtain ⟨hsome, hcode, himports, hwide⟩ := hruns
  have hparse := Module.parse_ofText hsome
  -- The references are resolved modulo `2 ^ 32`, so they are kept only if the numbers are small.
  obtain ⟨forms, labels, hforms, hnodup, hsites⟩ := Module.coded_sites hparse
  obtain ⟨hplaces, hwide⟩ := hwide forms (by rw [hforms]; rfl)
  refine ⟨_, forms, hparse, hcode, himports, hforms, hplaces, fun hid => hwide ?_⟩
  exact (hsites.resolved hnodup).id_iff.1 hid

end ErlangMachine
