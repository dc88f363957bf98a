import ErlangMachine.Proofs.Faithfulness
import ErlangMachine.Proofs.Forms

/-!
# Where the forms of a listing stand

The words that an instruction takes can be counted without assembling it, so the code offset of each
form of a listing is known from the forms before it. `Listing.sites` gives these offsets.
`Listing.coded_sites` says that they are right: in the code of a module that was made from the
forms, the block that stands for an instruction is found at the offset of its form, and the labels
of the module stand at the offsets of the forms that declare them.

The forms and the code are followed together, from the front (`BodyRead.sites`, `FormsRead.sites`).
-/

namespace ErlangMachine

variable {i : Instruction} {shape : Shape}

/-! ## Widths -/

/-- The number of words that fetch sources ahead: an opcode and a word for each. -/
def Shape.fetchWidth (shape : Shape) : Nat :=
  if shape.fields.countP OperandUse.isSource = 0 then 0
  else shape.fields.countP OperandUse.isSource + 1

/-- The number of words that an instruction of some shape takes. -/
def Shape.width (shape : Shape) : Nat := shape.fetchWidth + (1 + shape.family.layout.length)

/-- Where the word of a field stands in the block of its instruction. -/
def Shape.place (shape : Shape) (j : Nat) : Nat :=
  shape.fetchWidth + (1 + ((shape.fields.take j).filterMap OperandUse.slot?).length)

/-- The number of the label that an instruction declares. -/
def Instruction.label? (i : Instruction) : Option UInt32 :=
  if i.operation = .label then Assembler.labelNumber? (Assembler.operand i 0) else none

/-- The number of words that an instruction takes in a function with some entry label. At this label
the function says how many registers it uses. -/
def Instruction.width (entry : UInt32) (i : Instruction) : Nat :=
  match i.operation.shape? with
  | some shape => shape.width
  | none => if i.label? = some entry then 2 else 0

theorem Instruction.label?_of_eq (hop : i.operation = .label) :
    i.label? = Assembler.labelNumber? (Assembler.operand i 0) := if_pos hop

/-- Other instructions declare no label. -/
theorem Instruction.label?_of_ne (hop : i.operation ≠ .label) :
    i.label? = none := if_neg hop

/-- An instruction with a shape takes the words of the shape. -/
theorem Instruction.width_of_some (entry : UInt32) (h : i.operation.shape? = some shape) :
    i.width entry = shape.width := by
  rw [width, h]

/-- Others take words at the entry label only. -/
theorem Instruction.width_of_none (entry : UInt32) (h : i.operation.shape? = none) :
    i.width entry = if i.label? = some entry then 2 else 0 := by
  rw [width, h]

section Blocks

variable {ω : Type} {r : Reading ω} {i : Instruction} {p : Nat} {uses : List OperandUse}
  {ss : List (Variant × UInt16)} {vs : List Variant} {ws : List ω}

/-- The words that fetch sources. -/
theorem FetchCoded.length_eq {fetch : List ω} (h : FetchCoded r ss fetch) :
    fetch.length = if ss.length = 0 then 0 else ss.length + 1 := by
  cases h with
  | none => rfl
  | one _ _ _ => rfl
  | two _ _ _ _ => rfl

/-- A block has its fetch in front. -/
theorem FieldsCoded.length_fetch (h : FieldsCoded r i p shape.fields ss vs ws) {fetch : List ω}
    (hfetch : FetchCoded r ss fetch) : fetch.length = shape.fetchWidth := by
  rw [hfetch.length_eq, h.length_sources]
  rfl

/-- The words of a block. -/
theorem BlockCoded.length_eq {block : List ω} (h : BlockCoded r i p shape block) :
    block.length = shape.width := by
  obtain ⟨hfields, hfetch, hmain⟩ := h
  obtain ⟨_, _, hlength⟩ := hmain
  rw [List.length_append, hfields.length_fetch hfetch, List.length_cons, hlength, Shape.width]
  omega

/-- What the word of a field stands for. -/
inductive WordCoded (r : Reading ω) (i : Instruction) : OperandUse → ω → Prop
  | label {k : Nat} {n : UInt32} {w : ω} :
    Assembler.operand i k = .label n → r.label w n → WordCoded r i (.label k) w
  | number {use : OperandUse} {p : Nat} {n : UInt16} {w : ω} :
    r.number w n → NumberCoded r i p use n → WordCoded r i use w
  | choice {use : OperandUse} {k : Nat} {slot : Slot} {v : Variant} {n : UInt16} {w : ω} :
    use.choice? = some (k, slot) → r.number w n → OperandCoded r (Assembler.operand i k) v n →
      WordCoded r i use w

/-- Each field that becomes a word has it after the words of the fields before it. -/
def WordsCoded (r : Reading ω) (i : Instruction) (uses : List OperandUse) (ws : List ω) : Prop :=
  ∀ j use, uses[j]? = some use → use.slot?.isSome →
    ∃ w, ws[((uses.take j).filterMap OperandUse.slot?).length]? = some w ∧ WordCoded r i use w

/-- A field with a word, before others. -/
theorem WordsCoded.word {use : OperandUse} {w : ω} (hslot : use.slot?.isSome)
    (hw : WordCoded r i use w) (h : WordsCoded r i uses ws) :
    WordsCoded r i (use :: uses) (w :: ws) := by
  obtain ⟨slot, hslot⟩ := Option.isSome_iff_exists.1 hslot
  intro j use' hj hslot'
  cases j with
  | zero =>
    cases hj
    exact ⟨w, rfl, hw⟩
  | succ j =>
    obtain ⟨w', hw', hcoded⟩ := h j use' hj hslot'
    refine ⟨w', ?_, hcoded⟩
    rw [List.take_succ_cons, List.filterMap_cons_some hslot, List.length_cons]
    exact hw'

/-- A field without a word, before others. -/
theorem WordsCoded.skip {use : OperandUse} (hslot : use.slot? = none) (h : WordsCoded r i uses ws) :
    WordsCoded r i (use :: uses) ws := by
  intro j use' hj hslot'
  cases j with
  | zero =>
    cases hj
    rw [hslot] at hslot'
    cases hslot'
  | succ j =>
    obtain ⟨w', hw', hcoded⟩ := h j use' hj hslot'
    refine ⟨w', ?_, hcoded⟩
    rw [List.take_succ_cons, List.filterMap_cons_none hslot]
    exact hw'

/-- The words of fields. -/
theorem FieldsCoded.wordsCoded (h : FieldsCoded r i p uses ss vs ws) : WordsCoded r i uses ws := by
  induction h with
  | nil => exact fun j use hj => by cases hj
  | source _ _ _ ih => exact ih.skip rfl
  | @choice p k use slot v n w uses ss vs ws huse _ hw ho _ ih =>
    have hslot : use.slot?.isSome := by
      cases use <;> first | rfl | cases huse
    exact ih.word hslot (.choice huse hw ho)
  | label ho hw _ ih => exact ih.word rfl (.label ho hw)
  | number hw hn _ ih =>
    obtain ⟨slot, hslot, -⟩ := hn.fits
    exact ih.word (Option.isSome_of_mem hslot) (.number hw hn)
  | @unused p use uses ss vs ws huse _ ih =>
    have hslot : use.slot? = none := by
      cases use <;> first | rfl | exact huse.elim
    exact ih.skip hslot

/-- The word of a field in the block of its instruction. -/
theorem BlockCoded.wordCoded {block : List ω} (h : BlockCoded r i p shape block) {j : Nat}
    {use : OperandUse} (hj : shape.fields[j]? = some use) (hslot : use.slot?.isSome) :
    ∃ w, block[shape.place j]? = some w ∧ WordCoded r i use w := by
  obtain ⟨hfields, hfetch, hmain⟩ := h
  obtain ⟨_, _, _⟩ := hmain
  obtain ⟨w, hw, hcoded⟩ := hfields.wordsCoded j use hj hslot
  refine ⟨w, ?_, hcoded⟩
  -- The fetch and the opcode stand before the words of the fields.
  rw [Shape.place, ← hfields.length_fetch hfetch, List.getElem?_append_right (by omega),
    Nat.add_sub_cancel_left, Nat.add_comm 1, List.getElem?_cons_succ]
  exact hw

end Blocks

/-! ## Sites -/

namespace Listing

variable {entry : UInt32} {form : Form} {forms : List Form} {i : Instruction} {start : Nat}
  {labels : List (UInt32 × Nat)}

/-- A form that is an instruction, and the code offset at which it stands. -/
structure Site where
  /-- The form. -/
  form : Form
  /-- The instruction. -/
  instruction : Instruction
  /-- The offset. -/
  offset : Nat

/-- The number of the label that a site declares, and its offset. -/
def Site.label? (s : Site) : Option (UInt32 × Nat) := s.instruction.label?.map (·, s.offset)

/-- The sites of some forms from a code offset on, in a function with some entry label. -/
def sitesFrom (entry : UInt32) (offset : Nat) : List Form → List Site
  | [] => []
  | form :: forms =>
    match instruction form with
    | .ok i => ⟨form, i, offset⟩ :: sitesFrom entry (offset + i.width entry) forms
    | .error _ => sitesFrom (form.entry?.getD entry) offset forms

/-- The sites of a listing. No instruction stands before the first function, so the label that is
given for it does not matter. -/
def sites (forms : List Form) : List Site := sitesFrom 0 0 forms

/-- An instruction has a site. -/
theorem sitesFrom_line {offset : Nat} (h : instruction form = .ok i) :
    sitesFrom entry offset (form :: forms) =
      ⟨form, i, offset⟩ :: sitesFrom entry (offset + i.width entry) forms := by
  rw [sitesFrom, h]

/-- A form that is no instruction has none, but it may open a function. -/
theorem sitesFrom_directive {offset : Nat} (h : form.IsDirective) :
    sitesFrom entry offset (form :: forms) =
      sitesFrom (form.entry?.getD entry) offset forms := by
  rw [sitesFrom]
  cases hi : instruction form with
  | ok i => exact absurd hi (h i)
  | error e => rfl

/-- The instruction of a site is what its form denotes. -/
theorem instruction_of_mem_sitesFrom {offset : Nat} {s : Site}
    (h : s ∈ sitesFrom entry offset forms) : instruction s.form = .ok s.instruction := by
  induction forms generalizing entry offset with
  | nil => cases h
  | cons form forms ih =>
    cases hi : instruction form with
    | ok i =>
      rw [sitesFrom_line hi] at h
      rcases List.mem_cons.1 h with rfl | h
      · exact hi
      · exact ih h
    | error e =>
      have hdirective : form.IsDirective := by
        intro i hok
        rw [hi] at hok
        cases hok
      rw [sitesFrom_directive hdirective] at h
      exact ih h

section Coded

variable {ω : Type} {r : Reading ω}

/-- The block of a site is found at its offset, in words that begin at the offset `start`. -/
def Site.Coded (r : Reading ω) (start : Nat) (ws : List ω) (s : Site) : Prop :=
  ∀ shape, s.instruction.operation.shape? = some shape → ∃ p before block after,
    ws = before ++ (block ++ after) ∧ start + before.length = s.offset ∧
      BlockCoded r s.instruction p shape block

/-- Words from the offset `start` on are the code of some sites, and `labels` are the labels that
these declare. -/
structure SitesCoded (r : Reading ω) (start : Nat) (ss : List Site) (labels : List (UInt32 × Nat))
    (ws : List ω) : Prop where
  /-- The labels are those declared. -/
  labels_eq : labels = ss.filterMap Site.label?
  /-- Each site has its block. -/
  coded : ∀ s ∈ ss, s.Coded r start ws

theorem SitesCoded.nil (start : Nat) : SitesCoded r start [] [] [] := ⟨rfl, fun s hs => by cases hs⟩

/-- Sites after sites. -/
theorem SitesCoded.append {ss ss' : List Site} {labels' : List (UInt32 × Nat)} {ws ws' : List ω}
    (h : SitesCoded r start ss labels ws) (h' : SitesCoded r (start + ws.length) ss' labels' ws') :
    SitesCoded r start (ss ++ ss') (labels ++ labels') (ws ++ ws') := by
  refine ⟨by rw [List.filterMap_append, h.labels_eq, h'.labels_eq], fun s hs shape hshape => ?_⟩
  rcases List.mem_append.1 hs with hs | hs
  · obtain ⟨p, before, block, after, rfl, hoffset, hblock⟩ := h.coded s hs shape hshape
    exact ⟨p, before, block, after ++ ws', by simp, hoffset, hblock⟩
  · obtain ⟨p, before, block, after, rfl, hoffset, hblock⟩ := h'.coded s hs shape hshape
    refine ⟨p, ws ++ before, block, after, by simp, ?_, hblock⟩
    rw [List.length_append, ← hoffset]
    omega

/-- One site, with the label that it declares, if any, and its block. -/
theorem SitesCoded.single {n : Option UInt32} {block : List ω} (hlabel : i.label? = n)
    (h : ∀ shape, i.operation.shape? = some shape → ∃ p, BlockCoded r i p shape block) :
    SitesCoded r start [⟨form, i, start⟩] (n.map (·, start)).toList block := by
  refine ⟨?_, fun s hs shape hshape => ?_⟩
  · cases n with
    | none | some n => simp [Site.label?, hlabel]
  · obtain rfl := List.mem_singleton.1 hs
    obtain ⟨p, hblock⟩ := h shape hshape
    exact ⟨p, [], block, [], by simp, rfl, hblock⟩

/-- A site that has no shape: a label or a remark. -/
theorem SitesCoded.plain {n : Option UInt32} {block : List ω} (hlabel : i.label? = n)
    (hshape : i.operation.shape? = none) :
    SitesCoded r start [⟨form, i, start⟩] (n.map (·, start)).toList block := by
  refine .single hlabel fun shape hsome => ?_
  rw [hshape] at hsome
  cases hsome

/-- Remarks are no labels and take no words. -/
theorem shape?_of_isAnnotation {op : Operation} (h : op.isAnnotation) :
    op.shape? = none ∧ op ≠ .label := by
  cases op <;> first | exact absurd h (by decide) | exact ⟨rfl, by decide⟩

/-- One line of a body. It has a site with the first words of the body. -/
theorem exists_site {capacity : UInt16} {p : Nat} {body : List Instruction} {ws : List ω}
    (h : BodyCoded r entry capacity p start (i :: body) labels ws) (form : Form) :
    ∃ q labels₁ labels' block ws', labels = labels₁ ++ labels' ∧ ws = block ++ ws' ∧
      block.length = i.width entry ∧ SitesCoded r start [⟨form, i, start⟩] labels₁ block ∧
      BodyCoded r entry capacity q (start + i.width entry) body labels' ws' := by
  cases h with
  | @label _ _ _ n _ labels _ hop hn hne hrest =>
    have hlabel : i.label? = some n := (Instruction.label?_of_eq hop).trans hn
    have hshape : i.operation.shape? = none := by rw [hop]; rfl
    have hwidth : i.width entry = 0 := by
      rw [Instruction.width_of_none entry hshape]
      -- It is not the entry label.
      exact if_neg fun heq => hne (Option.some.inj (hlabel.symm.trans heq))
    refine ⟨p, [(n, start)], labels, [], ws, rfl, rfl, hwidth.symm, .plain hlabel hshape, ?_⟩
    rw [hwidth]
    exact hrest
  | @entry _ _ _ k head word _ labels ws hop hn hhead hopcode hword hrest =>
    have hlabel : i.label? = some entry := (Instruction.label?_of_eq hop).trans hn
    have hshape : i.operation.shape? = none := by rw [hop]; rfl
    have hwidth : i.width entry = 2 := by
      rw [Instruction.width_of_none entry hshape]
      exact if_pos hlabel
    refine ⟨p, [(entry, start)], labels, [head, word], ws, rfl, rfl, hwidth.symm,
      .plain hlabel hshape, ?_⟩
    rw [hwidth]
    exact hrest
  | remark hop hrest =>
    obtain ⟨hshape, hne⟩ := shape?_of_isAnnotation hop
    have hlabel : i.label? = none := Instruction.label?_of_ne hne
    have hwidth : i.width entry = 0 := by
      rw [Instruction.width_of_none entry hshape, hlabel]
      exact if_neg nofun
    refine ⟨p, [], labels, [], ws, rfl, rfl, hwidth.symm, .plain hlabel hshape, ?_⟩
    rw [hwidth]
    exact hrest
  | @instruction _ _ _ shape _ _ block ws hshape hlawful harity hblock hposition hrest =>
    have hne : i.operation ≠ .label := by
      intro hop
      rw [hop] at hshape
      cases hshape
    have hlabel : i.label? = none := Instruction.label?_of_ne hne
    have hwidth : block.length = i.width entry := by
      rw [Instruction.width_of_some entry hshape]
      exact hblock.length_eq
    refine ⟨_, [], labels, block, ws, rfl, rfl, hwidth, .single hlabel fun shape' hshape' => ?_,
      hwidth ▸ hrest⟩
    obtain rfl := Option.some.inj (hshape.symm.trans hshape')
    exact ⟨_, hblock⟩

/-- The sites of the forms of a body are coded by the words of the body, and what comes after it
stands after these words. -/
theorem BodyRead.sites {body : List Instruction} (hread : BodyRead forms body) {capacity : UInt16}
    {p : Nat} {ws : List ω} (hcoded : BodyCoded r entry capacity p start body labels ws) :
    ∃ ss, (∀ more, sitesFrom entry start (forms ++ more) =
      ss ++ sitesFrom entry (start + ws.length) more) ∧ SitesCoded r start ss labels ws := by
  induction hread generalizing p start labels ws with
  | nil =>
    cases hcoded
    exact ⟨[], fun more => rfl, .nil start⟩
  | @remark form forms body hdirective hentry _ ih =>
    obtain ⟨ss, hsites, hss⟩ := ih hcoded
    refine ⟨ss, fun more => ?_, hss⟩
    rw [List.cons_append, sitesFrom_directive hdirective, hentry]
    exact hsites more
  | @line form i forms body hi _ ih =>
    -- The first words are those of this line, so the rest of the forms stands after them.
    obtain ⟨q, labels₁, labels', block, ws', rfl, rfl, hwidth, hsite, hrest⟩ :=
      exists_site hcoded form
    obtain ⟨ss, hsites, hss⟩ := ih hrest
    refine ⟨⟨form, i, start⟩ :: ss, fun more => ?_, hsite.append (hwidth ▸ hss)⟩
    rw [List.cons_append, sitesFrom_line hi, hsites more, List.length_append, hwidth, Nat.add_assoc,
      List.cons_append]

/-- The sites of some forms are coded by the words of their functions. -/
theorem FormsRead.sites {functions : List FunctionListing} (hread : FormsRead forms functions)
    {ws : List ω} (hcoded : ProgramCoded r start functions labels ws) :
    SitesCoded r start (sitesFrom entry start forms) labels ws := by
  induction hread generalizing entry start labels ws with
  | nil =>
    cases hcoded
    exact .nil start
  | @remark form forms functions hdirective hentry _ ih =>
    rw [sitesFrom_directive hdirective, hentry]
    exact ih hcoded
  | @function form forms more f functions hdirective hentry hbody _ ih =>
    cases hcoded with
    | cons hcodedBody hcodedRest =>
      obtain ⟨ss, hsites, hss⟩ := hbody.sites hcodedBody
      rw [sitesFrom_directive hdirective, hentry, Option.getD_some, hsites more]
      exact hss.append (ih hcodedRest)

end Coded

end Listing

/-- The code of a module that a listing denotes. -/
theorem Listing.programCoded_of_toModule {l : Listing} {m : Module} (h : l.toModule = .ok m) :
    ∃ labels, (labels.map Prod.fst).Nodup ∧
      ProgramCoded (m.reading labels) 0 l.functions.toList labels m.code.toList := by
  obtain ⟨a, hassembled, hfinish⟩ := assembled_of_toModule h
  obtain ⟨labels, ws, hprogram⟩ := hassembled.program
  have hfinished := Assembler.finished_of_finish hfinish
  obtain ⟨hcode, hplaces⟩ := hfinished.code_eq hprogram.code hprogram.fixups
  have hnodup := hprogram.nodup
  rw [hprogram.labels_eq, List.map_reverse, (List.reverse_perm _).nodup_iff] at hnodup
  refine ⟨labels, hnodup, ?_⟩
  rw [hcode]
  exact hprogram.coded.map (hfinished.hom hprogram.labels_eq)
    (Assembler.label_of_places m hprogram.labels_eq hplaces)

/-- The code of a module that a text denotes is that of the text's sites, and each of the labels
that these declare is declared once. -/
theorem Module.coded_sites {text : String} {m : Module} (h : Module.parse text = .ok m) :
    ∃ forms labels, Listing.forms text.toList = .ok forms ∧ (labels.map Prod.fst).Nodup ∧
      Listing.SitesCoded (m.reading labels) 0 (Listing.sites forms) labels m.code.toList := by
  obtain ⟨l, forms, hforms, hread, hmodule⟩ := Module.exists_listing h
  obtain ⟨labels, hnodup, hcoded⟩ := Listing.programCoded_of_toModule hmodule
  exact ⟨forms, labels, hforms, hnodup, hread.sites hcoded⟩

end ErlangMachine
