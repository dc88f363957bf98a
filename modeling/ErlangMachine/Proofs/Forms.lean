import ErlangMachine.Proofs.Finishing

/-!
# From forms to functions

Reading a text gives its forms, and the forms make functions: one form opens a function, and those
that are instructions go to the function opened last. `FormsRead` says this from the front, so that
what holds of the functions of a module can be followed back to the forms that it was read from.
`OperandRead` does the same for the operands of an instruction and the terms in its form.
-/

namespace ErlangMachine

namespace Listing

variable {name : Atom} {i : Instruction} {form : Form} {forms : List Form} {d d' : Draft}

/-! ## Operands -/

/-- How a term is read as an operand. -/
inductive OperandRead : Term → Operand → Prop
  /-- A term that fits no other way of reading. -/
  | literal (t : Term) : OperandRead t (.literal t)
  /-- An integer. -/
  | integer (v : Int64) : OperandRead (.integer v) (.int v)
  /-- The empty list. -/
  | nil : OperandRead .nil .nil
  /-- An atom that stands for the empty list. -/
  | nilAtom (a : Atom) : OperandRead (.atom a) .nil
  /-- Any other atom. -/
  | atom (a : Atom) : OperandRead (.atom a) (.atom a)
  /-- A list of operands. -/
  | list {part : Term} {items : List Operand} : operands? part = some items →
    OperandRead (.tuple [.atom ⟨"list"⟩, part]) (.list items)
  /-- A tag and one part. -/
  | single {tag : String} {part : Term} {o : Operand} : single? tag part = some o →
    OperandRead (.tuple [.atom ⟨tag⟩, part]) o
  /-- An operand with a note on its type. -/
  | typed {register type : Term} {o : Operand} : OperandRead register o →
    OperandRead (.tuple [.atom ⟨"tr"⟩, register, type]) o
  /-- A function of another module. -/
  | external {module function arity : Term} {o : Operand} :
    external? module function arity = some o →
    OperandRead (.tuple [.atom ⟨"extfunc"⟩, module, function, arity]) o

/-- What is found, or else the literal. -/
theorem OperandRead.getD {found : Option Operand} {t : Term}
    (h : ∀ o, found = some o → OperandRead t o) : OperandRead t (found.getD (.literal t)) := by
  cases found with
  | some o => exact h o rfl
  | none => exact .literal t

/-- Every term is read in one of these ways. -/
theorem operandRead (t : Term) : OperandRead t (operand t) := by
  -- The items of a list are read by themselves, so nothing is asked of them here.
  refine operand.induct (fun t => OperandRead t (operand t)) (fun _ => True)
    ?integer ?nil ?nilAtom ?atom ?list ?single ?typed ?triple ?quadruple ?literal
    trivial (fun _ _ _ _ => trivial) (fun _ _ _ => trivial) t
  case integer =>
    intro v
    exact .integer v
  case nil =>
    exact .nil
  case nilAtom =>
    intro a ha
    rw [operand, if_pos ha]
    exact .nilAtom a
  case atom =>
    intro a ha
    rw [operand, if_neg ha]
    exact .atom a
  case list =>
    intro part _
    refine .getD fun o ho => ?_
    obtain ⟨items, hitems, rfl⟩ := Option.map_eq_some_iff.1 ho
    exact .list hitems
  case single =>
    intro tag part htag _
    rw [operand, if_neg htag]
    exact .getD fun o ho => .single ho
  case typed =>
    intro register type ih
    exact .typed ih
  case triple =>
    intro tag register type htag _
    rw [operand, if_neg htag]
    exact .literal _
  case quadruple =>
    intro tag a b c
    refine .getD fun o ho => ?_
    by_cases htag : tag = "extfunc"
    · rw [if_pos htag] at ho
      rw [htag]
      exact .external ho
    · rw [if_neg htag] at ho
      cases ho
  case literal =>
    intro t hinteger hnil hatom hsingle htriple hquadruple
    rw [operand]
    · exact .literal t
    all_goals assumption

/-! ## Instructions -/

/-- The operands of an instruction as its form has them. -/
def Form.args (form : Form) : List Term :=
  match form.term with
  | .tuple (_ :: args) => args
  | _ => []

/-- An instruction that is a tuple: its operation is looked up and its operands are counted. -/
theorem instruction_tuple {line : Nat} {args : List Term}
    (h : instruction ⟨line, .tuple (.atom name :: args)⟩ = .ok i) :
    i.operands = args.map operand ∧ args.length = i.operation.arity := by
  unfold instruction at h
  simp only [pure_bind] at h
  split at h
  · cases h
  · rename_i op _
    by_cases harity : args.length = op.arity
    · rw [if_neg (not_not_intro harity)] at h
      cases h
      exact ⟨rfl, harity⟩
    · rw [if_pos harity] at h
      cases h

/-- The operands of an instruction are what the terms in its form denote. -/
theorem operands_of_instruction (h : instruction form = .ok i) :
    i.operands = form.args.map operand ∧ form.args.length = i.operation.arity := by
  obtain ⟨line, t⟩ := form
  cases t with
  | atom name =>
    -- An atom is read as a tuple without operands would be.
    change instruction ⟨line, .tuple [.atom name]⟩ = .ok i at h
    exact instruction_tuple h
  | tuple elements =>
    cases elements with
    | nil => cases h
    | cons head args =>
      cases head with
      | atom name => exact instruction_tuple h
      | _ => cases h
  | _ => cases h

/-! ## Functions -/

/-- The entry label of the function that a form opens. -/
def Form.entry? (form : Form) : Option UInt32 :=
  match form.term with
  | .tuple [.atom ⟨"function"⟩, .atom _, .integer _, .integer entry] => word? (.integer entry)
  | _ => none

/-- A form that is no instruction. -/
def Form.IsDirective (form : Form) : Prop := ∀ i, instruction form ≠ .ok i

/-- The name at the front of a form decides whether it can be an instruction. -/
theorem isDirective_of_name {args : List Term} (hterm : form.term = .tuple (.atom name :: args))
    (hname : Operation.ofName? name.name = none) : form.IsDirective := by
  intro i h
  unfold instruction at h
  rw [hterm] at h
  simp only [pure_bind, hname] at h
  cases h

/-- Only a form with the right name in front opens a function. -/
theorem entry?_of_ne {args : List Term} (hterm : form.term = .tuple (.atom name :: args))
    (hname : name.name ≠ "function") : form.entry? = none := by
  unfold Form.entry?
  split
  · rename_i heq
    rw [hterm] at heq
    cases heq
    exact absurd rfl hname
  · rfl

/-- Forms that stand in the body of a function, and its instructions. Forms that say something about
the module may stand between them. -/
inductive BodyRead : List Form → List Instruction → Prop
  | nil : BodyRead [] []
  /-- A form about the module. -/
  | remark {form : Form} {forms : List Form} {body : List Instruction} :
    form.IsDirective → form.entry? = none → BodyRead forms body → BodyRead (form :: forms) body
  /-- A form that is an instruction. -/
  | line {form : Form} {i : Instruction} {forms : List Form} {body : List Instruction} :
    instruction form = .ok i → BodyRead forms body → BodyRead (form :: forms) (i :: body)

/-- Forms and the functions that they make. -/
inductive FormsRead : List Form → List FunctionListing → Prop
  | nil : FormsRead [] []
  /-- A form about the module. -/
  | remark {form : Form} {forms : List Form} {functions : List FunctionListing} :
    form.IsDirective → form.entry? = none → FormsRead forms functions →
      FormsRead (form :: forms) functions
  /-- A form that opens a function, and those of its body. -/
  | function {form : Form} {forms more : List Form} {f : FunctionListing}
      {functions : List FunctionListing} :
    form.IsDirective → form.entry? = some f.entry → BodyRead forms f.body.toList →
      FormsRead more functions →
      FormsRead (form :: (forms ++ more)) (f :: functions)

/-- Every instruction of a body was read from a form. -/
theorem BodyRead.exists_form {body : List Instruction} (h : BodyRead forms body) (hi : i ∈ body) :
    ∃ form ∈ forms, instruction form = .ok i := by
  induction h with
  | nil => cases hi
  | remark _ _ _ ih =>
    obtain ⟨form, hform, hread⟩ := ih hi
    exact ⟨form, List.mem_cons_of_mem _ hform, hread⟩
  | line hread _ ih =>
    rcases List.mem_cons.1 hi with rfl | hi
    · exact ⟨_, List.mem_cons_self, hread⟩
    · obtain ⟨form, hform, hread⟩ := ih hi
      exact ⟨form, List.mem_cons_of_mem _ hform, hread⟩

/-- Every instruction of a function was read from a form. -/
theorem FormsRead.exists_form {functions : List FunctionListing} (h : FormsRead forms functions)
    {f : FunctionListing} (hf : f ∈ functions) (hi : i ∈ f.body) :
    ∃ form ∈ forms, instruction form = .ok i := by
  induction h with
  | nil => cases hf
  | remark _ _ _ ih =>
    obtain ⟨form, hform, hread⟩ := ih hf
    exact ⟨form, List.mem_cons_of_mem _ hform, hread⟩
  | function _ _ hbody _ ih =>
    rcases List.mem_cons.1 hf with rfl | hf
    · obtain ⟨form, hform, hread⟩ := hbody.exists_form (Array.mem_toList_iff.2 hi)
      exact ⟨form, List.mem_cons_of_mem _ (List.mem_append_left _ hform), hread⟩
    · obtain ⟨form, hform, hread⟩ := ih hf
      exact ⟨form, List.mem_cons_of_mem _ (List.mem_append_right _ hform), hread⟩

/-- What one form does to a draft: it says something about the module, it opens a function, or it is
an instruction of the function opened last. -/
inductive Added (d : Draft) (form : Form) (d' : Draft) : Prop
  | remark : form.IsDirective → form.entry? = none → d'.functions = d.functions → Added d form d'
  | function {f : LocalName} {entry : UInt32} :
    form.IsDirective → form.entry? = some entry →
      d'.functions = d.functions.push ⟨f, entry, #[]⟩ → Added d form d'
  | line {i : Instruction} {done : Array FunctionListing} {f : FunctionListing} :
    instruction form = .ok i → d.functions = done.push f →
      d'.functions = done.push { f with body := f.body.push i } → Added d form d'

/-- A form with a name in front that says something about the module. -/
theorem Added.of_name {args : List Term} (hterm : form.term = .tuple (.atom name :: args))
    (hname : Operation.ofName? name.name = none ∧ name.name ≠ "function")
    (heq : d'.functions = d.functions) : Added d form d' :=
  .remark (isDirective_of_name hterm hname.1) (entry?_of_ne hterm hname.2) heq

/-- The last of some functions is changed. -/
theorem modify_push {α : Type} (done : Array α) (a : α) (g : α → α) :
    (done.push a).modify ((done.push a).size - 1) g = done.push (g a) := by
  ext i hi hi'
  · simp
  · grind

/-- An instruction goes to the function opened last. -/
theorem added_of_addInstruction (h : d.addInstruction form = .ok d') : Added d form d' := by
  obtain ⟨i, hi, h⟩ := except_bind_eq_ok h
  cases hempty : d.functions.isEmpty with
  | true =>
    rw [hempty] at h
    cases h
  | false =>
    rw [hempty] at h
    cases h
    have hne : d.functions ≠ #[] := by
      intro heq
      rw [heq] at hempty
      cases hempty
    obtain ⟨done, f, hd⟩ := Array.exists_push_of_ne_empty hne
    refine .line hi hd ?_
    rw [hd]
    exact modify_push done f fun f => { f with body := f.body.push i }

/-- What one form does. -/
theorem added_of_add (h : d.add form = .ok d') : Added d form d' := by
  unfold Draft.add at h
  split at h
  -- Attributes, the number of labels, the name of the module, and exports.
  · rename_i hterm
    cases h
    exact .of_name hterm (by decide) rfl
  · rename_i hterm
    cases h
    exact .of_name hterm (by decide) rfl
  · rename_i hterm
    cases h
    exact .of_name hterm (by decide) rfl
  · rename_i hterm
    split at h
    · cases h
      exact .of_name hterm (by decide) rfl
    · cases h
  -- The beginning of a function.
  · rename_i hterm
    split at h
    · rename_i harity hentry
      cases h
      refine .function (isDirective_of_name hterm (by decide)) ?_ rfl
      unfold Form.entry?
      rw [hterm]
      exact hentry
    · cases h
  · exact added_of_addInstruction h

/-- What some forms do to a draft. If no function is open then all functions are made from these
forms; otherwise the first of them go on with the function opened last. -/
structure Extended (d : Draft) (forms : List Form) (d' : Draft) : Prop where
  /-- No function was open. -/
  fresh : d.functions = #[] → FormsRead forms d'.functions.toList
  /-- A function was open. -/
  resumed : ∀ (done : Array FunctionListing) f, d.functions = done.push f → ∃ front back body rest,
    forms = front ++ back ∧ BodyRead front body ∧ FormsRead back rest ∧
      d'.functions.toList = done.toList ++ { f with body := f.body ++ body.toArray } :: rest

/-- One form and then others. -/
theorem Extended.cons {d₁ : Draft} (hadded : Added d form d₁) (h : Extended d₁ forms d') :
    Extended d (form :: forms) d' := by
  cases hadded with
  | remark hdirective hentry heq =>
    refine ⟨fun hempty => .remark hdirective hentry (h.fresh (heq.trans hempty)),
      fun done f hd => ?_⟩
    obtain ⟨front, back, body, rest, rfl, hfront, hback, hfunctions⟩ :=
      h.resumed done f (heq.trans hd)
    exact ⟨form :: front, back, body, rest, rfl, .remark hdirective hentry hfront, hback,
      hfunctions⟩
  | @function f entry hdirective hentry heq =>
    obtain ⟨front, back, body, rest, rfl, hfront, hback, hfunctions⟩ := h.resumed _ _ heq
    have hopened : FormsRead (form :: (front ++ back)) (⟨f, entry, #[] ++ body.toArray⟩ :: rest) :=
      .function hdirective hentry (by simpa using hfront) hback
    refine ⟨fun hempty => ?_, fun done f hd => ?_⟩
    · rw [hfunctions, hempty]
      exact hopened
    · refine ⟨[], _, [], _, rfl, .nil, hopened, ?_⟩
      rw [hfunctions, hd]
      simp
  | @line i done f hi hd heq =>
    refine ⟨fun hempty => ?_, fun done' f' hd' => ?_⟩
    · rw [hempty] at hd
      exact absurd hd.symm (Array.push_ne_empty)
    · obtain ⟨rfl, rfl⟩ := Array.push_eq_push.1 (hd.symm.trans hd')
      obtain ⟨front, back, body, rest, rfl, hfront, hback, hfunctions⟩ := h.resumed _ _ heq
      refine ⟨form :: front, back, i :: body, rest, rfl, .line hi hfront, hback, ?_⟩
      rw [hfunctions]
      simp

/-- What some forms do. -/
theorem extended_of_foldlM (h : forms.foldlM Draft.add d = .ok d') : Extended d forms d' := by
  induction forms generalizing d with
  | nil =>
    cases h
    refine ⟨fun hempty => ?_, fun done f hd => ⟨[], [], [], [], rfl, .nil, .nil, ?_⟩⟩
    · rw [hempty]
      exact .nil
    · rw [hd]
      simp
  | cons form forms ih =>
    obtain ⟨d₁, hadd, hrest⟩ := except_bind_eq_ok h
    exact .cons (added_of_add hadd) (ih hrest)

/-- The functions of a listing are made from the forms of its text. -/
theorem formsRead_of_parse {text : String} {l : Listing} (h : parse text = .ok l) :
    ∃ forms, Listing.forms text.toList = .ok forms ∧ FormsRead forms l.functions.toList := by
  unfold parse at h
  cases hforms : forms text.toList with
  | error e =>
    rw [hforms] at h
    cases h
  | ok found =>
    rw [hforms] at h
    obtain ⟨_, hfound, h⟩ := except_bind_eq_ok h
    cases hfound
    obtain ⟨d, hd, h⟩ := except_bind_eq_ok h
    cases hname : d.name with
    | none =>
      rw [hname] at h
      cases h
    | some name =>
      rw [hname] at h
      cases h
      exact ⟨found, rfl, (extended_of_foldlM hd).fresh rfl⟩

end Listing

/-- A text that makes a module was read as a listing, whose functions are made from its forms. -/
theorem Module.exists_listing {text : String} {m : Module} (h : Module.parse text = .ok m) :
    ∃ (l : Listing) (forms : List Listing.Form), Listing.forms text.toList = .ok forms ∧
      Listing.FormsRead forms l.functions.toList ∧ l.toModule = .ok m := by
  unfold Module.parse at h
  cases hparse : Listing.parse text with
  | error e =>
    rw [hparse] at h
    cases h
  | ok l =>
    rw [hparse] at h
    dsimp only at h
    cases hmodule : l.toModule with
    | error e =>
      rw [hmodule] at h
      cases h
    | ok found =>
      rw [hmodule] at h
      cases h
      obtain ⟨forms, hforms, hread⟩ := Listing.formsRead_of_parse hparse
      exact ⟨l, forms, hforms, hread, hmodule⟩

/-! ## Texts -/

/-- A text of some forms. -/
def Listing.textOf (forms : List String) : String := String.join (forms.map (· ++ ".\n"))

/-- The module of a text that makes one. -/
def Module.ofText (text : String) : Module := (Module.parse text).toOption.getD default

/-- A text that makes a module makes that one. -/
theorem Module.parse_ofText {text : String} (h : (Module.parse text).toOption.isSome = true) :
    Module.parse text = .ok (.ofText text) := by
  unfold Module.ofText
  cases hparse : Module.parse text with
  | ok m => rfl
  | error e =>
    rw [hparse] at h
    cases h

end ErlangMachine
