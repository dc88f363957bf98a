import ErlangMachine.Machine.Execute

/-!
# Operand words along a layout

A command reads its operand words one after the other, and nothing tells it how many there are or
what they mean. The layout of its family says so as well, for those who write code and for those who
list it. `along_decode` says that the two agree for every family: a command reads one word for each
slot of the layout, in order, and it refers to what the words in these slots refer to. It calls if
the family is one of calls, and it has a fail label if the family may fail.
-/

namespace ErlangMachine

/-! ## Words and what they refer to -/

/-- The slot of a word with a variant: a source may be a constant. -/
def Slot.denoted : Slot → Variant → Slot
  | source, .c | floatSource, .c => constant
  | slot, _ => slot

/-- Words with their slots. The variants are for the slots with a choice, in order. -/
def laid : List Slot → List Variant → List UInt16 → List (Slot × UInt16)
  | slot :: slots, vs, w :: ws =>
    (slot.denoted (vs.headD .x), w) :: laid slots (if slot.variants.isEmpty then vs else vs.tail) ws
  | _, _, _ => []

/-- The label that a word stands for. -/
def labelOf (w : UInt16) : Option Nat := if w = noLabel then none else some w.toNat

/-- What a word refers to, with its slot: a label that is not missing, a constant or a jump
table. -/
def Slot.goals (slot : Slot) (w : UInt16) : List (Slot × Nat) :=
  match slot with
  | label => (labelOf w).toList.map (label, ·)
  | constant => [(constant, w.toNat)]
  | valueTable => [(valueTable, w.toNat)]
  | arityTable => [(arityTable, w.toNat)]
  | _ => []

/-- What words refer to. -/
def goals (operands : List (Slot × UInt16)) : List (Slot × Nat) :=
  operands.flatMap fun o => o.1.goals o.2

/-- The first label among words. -/
def firstLabel : List (Slot × UInt16) → Option Nat
  | (.label, w) :: _ => labelOf w
  | _ :: operands => firstLabel operands
  | [] => none

/-- What a word refers to is the word, in the same slot, and a label is not missing. -/
theorem Slot.of_mem_goals {slot slot' : Slot} {w : UInt16} {n : Nat}
    (h : (slot, n) ∈ slot'.goals w) :
    slot = slot' ∧ w.toNat = n ∧ (slot = label → w ≠ noLabel) := by
  cases slot' with
  | label =>
    obtain ⟨l, hl, heq⟩ := List.mem_map.1 h
    cases heq
    unfold labelOf at hl
    split at hl
    · cases hl
    · rename_i hne
      obtain rfl := List.mem_singleton.1 hl
      exact ⟨rfl, rfl, fun _ => hne⟩
  | constant | valueTable | arityTable =>
    cases List.mem_singleton.1 h
    exact ⟨rfl, rfl, fun heq => by cases heq⟩
  | _ => cases h

namespace Family

/-- The families of the commands that may fail. -/
def isFallible : Family → Bool
  | isInteger | isFloat | isNumber | isAtom | isPid | isReference | isPort | isNil | isBinary
  | isList | isNonemptyList | isTuple | isFunction | isBoolean | isBitstr | testArity
  | isFunctionOfArity | isEqExact | isNeExact | isEq | isNe | isLt | isGe | bif1 | bif2
  | bsStartMatch | bsGetInteger | bsGetFloat | bsGetBinary | bsSkipBits | bsTestTail | bsTestUnit
  | bsMatchString | bsGetUtf8 | bsGetUtf16 | bsGetUtf32 | bsSkipUtf8 | bsSkipUtf16 | bsSkipUtf32
  | bsInit | bsInitBits | bsInitWritable | bsPutInteger | bsPutBinary | bsPutFloat | bsPutString
  | bsPutUtf8 | bsPutUtf16 | bsPutUtf32 | bsUtf8Size | bsUtf16Size | bsAdd | bsAppend
  | bsPrivateAppend => true
  | _ => false

end Family

namespace Machine

variable {w : UInt16} {family : Family}

/-- A command that calls a function. -/
def Command.isCall : Command → Bool
  | .call .. => true
  | _ => false

/-- The fail label of a command that may fail. -/
def Command.failLabel? : Command → Option (Option Nat)
  | typeTest _ label | testArity label _ | testFunctionArity label | compare _ label
  | native _ _ label _ => some label
  | matching (.start label _ _) | matching (.get _ _ _ _ _ label) | matching (.skip _ _ label)
  | matching (.testTail _ _ label) | matching (.testUnit _ _ label) | matching (.literal _ _ label)
  | matching (.getUtf _ _ _ _ label) | matching (.skipUtf _ _ _ label) => some label
  | building (.init _ _ label) | building (.append _ _ label) | building (.put _ _ _ label)
  | building (.putUtf _ _ label) | building (.utf8Size _ label) | building (.utf16Size _ label)
  | building (.add _ _ label) => some label
  | building .initWritable | building (.putLiteral _) => some none
  | _ => none

/-- What a source refers to. -/
def Source.goals : Source → List (Slot × Nat)
  | constant n => [(.constant, n)]
  | _ => []

/-- What a command refers to, in the order of its words. -/
def Command.goals : Command → List (Slot × Nat)
  | fetch first second => first.goals ++ second.toList.flatMap Source.goals
  | floatMove source _ | floatConvert source _ => source.goals ++ []
  | jump target | call (.offset _ target) _ | makeFun target _ _ | loopReceive target _
  | loopReceiveEnd target | wait target | waitTimeout target | protect _ _ target =>
    [(.label, target)]
  | selectValue default table => [(.label, default), (.valueTable, table)]
  | selectArity default table => [(.label, default), (.arityTable, table)]
  | matching (.literal _ constant label) => (.constant, constant) :: label.toList.map (.label, ·)
  | building (.putLiteral constant) => [(.constant, constant)]
  | command => (command.failLabel?.getD none).toList.map (.label, ·)

/-- The words from the next one on, to the end of the code. -/
def Operands.words (o : Operands) : List UInt16 := o.code.toList.drop o.pc

/-- The operands after a word. -/
def Operands.next (o : Operands) : Operands := { o with pc := o.pc + 1 }

/-- The next word, and those behind it. -/
theorem Operands.words_eq_cons {o : Operands} (h : o.code[o.pc]? = some w) :
    o.words = w :: o.next.words := by
  obtain ⟨hlt, hw⟩ := Array.getElem?_eq_some_iff.1 h
  have hlt' : o.pc < o.code.toList.length := hlt
  rw [words, List.drop_eq_getElem_cons hlt', Array.getElem_toList, hw]
  rfl

/-- The words behind the first. -/
theorem Operands.prefix_next {o : Operands} {ws : List UInt16} (h : w :: ws <+: o.words) :
    ws <+: o.next.words := by
  obtain ⟨tail, htail⟩ := h
  refine ⟨tail, ?_⟩
  show ws ++ tail = o.code.toList.drop (o.pc + 1)
  rw [← List.drop_drop]
  show ws ++ tail = o.words.drop 1
  rw [← htail]
  rfl

/-- Words that are cut out of the code from the next one on. -/
theorem Operands.extract_prefix (o : Operands) (last : Nat) :
    (o.code.extract o.pc last).toList <+: o.words := by
  rw [Array.toList_extract, List.extract_eq_take_drop]
  exact List.take_prefix _ _

namespace Decode

variable {o : Operands} {ws : List UInt16}

variable {α β : Type} {R : Variant → UInt16 → β → Prop} {Q : List (Slot × UInt16) → α → Prop}
  {slot : Slot} {slots : List Slot}

/-! ## One word -/

/-- A reader of one word, which stands in a slot and has a variant. Its value has to do with the
variant and the word. -/
def Single (d : Decode β) (slot : Slot) (R : Variant → UInt16 → β → Prop) : Prop :=
  ∀ o b rest, d o = .ok (b, rest) → ∃ w, o.words = w :: rest.words ∧ rest.pc = o.pc + 1 ∧
    rest.variants = (if slot.variants.isEmpty then o.variants else o.variants.tail) ∧
    R (o.variants.headD .x) w b

/-- A word as it is. -/
theorem single_word (hslot : slot.variants.isEmpty = true) :
    Single word slot fun _ w b => b = w := by
  intro o b rest hrun
  unfold word at hrun
  cases hw : o.code[o.pc]? with
  | none =>
    rw [hw] at hrun
    cases hrun
  | some w =>
    rw [hw] at hrun
    cases hrun
    exact ⟨b, Operands.words_eq_cons hw, rfl, (if_pos hslot).symm, rfl⟩

/-- The first of the words is the one that is read. -/
theorem word_eq {w : UInt16} (h : w :: ws <+: o.words) : word o = .ok (w, o.next) := by
  obtain ⟨tail, htail⟩ := h
  have hw : o.code[o.pc]? = some w := by
    rw [← Array.getElem?_toList, ← Nat.add_zero o.pc, ← List.getElem?_drop]
    show o.words[0]? = some w
    rw [← htail]
    rfl
  unfold word
  rw [hw]
  rfl

theorem number_eq {w : UInt16} (h : w :: ws <+: o.words) : number o = .ok (w.toNat, o.next) := by
  show (do let read ← word o; .ok (read.1.toNat, read.2)) = _
  rw [word_eq h]
  rfl

/-- For a word with a choice the next variant is taken as well. -/
theorem choice_eq (f : Variant → Nat → β) {w : UInt16} (h : w :: ws <+: o.words) :
    (do let v ← variant; let n ← number; pure (f v n) : Decode β) o =
      .ok (f (o.variants.headD .x) w.toNat, { o.next with variants := o.variants.tail }) := by
  have hnumber : number { o with variants := o.variants.tail } = _ := number_eq h
  show (do let (n, o) ← number { o with variants := o.variants.tail }; .ok (f _ n, o)) = _
  rw [hnumber]
  rfl

/-- A function of one word. -/
theorem Single.map {γ : Type} {d : Decode β} {R' : Variant → UInt16 → γ → Prop}
    (h : Single d slot R) {f : β → γ} (hf : ∀ v w b, R v w b → R' v w (f b)) :
    Single (f <$> d) slot R' := by
  intro o c rest hrun
  change (do let (b, o) ← d o; .ok (f b, o)) = .ok (c, rest) at hrun
  cases hfirst : d o with
  | error e =>
    rw [hfirst] at hrun
    cases hrun
  | ok first =>
    rw [hfirst] at hrun
    cases hrun
    obtain ⟨w, hwords, hpc, hvariants, hb⟩ := h o first.1 first.2 hfirst
    exact ⟨w, hwords, hpc, hvariants, hf _ w first.1 hb⟩

/-- Less may be said. -/
theorem Single.mono {d : Decode β} {R' : Variant → UInt16 → β → Prop} (h : Single d slot R)
    (hR : ∀ v w b, R v w b → R' v w b) : Single d slot R' := by
  intro o b rest hrun
  obtain ⟨w, hwords, hpc, hvariants, hb⟩ := h o b rest hrun
  exact ⟨w, hwords, hpc, hvariants, hR _ w b hb⟩

theorem single_number (hslot : slot.variants.isEmpty = true) :
    Single number slot fun _ w n => n = w.toNat :=
  (single_word hslot).map fun _ _ _ h => congrArg UInt16.toNat h

theorem single_encoding : Single encoding .number fun _ _ _ => True :=
  (single_word rfl).map fun _ _ _ _ => trivial

theorem single_position : Single position .number fun _ _ _ => True :=
  (single_word rfl).map fun _ _ _ _ => trivial

/-- A label. -/
theorem single_label : Single label .label fun _ w l => l = labelOf w := by
  have hlabel : Single (labelOf <$> word) .label fun _ w l => l = labelOf w :=
    (single_word rfl).map fun _ _ _ h => congrArg labelOf h
  exact hlabel

/-- A label that is not missing. -/
theorem single_target : Single target .label fun _ w t => labelOf w = some t := by
  intro o t rest hrun
  unfold target at hrun
  cases hlabel : label o with
  | error e =>
    rw [hlabel] at hrun
    cases hrun
  | ok first =>
    rw [hlabel] at hrun
    obtain ⟨w, hwords, hpc, hvariants, hl⟩ := single_label o first.1 first.2 hlabel
    obtain ⟨_ | l, next⟩ := first
    · cases hrun
    · cases hrun
      exact ⟨w, hwords, hpc, hvariants, hl.symm⟩

/-- A word with a choice. -/
theorem single_choice (f : Variant → Nat → β) (hslot : slot.variants.isEmpty = false) :
    Single (do let v ← variant; let n ← number; pure (f v n)) slot
      fun v w b => b = f v w.toNat := by
  intro o b rest hrun
  have hnumber : Single (f (o.variants.headD .x) <$> number) .number
      fun _ w b => b = f (o.variants.headD .x) w.toNat :=
    (single_number rfl).map fun _ _ _ h => congrArg (f (o.variants.headD .x)) h
  obtain ⟨w, hwords, hpc, hvariants, hb⟩ :=
    hnumber { o with variants := o.variants.tail } b rest hrun
  refine ⟨w, hwords, hpc, ?_, hb⟩
  rw [hslot]
  exact hvariants

theorem single_place : Single place .dest fun _ _ _ => True :=
  (single_choice _ rfl).mono fun _ _ _ _ => trivial

theorem single_floatPlace : Single floatPlace .floatDest fun _ _ _ => True :=
  (single_choice _ rfl).mono fun _ _ _ _ => trivial

/-- A source, perhaps one that can be a float register. -/
theorem single_source (hslot : slot = .source ∨ slot = .floatSource) :
    Single source slot fun v w source => source.goals = (slot.denoted v).goals w := by
  have hchoice : slot.variants.isEmpty = false := by rcases hslot with rfl | rfl <;> rfl
  refine (single_choice _ hchoice).mono fun v w source h => ?_
  rw [h]
  rcases hslot with rfl | rfl <;> cases v <;> rfl

/-! ## Words along a layout -/

/-- A reader takes one word for each slot, and its value has to do with these words. -/
def Along (d : Decode α) (slots : List Slot) (Q : List (Slot × UInt16) → α → Prop) : Prop :=
  ∀ o a rest, d o = .ok (a, rest) →
    rest.pc = o.pc + slots.length ∧ Q (laid slots o.variants o.words) a

/-- A value at hand takes no word. -/
theorem along_pure {a : α} (h : Q [] a) : Along (pure a) [] Q := by
  intro o a' rest hrun
  cases hrun
  exact ⟨rfl, h⟩

/-- One word, and then others. -/
theorem Single.next {d : Decode β} {k : β → Decode α} (hd : Single d slot R)
    (hk : ∀ {v w b}, R v w b →
      Along (k b) slots fun operands => Q ((slot.denoted v, w) :: operands)) :
    Along (d >>= k) (slot :: slots) Q := by
  intro o a rest hrun
  change (do let (b, o) ← d o; k b o) = .ok (a, rest) at hrun
  cases hfirst : d o with
  | error e =>
    rw [hfirst] at hrun
    cases hrun
  | ok first =>
    rw [hfirst] at hrun
    obtain ⟨w, hwords, hpc, hvariants, hb⟩ := hd o first.1 first.2 hfirst
    obtain ⟨hrest, hQ⟩ := hk hb first.2 a rest hrun
    rw [hwords, laid, ← hvariants, List.length_cons]
    exact ⟨by omega, hQ⟩

end Decode

section Families

open Command Decode

/-- What is known of a command of a family that was read from operands. -/
structure Told (family : Family) (operands : List (Slot × UInt16)) (command : Command) : Prop where
  /-- It refers to nothing but what the operands refer to. -/
  goals_subset : command.goals ⊆ goals operands
  /-- It calls if the family is one of calls. -/
  isCall_eq : command.isCall = mayYield family
  /-- If the family may fail, then it has the label among the operands. -/
  failLabel_eq : family.isFallible = true → command.failLabel? = some (firstLabel operands)

section Told

variable {family : Family} {operands : List (Slot × UInt16)} {command : Command}

/-- A command that may fail. -/
theorem Told.failing (hgoals : command.goals = goals operands)
    (hcall : command.isCall = mayYield family)
    (hlabel : command.failLabel? = some (firstLabel operands)) : Told family operands command :=
  ⟨fun _ hg => hgoals ▸ hg, hcall, fun _ => hlabel⟩

theorem Told.steady (hfamily : family.isFallible = false) (hgoals : command.goals = goals operands)
    (hcall : command.isCall = mayYield family) : Told family operands command :=
  ⟨fun _ hg => hgoals ▸ hg, hcall, fun hf => absurd hf (Bool.eq_false_iff.1 hfamily)⟩

end Told

theorem told_label {l : Option Nat} (h : l = labelOf w) :
    l.toList.map (Slot.label, ·) = (labelOf w).toList.map (Slot.label, ·) ++ [] := by
  rw [h, List.append_nil]

/-- A label that is not missing, and what follows it. -/
theorem told_target {t : Nat} {rest rest' : List (Slot × Nat)} (h : labelOf w = some t)
    (hrest : rest = rest') :
    (Slot.label, t) :: rest = (labelOf w).toList.map (Slot.label, ·) ++ rest' := by
  rw [h, hrest]
  rfl

theorem told_constant {n : Nat} {rest rest' : List (Slot × Nat)} (h : n = w.toNat)
    (hrest : rest = rest') : (Slot.constant, n) :: rest = (Slot.constant, w.toNat) :: rest' := by
  rw [h, hrest]

/-- Two sources. -/
theorem told_sources {first second : Source} {g g' : List (Slot × Nat)} (hfirst : first.goals = g)
    (hsecond : second.goals = g') :
    first.goals ++ (second.goals ++ []) = g ++ (g' ++ []) := by
  rw [hfirst, hsecond]

theorem single_releasing : Single releasing .number fun _ _ _ => True :=
  Single.map (f := fun n => CallMode.tail (some n)) (single_number rfl) fun _ _ _ _ => trivial

/-- A command of every family reads one word for each slot of the layout, and what it is and refers
to is what the family and these words say. -/
theorem along_decode (family : Family) : Along (decode family) family.layout (Told family) := by
  -- Families with the same operands are taken together.
  cases family with
  | ret | send | removeMessage | timeout | ifEnd | badmatch | caseEnd | tryCaseEnd | raise =>
    exact along_pure (.steady rfl rfl rfl)
  | bsInitWritable => exact along_pure (.failing rfl rfl rfl)
  | funcInfo =>
    exact (single_word rfl).next fun _ => (single_word rfl).next fun _ =>
      (single_word rfl).next fun _ => along_pure ⟨List.nil_subset _, rfl, fun hf => by cases hf⟩
  | jump | loopRecEnd | wait | waitTimeout =>
    exact single_target.next fun h => along_pure (.steady rfl (told_target h rfl) rfl)
  | allocate | allocateZero | deallocate | trim | put | apply | callFun
  | ensureCapacity | catchEnd | tryEnd | tryCase =>
    exact (single_number rfl).next fun _ => along_pure (.steady rfl rfl rfl)
  | bsPutString =>
    exact (single_number rfl).next fun h => along_pure (.failing (told_constant h rfl) rfl rfl)
  | init | move | putList | bsContextToBinary =>
    exact single_place.next fun _ => along_pure (.steady rfl rfl rfl)
  | getList =>
    exact single_place.next fun _ => single_place.next fun _ => along_pure (.steady rfl rfl rfl)
  | getTupleElement | putTuple | bif0 =>
    exact (single_number rfl).next fun _ => single_place.next fun _ =>
      along_pure (.steady rfl rfl rfl)
  | setTupleElement =>
    exact single_place.next fun _ => (single_number rfl).next fun _ =>
      along_pure (.steady rfl rfl rfl)
  | isInteger | isFloat | isNumber | isAtom | isPid | isReference | isPort | isNil | isBinary
  | isList | isNonemptyList | isTuple | isFunction | isBoolean | isBitstr | isFunctionOfArity
  | isEqExact | isNeExact | isEq | isNe | isLt | isGe =>
    exact single_label.next fun h => along_pure (.failing (told_label h) rfl (congrArg some h))
  | testArity =>
    exact single_label.next fun h => (single_number rfl).next fun _ =>
      along_pure (.failing (told_label h) rfl (congrArg some h))
  | selectVal | selectTupleArity =>
    exact single_target.next fun h => (single_number rfl).next fun htable =>
      along_pure (.steady rfl (told_target h (by rw [htable]; rfl)) rfl)
  | call | callOnly | catchBegin | tryBegin =>
    exact (single_number rfl).next fun _ => single_target.next fun h =>
      along_pure (.steady rfl (told_target h rfl) rfl)
  | callLast =>
    exact (single_number rfl).next fun _ => single_target.next fun h =>
      single_releasing.next fun _ => along_pure (.steady rfl (told_target h rfl) rfl)
  | callExt | callExtOnly | fnegate =>
    exact (single_number rfl).next fun _ => (single_number rfl).next fun _ =>
      along_pure (.steady rfl rfl rfl)
  | callExtLast =>
    exact (single_number rfl).next fun _ => (single_number rfl).next fun _ =>
      single_releasing.next fun _ => along_pure (.steady rfl rfl rfl)
  | applyLast =>
    exact (single_number rfl).next fun _ => single_releasing.next fun _ =>
      along_pure (.steady rfl rfl rfl)
  | makeFun =>
    exact single_target.next fun h => (single_number rfl).next fun _ =>
      (single_number rfl).next fun _ => along_pure (.steady rfl (told_target h rfl) rfl)
  | bif1 | bif2 =>
    exact (single_number rfl).next fun _ => single_label.next fun h => single_place.next fun _ =>
      along_pure (.failing (told_label h) rfl (congrArg some h))
  | loopRec =>
    exact single_target.next fun h => single_place.next fun _ =>
      along_pure (.steady rfl (told_target h rfl) rfl)
  | bsStartMatch =>
    exact single_label.next fun h => (single_number rfl).next fun _ =>
      single_place.next fun _ => along_pure (.failing (told_label h) rfl (congrArg some h))
  | bsGetInteger | bsGetFloat | bsGetBinary =>
    exact single_place.next fun _ => (single_number rfl).next fun _ => single_encoding.next fun _ =>
      single_place.next fun _ => single_label.next fun h =>
        along_pure (.failing (told_label h) rfl (congrArg some h))
  | bsSkipBits =>
    exact single_place.next fun _ => (single_number rfl).next fun _ =>
      (single_word rfl).next fun _ => single_label.next fun h =>
        along_pure (.failing (told_label h) rfl (congrArg some h))
  | bsTestTail | bsTestUnit =>
    exact single_place.next fun _ => (single_number rfl).next fun _ => single_label.next fun h =>
      along_pure (.failing (told_label h) rfl (congrArg some h))
  | bsMatchString =>
    exact single_place.next fun _ => (single_number rfl).next fun hconstant =>
      single_label.next fun h => along_pure
        (.failing (told_constant hconstant (told_label h)) rfl (congrArg some h))
  | bsGetUtf8 | bsGetUtf16 | bsGetUtf32 =>
    exact single_place.next fun _ => single_encoding.next fun _ => single_place.next fun _ =>
      single_label.next fun h => along_pure (.failing (told_label h) rfl (congrArg some h))
  | bsSkipUtf8 | bsSkipUtf16 | bsSkipUtf32 =>
    exact single_place.next fun _ => single_encoding.next fun _ => single_label.next fun h =>
      along_pure (.failing (told_label h) rfl (congrArg some h))
  | bsSave | bsRestore =>
    exact single_place.next fun _ => single_position.next fun _ => along_pure (.steady rfl rfl rfl)
  | bsInit | bsInitBits =>
    exact (single_word rfl).next fun _ => single_place.next fun _ => single_label.next fun h =>
      along_pure (.failing (told_label h) rfl (congrArg some h))
  | bsPutInteger | bsPutBinary | bsPutFloat =>
    exact (single_number rfl).next fun _ => single_encoding.next fun _ => single_label.next fun h =>
      along_pure (.failing (told_label h) rfl (congrArg some h))
  | bsPutUtf8 | bsPutUtf16 | bsPutUtf32 =>
    exact single_encoding.next fun _ => single_label.next fun h =>
      along_pure (.failing (told_label h) rfl (congrArg some h))
  | bsUtf8Size | bsUtf16Size =>
    exact single_place.next fun _ => single_label.next fun h =>
      along_pure (.failing (told_label h) rfl (congrArg some h))
  | bsAdd =>
    exact (single_number rfl).next fun _ => single_place.next fun _ => single_label.next fun h =>
      along_pure (.failing (told_label h) rfl (congrArg some h))
  | bsAppend | bsPrivateAppend =>
    exact (single_number rfl).next fun _ => (single_word rfl).next fun _ =>
      single_place.next fun _ => single_label.next fun h =>
        along_pure (.failing (told_label h) rfl (congrArg some h))
  | fmove | fconv =>
    exact (single_source (.inr rfl)).next fun h => single_floatPlace.next fun _ =>
      along_pure (.steady rfl (congrArg (· ++ []) h) rfl)
  | fadd | fsub | fmul | fdiv =>
    exact (single_number rfl).next fun _ => (single_number rfl).next fun _ =>
      (single_number rfl).next fun _ => along_pure (.steady rfl rfl rfl)
  | fetchOne =>
    exact (single_source (.inl rfl)).next fun h =>
      along_pure (.steady rfl (congrArg (· ++ []) h) rfl)
  | fetchTwo =>
    exact (single_source (.inl rfl)).next fun hfirst =>
      (single_source (.inl rfl)).next fun hsecond =>
      along_pure (.steady rfl (told_sources hfirst hsecond) rfl)

end Families

end Machine

end ErlangMachine
