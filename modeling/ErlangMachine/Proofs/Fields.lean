import ErlangMachine.Proofs.Encoding
import ErlangMachine.Proofs.TermOrder

/-!
# What fields become

Every step of the assembler is described by two things: how it moves the assembler, and what its
result stands for. `Assembler.Moved a ws a'` is the first: the words `ws` are added to the code,
labels among them are noted to be filled in, the tables keep their entries and may get more, and all
else stays. Steps that only look operands up move nothing (`ws = []`), and they do so when they fail
as well, which is what `Pools` says. The second is said by the relations of `Encoding` under
`Assembler.reading`, where a label is still a name. Places in tables are told apart only as long as
words can name them all (`Roomy`), so what they hold is said under that condition.

The main results are `pools_field` and `pools_fields`. A field is laid out as what it stands for or
is `Unfit`: nothing can stand for it, whatever tables hold, or the table that it refers to is full.
-/

namespace ErlangMachine

namespace Assembler

variable {α : Type} {a a' : Assembler} {bad : Error → Assembler → Prop} {k : Nat} {n : UInt16}
  {use : OperandUse} {l : Layout} {o : Operand} {ws : List Word}

/-! ## Running a step -/

/-- A step run on an assembler ends well and then `ok` holds, or fails and then `bad` holds. -/
def Runs {α : Type} (step : Step α) (a : Assembler) (ok : α → Assembler → Prop)
    (bad : Error → Assembler → Prop) : Prop :=
  match step a with
  | .ok x a' => ok x a'
  | .error e a' => bad e a'

/-- A step and then another. -/
theorem Runs.bind {β : Type} {step : Step α} {next : α → Step β} {ok : α → Assembler → Prop}
    {ok' : β → Assembler → Prop} {bad' : Error → Assembler → Prop} (h : Runs step a ok bad)
    (hbad : ∀ e a', bad e a' → bad' e a') (hnext : ∀ x a', ok x a' → Runs (next x) a' ok' bad') :
    Runs (step >>= next) a ok' bad' := by
  unfold Runs at h ⊢
  show match EStateM.bind step next a with | .ok x a' => ok' x a' | .error e a' => bad' e a'
  unfold EStateM.bind
  cases hrun : step a with
  | ok x a' => rw [hrun] at h; exact hnext x a' h
  | error e a' => rw [hrun] at h; exact hbad e a' h

theorem runs_get {next : Assembler → Step α} {ok : α → Assembler → Prop}
    (h : Runs (next a) a ok bad) :
    Runs (get >>= next) a ok bad := h

theorem runs_modify {f : Assembler → Assembler} {next : Unit → Step α} {ok : α → Assembler → Prop}
    (h : Runs (next ()) (f a) ok bad) :
    Runs (modify f >>= fun x => next x) a ok bad := h

/-- Weaker ends. -/
theorem Runs.mono {step : Step α} {ok ok' : α → Assembler → Prop}
    {bad' : Error → Assembler → Prop} (h : Runs step a ok bad) (hok : ∀ x a', ok x a' → ok' x a')
    (hbad : ∀ e a', bad e a' → bad' e a') : Runs step a ok' bad' := by
  unfold Runs at h ⊢
  cases hrun : step a with
  | ok x a' => rw [hrun] at h; exact hok x a' h
  | error e a' => rw [hrun] at h; exact hbad e a' h

/-- A step that ended well. -/
theorem Runs.of_ok {step : Step α} {x : α} {ok : α → Assembler → Prop} (h : Runs step a ok bad)
    (hrun : step a = .ok x a') : ok x a' := by
  unfold Runs at h
  rw [hrun] at h
  exact h

/-- What is known of a step if it ends well. -/
theorem runs_of_forall_ok {step : Step α} {ok : α → Assembler → Prop}
    (h : ∀ x a', step a = .ok x a' → ok x a') : Runs step a ok fun _ _ => True := by
  unfold Runs
  cases hrun : step a with
  | ok x a' => exact h x a' hrun
  | error e a' => trivial

/-- A step and then another that ended well both ended well. -/
theorem bind_eq_ok {β : Type} {step : Step α} {next : α → Step β} {y : β}
    (h : (step >>= next) a = .ok y a') : ∃ x b, step a = .ok x b ∧ next x b = .ok y a' := by
  change EStateM.bind step next a = .ok y a' at h
  unfold EStateM.bind at h
  cases hrun : step a with
  | ok x b => rw [hrun] at h; exact ⟨x, b, rfl, h⟩
  | error e b => rw [hrun] at h; cases h

/-- A step that failed. -/
theorem Runs.of_error {step : Step α} {e : Error} {ok : α → Assembler → Prop}
    (h : Runs step a ok bad) (hrun : step a = .error e a') : bad e a' := by
  unfold Runs at h
  rw [hrun] at h
  exact h

/-- Steps one after another, each of which keeps a property. -/
theorem Runs.forM {step : α → Step Unit} {keeps : Assembler → Prop}
    (h : ∀ x a, keeps a → Runs (step x) a (fun _ => keeps) bad) (xs : List α) (ha : keeps a) :
    Runs (xs.forM step) a (fun _ => keeps) bad := by
  induction xs generalizing a with
  | nil => exact ha
  | cons x xs ih => exact (h x a ha).bind (fun _ _ => id) fun _ _ hb => ih hb

/-! ## Moving the assembler -/

/-- The tables have room for one more entry at the place that the next index names. -/
structure Roomy (a : Assembler) : Prop where
  /-- Constants. -/
  constants : a.constants.size ≤ 65535
  /-- Imports. -/
  imports : a.imports.size ≤ 65535
  /-- Jump tables of values. -/
  valueTables : a.valueTables.size ≤ 65535
  /-- Jump tables of tuple sizes. -/
  arityTables : a.arityTables.size ≤ 65535

/-- A table keeps its entries at their places. -/
def Keeps {α : Type} (table table' : Array α) : Prop :=
  ∀ (k : Nat) (x : α), table[k]? = some x → table'[k]? = some x

/-- A table with one more entry. -/
theorem keeps_push (table : Array α) (x : α) : Keeps table (table.push x) := by
  intro k y h
  have hk : k < table.size := (Array.getElem?_eq_some_iff.1 h).1
  rw [Array.getElem?_push_lt hk]
  rw [← h, Array.getElem?_eq_getElem hk]

/-- The word that is in the code for a word of the assembler, given what labels become. -/
def Word.value (place : UInt32 → UInt16) : Word → UInt16
  | raw w => w
  | label n => place n

/-- The labels among words from an offset on, with the places that wait for them. -/
def pending : Nat → List Word → List (Nat × UInt32)
  | _, [] => []
  | offset, .raw _ :: ws => pending (offset + 1) ws
  | offset, .label n :: ws => (offset, n) :: pending (offset + 1) ws

/-- The labels of two parts wait one after the other. -/
theorem pending_append (offset : Nat) (ws ws' : List Word) :
    pending offset (ws ++ ws') = pending offset ws ++ pending (offset + ws.length) ws' := by
  induction ws generalizing offset with
  | nil => rfl
  | cons w ws ih =>
    have hlength : offset + (w :: ws).length = offset + 1 + ws.length := by
      rw [List.length_cons]; omega
    rw [hlength]
    cases w with
    | raw w => exact ih (offset + 1)
    | label n => exact congrArg ((offset, n) :: ·) (ih (offset + 1))

/-- The words `ws` are added to the code. The tables may grow, and all else but the counters of
registers and positions stays. -/
structure Moved (a : Assembler) (ws : List Word) (a' : Assembler) : Prop where
  /-- The code, with zero for labels. -/
  code : a'.code.toList = a.code.toList ++ ws.map (Word.value fun _ => 0)
  /-- The places that wait for labels. -/
  fixups : a'.fixups.toList = a.fixups.toList ++ pending a.code.size ws
  /-- The constants stay at their places. -/
  constants : Keeps a.constants a'.constants
  /-- The imports stay at their places. -/
  imports : Keeps a.imports a'.imports
  /-- The jump tables of values stay at their places. -/
  valueTables : Keeps a.valueTables a'.valueTables
  /-- The jump tables of tuple sizes stay at their places. -/
  arityTables : Keeps a.arityTables a'.arityTables
  /-- There is still room. -/
  roomy : a.Roomy → a'.Roomy
  /-- No label is bound. -/
  labels : a'.labels = a.labels
  /-- No function is done. -/
  functions : a'.functions = a.functions
  /-- No function is exported. -/
  exports : a'.exports = a.exports
  /-- The function is the same. -/
  entryLabel : a'.entryLabel = a.entryLabel
  /-- Its capacity is written at the same place. -/
  capacityAt : a'.capacityAt = a.capacityAt

/-- Doing nothing. -/
theorem Moved.refl (a : Assembler) : Moved a [] a where
  code := by simp
  fixups := by simp [pending]
  constants := fun _ _ h => h
  imports := fun _ _ h => h
  valueTables := fun _ _ h => h
  arityTables := fun _ _ h => h
  roomy := id
  labels := rfl
  functions := rfl
  exports := rfl
  entryLabel := rfl
  capacityAt := rfl

theorem Moved.size (h : Moved a ws a') : a'.code.size = a.code.size + ws.length := by
  rw [← Array.length_toList, h.code, List.length_append, List.length_map, Array.length_toList]

/-- One move after another. -/
theorem Moved.trans {a'' : Assembler} {ws' : List Word} (h : Moved a ws a')
    (h' : Moved a' ws' a'') : Moved a (ws ++ ws') a'' where
  code := by rw [h'.code, h.code, List.map_append, List.append_assoc]
  fixups := by rw [h'.fixups, h.fixups, h.size, pending_append, List.append_assoc]
  constants := fun k x hx => h'.constants k x (h.constants k x hx)
  imports := fun k x hx => h'.imports k x (h.imports k x hx)
  valueTables := fun k x hx => h'.valueTables k x (h.valueTables k x hx)
  arityTables := fun k x hx => h'.arityTables k x (h.arityTables k x hx)
  roomy := fun hroomy => h'.roomy (h.roomy hroomy)
  labels := h'.labels.trans h.labels
  functions := h'.functions.trans h.functions
  exports := h'.exports.trans h.exports
  entryLabel := h'.entryLabel.trans h.entryLabel
  capacityAt := h'.capacityAt.trans h.capacityAt

/-! ## Words of the assembler -/

/-- What the assembler's words denote: a label is named, or there is none. -/
def reading (a : Assembler) : Reading Word where
  number w n := w = .raw n
  label w n := w = if n = 0 then .raw noLabel else .label n
  constant n t := ∃ c, a.constants[n.toNat]? = some c ∧ c.exactEq t
  imported n i := a.imports[n.toNat]? = some i
  values n table := a.valueTables[n.toNat]? = some table
  arities n table := a.arityTables[n.toNat]? = some table

/-- What was pooled stays. -/
theorem Moved.hom (h : Moved a ws a') : a.reading.Hom id a'.reading where
  number := id
  constant := fun ⟨c, hc, heq⟩ => ⟨c, h.constants _ _ hc, heq⟩
  imported := fun hi => h.imports _ _ hi
  values := fun ht => h.valueTables _ _ ht
  arities := fun ht => h.arityTables _ _ ht

/-! ## Looking operands up -/

/-- A step adds no code, also when it fails. Its result has some property, or else its error has. -/
def Pools {α : Type} (step : Step α) (a : Assembler) (post : α → Assembler → Prop)
    (why : Error → Assembler → Prop) : Prop :=
  Runs step a (fun x a' => Moved a [] a' ∧ post x a') fun e a' => Moved a [] a' ∧ why e a'

section Pools

variable {α β : Type} {a : Assembler} {post : α → Assembler → Prop}
  {why why' : Error → Assembler → Prop}

/-- One look-up and then another. -/
theorem Pools.bind {step : Step α} {next : α → Step β} {post' : β → Assembler → Prop}
    (h : Pools step a post why)
    (hnext : ∀ x a', Moved a [] a' → post x a' → Pools (next x) a' post' why) :
    Pools (step >>= next) a post' why := by
  refine Runs.bind h (fun _ _ => id) ?_
  rintro x a' ⟨hmoved, hpost⟩
  refine (hnext x a' hmoved hpost).mono ?_ ?_
  · rintro y a'' ⟨hmoved', hpost'⟩
    exact ⟨hmoved.trans hmoved', hpost'⟩
  · rintro e a'' ⟨hmoved', hwhy⟩
    exact ⟨hmoved.trans hmoved', hwhy⟩

/-- Weaker properties. -/
theorem Pools.mono {step : Step α} {post' : α → Assembler → Prop} (h : Pools step a post why)
    (hpost : ∀ x a', post x a' → post' x a') (hwhy : ∀ e a', why e a' → why' e a') :
    Pools step a post' why' :=
  Runs.mono h (fun x a' ⟨hmoved, hx⟩ => ⟨hmoved, hpost x a' hx⟩)
    fun e a' ⟨hmoved, he⟩ => ⟨hmoved, hwhy e a' he⟩

theorem pools_pure {x : α} (h : post x a) : Pools (pure x) a post why :=
  ⟨Moved.refl a, h⟩

theorem pools_throw {e : Error} (h : why e a) : Pools (throw e) a post why :=
  ⟨Moved.refl a, h⟩

/-- An operand of the wrong kind. -/
theorem pools_unexpected {i : Instruction} {expected : Expectation}
    (h : why (.unexpectedOperand i.operation k expected (operand i k)) a) :
    Pools (unexpected i k expected) a post why :=
  ⟨Moved.refl a, h⟩

theorem pools_get {next : Assembler → Step α} (h : Pools (next a) a post why) :
    Pools (get >>= next) a post why :=
  h

end Pools

/-- The number of entries of a table. -/
def entryCount (a : Assembler) : Table → Nat
  | .constants => a.constants.size
  | .imports => a.imports.size
  | .values => a.valueTables.size
  | .arities => a.arityTables.size

/-- The error of a table that has no room for one more entry. -/
inductive Full (table : Table) : Error → Assembler → Prop
  | intro {a : Assembler} : 65535 ≤ a.entryCount table → Full table (.tableOverflow table) a

/-- A place in a table as a word. -/
theorem toNat_ofNat_of_lt {size : Nat} (h : k < size) (hsize : size ≤ 65535) :
    (UInt16.ofNat k).toNat = k := by
  exact Nat.mod_eq_of_lt (by omega)

section Tables

variable {α : Type} {a : Assembler} {post : α → Assembler → Prop}
  {why : Error → Assembler → Prop}

/-- The place of the next entry, while there is room for it. -/
theorem pools_nextIndex {table : Table} {next : UInt16 → Step α}
    (hfull : ∀ e a', Full table e a' → why e a')
    (h : ∀ n : UInt16, a.entryCount table < 65535 → n.toNat = a.entryCount table →
      Pools (next n) a post why) :
    Pools (nextIndex table (a.entryCount table) >>= next) a post why := by
  unfold nextIndex
  split
  case isTrue hsize => exact h _ hsize (toNat_ofNat_of_lt hsize (Nat.le_refl _))
  case isFalse hsize => exact pools_throw (hfull _ _ (.intro (Nat.le_of_not_lt hsize)))

theorem getElem?_push_size {table : Array α} {x : α} (h : n.toNat = table.size) :
    (table.push x)[n.toNat]? = some x := by
  rw [h, Array.getElem?_push_size]

/-- A constant is pooled at a place that holds a constant exactly equal to it. -/
theorem pools_constant (hfull : ∀ e a', Full .constants e a' → why e a') (t : Term) :
    Pools (constant t) a
      (fun n a' => (a.Roomy → a'.reading.constant n t) ∧ a'.tuplePosition = a.tuplePosition)
      why := by
  refine pools_get ?_
  cases hfind : a.constants.findIdx? (·.exactEq t) with
  | some k =>
    obtain ⟨hk, hequal, -⟩ := Array.findIdx?_eq_some_iff_getElem.1 hfind
    refine pools_pure ⟨fun hroomy => ⟨a.constants[k], ?_, hequal⟩, rfl⟩
    rw [toNat_ofNat_of_lt hk hroomy.constants]
    exact Array.getElem?_eq_getElem hk
  | none =>
    refine pools_nextIndex hfull fun n hsize hn => ?_
    refine ⟨{ Moved.refl a with constants := keeps_push _ _, roomy := ?_ }, ?_, rfl⟩
    · exact fun h => { h with constants := (Array.size_push _).trans_le hsize }
    · exact fun _ => ⟨t, getElem?_push_size hn, Term.exactEq_self t⟩

/-- An import is pooled at its place. -/
theorem pools_importIndex (hfull : ∀ e a', Full .imports e a' → why e a') (wanted : Import) :
    Pools (importIndex wanted) a
      (fun n a' => (a.Roomy → a'.reading.imported n wanted) ∧ a'.tuplePosition = a.tuplePosition)
      why := by
  refine pools_get ?_
  cases hfind : a.imports.findIdx? (· == wanted) with
  | some k =>
    obtain ⟨hk, hequal, -⟩ := Array.findIdx?_eq_some_iff_getElem.1 hfind
    refine pools_pure ⟨fun hroomy => ?_, rfl⟩
    show a.imports[(UInt16.ofNat k).toNat]? = some wanted
    rw [toNat_ofNat_of_lt hk hroomy.imports, Array.getElem?_eq_getElem hk, beq_iff_eq.1 hequal]
  | none =>
    refine pools_nextIndex hfull fun n hsize hn => ?_
    refine ⟨{ Moved.refl a with imports := keeps_push _ _, roomy := ?_ }, ?_, rfl⟩
    · exact fun h => { h with imports := (Array.size_push _).trans_le hsize }
    · exact fun _ => getElem?_push_size hn

/-- Counting registers. -/
theorem pools_noteOperand (o : Operand) :
    Pools (noteOperand o) a
      (fun _ a' => a'.reading = a.reading ∧ a'.tuplePosition = a.tuplePosition) why := by
  cases o
  case x n => exact ⟨{ Moved.refl a with roomy := fun h => ⟨h.1, h.2, h.3, h.4⟩ }, rfl, rfl⟩
  all_goals exact pools_pure ⟨rfl, rfl⟩

end Tables

/-! ## Laying out fields -/

section Fields

variable {known : Prop} {i : Instruction} {a : Assembler} {p : Nat} {v : Variant}
  {why : Error → Assembler → Prop}

/-- What laying out some fields adds, from position `p` of the tuple under construction on: their
sources, variants and words. What places of tables hold is said if it is `known`. -/
def Lays (known : Prop) (i : Instruction) (p : Nat) (uses : List OperandUse) (l l' : Layout)
    (a' : Assembler) : Prop :=
  ∃ ss vs ws, l' = ⟨l.sources ++ ss, l.variants ++ vs, l.words ++ ws⟩ ∧
    FieldsCoded (a'.reading.given known) i p uses ss vs ws ∧
    a'.tuplePosition = uses.foldl OperandUse.advance p

/-- Why a field is refused. -/
inductive Unfit (i : Instruction) (use : OperandUse) : Error → Assembler → Prop
  /-- Nothing can stand for it, whatever tables hold, and the error names an operand of it. -/
  | operand {k : Nat} {expected : Expectation} {a : Assembler} :
    k ∈ use.reads → ¬ use.Codable i →
      Unfit i use (.unexpectedOperand i.operation k expected (operand i k)) a
  /-- As before, because the operand is a number that does not fit a word. -/
  | range {k : Nat} {v : Int64} {a : Assembler} :
    k ∈ use.reads → Assembler.operand i k = .int v → ¬ use.Codable i →
      Unfit i use (.outOfRange i.operation k v.toInt) a
  /-- The table that it refers to has no room. -/
  | full {table : Table} {e : Error} {a : Assembler} :
    use.table? = some table → Full table e a → Unfit i use e a

theorem lays_number (hn : NumberCoded (a'.reading.given known) i p use n)
    (hp : a'.tuplePosition = use.advance p) : Lays known i p [use] l (l.addRaw n) a' :=
  ⟨[], [], [.raw n], by simp [Layout.addRaw, Layout.addWord], .number rfl hn .nil, hp⟩

/-- A field that becomes a label. -/
theorem lays_label {n : UInt32} (ho : operand i k = .label n) :
    Lays known i a'.tuplePosition [.label k] l
      (if n = 0 then l.addRaw noLabel else l.addWord (.label n)) a' := by
  have hword : (if n = 0 then l.addRaw noLabel else l.addWord (.label n)) =
      l.addWord (if n = 0 then .raw noLabel else .label n) := by
    split <;> rfl
  rw [hword]
  exact ⟨[], [], [if n = 0 then .raw noLabel else .label n], by simp [Layout.addWord],
    .label ho rfl .nil, rfl⟩

theorem lays_unused (huse : UnusedCoded i use) : Lays known i a'.tuplePosition [use] l l a' := by
  refine ⟨[], [], [], by simp, .unused huse .nil, ?_⟩
  exact (OperandUse.advance_eq (by rintro rfl; exact huse)).symm

/-- A field that becomes a word that may stand for different things. -/
theorem pools_addVariant {slot : Slot} (huse : use.choice? = some (k, slot))
    (hv : v ∈ slot.variants) (ho : operand i k = o)
    (hcoded : OperandCoded (a.reading.given known) o v n) (hp : a.tuplePosition = p) :
    Pools (do noteOperand o; pure (l.addVariant v n)) a (Lays known i p [use] l) why := by
  refine (pools_noteOperand o).bind ?_
  rintro - a' - ⟨hreading, hposition⟩
  refine pools_pure ⟨[], [v], [.raw n], ?_, .choice huse hv rfl ?_ .nil, ?_⟩
  · simp [Layout.addVariant, Layout.addRaw, Layout.addWord]
  · rw [ho, hreading]
    exact hcoded
  · rw [hposition, hp]
    exact (OperandUse.advance_eq (by rintro rfl; cases huse)).symm

/-- A source, if there are not two already. -/
theorem pools_addSource (htwo : l.sources.length < 2) (hv : v ∈ Slot.source.variants)
    (ho : operand i k = o) (hcoded : OperandCoded (a.reading.given known) o v n)
    (hp : a.tuplePosition = p) :
    Pools (do
      if l.sources.length = 2 then throw (.tooManySources i.operation)
      noteOperand o
      pure (l.addSource (v, n))) a (Lays known i p [.source k] l) why := by
  rw [if_neg (Nat.ne_of_lt htwo)]
  refine (pools_noteOperand o).bind ?_
  rintro - a' - ⟨hreading, hposition⟩
  refine pools_pure ⟨[(v, n)], [], [], ?_, .source hv ?_ .nil, hposition.trans hp⟩
  · simp [Layout.addSource]
  · rw [ho, hreading]
    exact hcoded

/-- The variant that stands for an operand, if one does. -/
def variant? : Operand → Option Variant
  | .x _ => some .x
  | .y _ => some .y
  | .fr _ => some .f
  | .int _ | .atom _ | .nil | .literal _ => some .c
  | .label _ | .external _ | .list _ => none

/-- Only this variant stands for an operand. -/
theorem variant?_of_coded {r : Reading UInt16} (h : OperandCoded r o v n) :
    variant? o = some v := by
  cases v with
  | x => rw [show o = .x n from h]; rfl
  | y => rw [show o = .y n from h]; rfl
  | f => rw [show o = .fr n from h]; rfl
  | c =>
    obtain ⟨t, ht, -⟩ := h
    cases o <;> first | rfl | cases ht

/-- An operand that is none of the things that a source or a word may stand for. -/
theorem unfit_variant {slot : Slot} {expected : Expectation} (hk : k ∈ use.reads)
    (hcodable : use.Codable i → ∃ v ∈ slot.variants, ∃ (r : Reading UInt16) (n : UInt16),
      OperandCoded r (operand i k) v n) (ho : operand i k = o)
    (h : ∀ v ∈ slot.variants, variant? o ≠ some v) :
    Unfit i use (.unexpectedOperand i.operation k expected (operand i k)) a := by
  refine .operand hk fun huse => ?_
  obtain ⟨v, hv, r, n, hcoded⟩ := hcodable huse
  rw [ho] at hcoded
  exact h v hv (variant?_of_coded hcoded)

/-- An operand that goes to the pool. -/
theorem pools_pooled {t : Term} {next : UInt16 → Step α} {post : α → Assembler → Prop}
    (htable : use.table? = some .constants) (hroomy : known → a.Roomy)
    (ht : o.constant? = some t) (h : ∀ {n a'}, OperandCoded (a'.reading.given known) o .c n →
      a'.tuplePosition = a.tuplePosition → Pools (next n) a' post (Unfit i use)) :
    Pools (constant t >>= next) a post (Unfit i use) :=
  (pools_constant (fun _ _ => .full htable) t).bind fun _ _ _ ⟨hconstant, hposition⟩ =>
    h ⟨t, ht, fun hk => hconstant (hroomy hk)⟩ hposition

/-- A source. -/
theorem pools_field_source (hroomy : known → a.Roomy) (htwo : l.sources.length < 2) (k : Nat) :
    Pools (field i l (.source k)) a (Lays known i a.tuplePosition [.source k] l)
      (Unfit i (.source k)) := by
  rw [field]
  cases ho : operand i k with
  | x | y => exact pools_addSource htwo (by decide) ho rfl rfl
  | int | atom | nil | literal =>
    exact pools_pooled rfl hroomy rfl (pools_addSource htwo (by decide) ho)
  | _ =>
    exact pools_unexpected
      (unfit_variant (.head _) (·.of_source) ho (by simp [variant?, Slot.variants]))

/-- A destination. -/
theorem pools_field_dest (l : Layout) (k : Nat) :
    Pools (field i l (.dest k)) a (Lays known i a.tuplePosition [.dest k] l)
      (Unfit i (.dest k)) := by
  rw [field]
  cases ho : operand i k with
  | x | y => exact pools_addVariant rfl (by decide) ho rfl rfl
  | _ =>
    exact pools_unexpected
      (unfit_variant (.head _) (·.of_choice rfl) ho (by simp [variant?, Slot.variants]))

/-- A source that may be a float register. -/
theorem pools_field_floatSource (hroomy : known → a.Roomy) (l : Layout) (k : Nat) :
    Pools (field i l (.floatSource k)) a (Lays known i a.tuplePosition [.floatSource k] l)
      (Unfit i (.floatSource k)) := by
  rw [field]
  cases ho : operand i k with
  | x | y | fr => exact pools_addVariant rfl (by decide) ho rfl rfl
  | int | atom | nil | literal =>
    exact pools_pooled rfl hroomy rfl (pools_addVariant rfl (by decide) ho)
  | _ =>
    exact pools_unexpected
      (unfit_variant (.head _) (·.of_choice rfl) ho (by simp [variant?, Slot.variants]))

/-- A destination that may be a float register. -/
theorem pools_field_floatDest (l : Layout) (k : Nat) :
    Pools (field i l (.floatDest k)) a (Lays known i a.tuplePosition [.floatDest k] l)
      (Unfit i (.floatDest k)) := by
  rw [field]
  cases ho : operand i k with
  | x | y | fr => exact pools_addVariant rfl (by decide) ho rfl rfl
  | _ =>
    exact pools_unexpected
      (unfit_variant (.head _) (·.of_choice rfl) ho (by simp [variant?, Slot.variants]))

/-- A number as a word. -/
theorem toNat_of_wordOf? {v : Int} (h : wordOf? v = some n) : v = n.toNat := by
  unfold wordOf? at h
  split at h
  case isTrue hrange =>
    cases h
    rw [UInt16.toNat_ofNat', Nat.mod_eq_of_lt (by omega)]
    omega
  case isFalse => cases h

/-- A number as a signed word. -/
theorem toInt_of_signedWordOf? {v : Int} (h : signedWordOf? v = some n) : n.toInt16.toInt = v := by
  unfold signedWordOf? at h
  split at h
  case isTrue hrange =>
    cases h
    show (BitVec.ofNat 16 (v % 2 ^ 16).toNat).toInt = v
    rw [BitVec.toInt_ofNat', Int.toNat_of_nonneg (by omega), Int.bmod_def]
    split <;> omega
  case isFalse => cases h

/-- An operand that no number stands for. -/
theorem unfit_plain {expected : Expectation} (hk : k ∈ use.reads) (huse : use.isPlain = true)
    (h : ∀ (r : Reading UInt16) (p : Nat) (n : UInt16), ¬ NumberCoded r i p use n) :
    Unfit i use (.unexpectedOperand i.operation k expected (operand i k)) a := by
  refine .operand hk fun hcodable => ?_
  obtain ⟨r, p, n, hn⟩ := hcodable.of_plain huse
  exact h r p n hn

/-- An integer operand. -/
theorem pools_integer {next : Int → Step α} {post : α → Assembler → Prop}
    (h : ∀ v : Int64, operand i k = .int v → Pools (next v.toInt) a post why)
    (hnot : (∀ v, operand i k ≠ .int v) →
      why (.unexpectedOperand i.operation k .integer (operand i k)) a) :
    Pools (integer i k >>= next) a post why := by
  unfold integer
  cases ho : operand i k
  case int v => exact h v ho
  all_goals exact pools_unexpected (hnot fun v hv => by cases ho.symm.trans hv)

/-- An integer operand as a word. -/
theorem pools_numberWord {next : UInt16 → Step α} {post : α → Assembler → Prop}
    (hk : k ∈ use.reads) (huse : use.isPlain = true)
    (hcoded : ∀ {r : Reading UInt16} {p : Nat} {n : UInt16}, NumberCoded r i p use n →
      ∃ v : Int64, operand i k = .int v ∧ v.toInt = n.toNat)
    (h : ∀ (n : UInt16) (v : Int64), operand i k = .int v → v.toInt = n.toNat →
      Pools (next n) a post (Unfit i use)) :
    Pools (numberWord i k >>= next) a post (Unfit i use) := by
  unfold numberWord
  rw [bind_assoc]
  refine pools_integer (fun v ho => ?_) fun hnot => unfit_plain hk huse fun r p n hn => ?_
  · cases hword : wordOf? v.toInt with
    | some n => exact h n v ho (toNat_of_wordOf? hword)
    | none =>
      refine pools_throw (.range hk ho fun hcodable => ?_)
      obtain ⟨r, p, n, hn⟩ := hcodable.of_plain huse
      obtain ⟨v', ho', hv⟩ := hcoded hn
      cases ho.symm.trans ho'
      have hlt := n.toNat_lt
      unfold wordOf? at hword
      rw [if_pos (by omega)] at hword
      cases hword
  · obtain ⟨v, ho, -⟩ := hcoded hn
    exact hnot v ho

/-- A function of another module. -/
theorem pools_functionWord {arity : Nat} {guard : Bool} (hk : k ∈ use.reads)
    (huse : use.isPlain = true) (htable : use.table? = some .imports)
    (hcoded : ∀ {r : Reading UInt16} {p : Nat} {n : UInt16}, NumberCoded r i p use n →
      ∃ id, operand i k = .external id ∧ id.arity = arity) :
    Pools (functionWord i k arity guard) a (fun n a' =>
      (∃ id, operand i k = .external id ∧ id.arity = arity ∧
        (a.Roomy → a'.reading.imported n ⟨id, guard⟩)) ∧ a'.tuplePosition = a.tuplePosition)
      (Unfit i use) := by
  unfold functionWord
  split
  case h_1 id ho =>
    split
    case isTrue harity =>
      refine (pools_importIndex (fun _ _ => Unfit.full htable) _).mono ?_ fun _ _ h => h
      rintro n a' ⟨himport, hposition⟩
      exact ⟨⟨id, ho, harity, himport⟩, hposition⟩
    case isFalse harity =>
      refine pools_unexpected (unfit_plain hk huse fun r p n hn => ?_)
      obtain ⟨id', ho', harity'⟩ := hcoded hn
      cases ho.symm.trans ho'
      exact harity harity'
  case h_2 hnot =>
    refine pools_unexpected (unfit_plain hk huse fun r p n hn => ?_)
    obtain ⟨id, ho, -⟩ := hcoded hn
    exact hnot id ho

/-- The entries of a jump table are the pairs of its operand, if those of one pair are. -/
theorem pairsCoded_of_mapM {entry : Operand × Operand → Option (α × UInt32)}
    {key : Operand → α → Prop}
    (hentry : ∀ o o' e, entry (o, o') = some e → o' = .label e.2 ∧ key o e.1)
    {items : List Operand} {grouped : List (Operand × Operand)} {table : List (α × UInt32)}
    (hpairs : pairs items = some grouped) (htable : grouped.mapM entry = some table) :
    PairsCoded key items table := by
  induction items using pairs.induct generalizing grouped table with
  | case1 o o' rest ih =>
    obtain ⟨grouped, hrest, rfl⟩ := Option.map_eq_some_iff.1 hpairs
    rw [List.mapM_cons] at htable
    obtain ⟨e, he, htable⟩ := Option.bind_eq_some_iff.1 htable
    obtain ⟨table, htail, htable⟩ := Option.bind_eq_some_iff.1 htable
    cases htable
    obtain ⟨rfl, hkey⟩ := hentry o o' e he
    exact .cons hkey (ih hrest htail)
  | case2 =>
    cases hpairs
    cases htable
    exact .nil
  | case3 o => cases hpairs

/-- The operand of a jump table. -/
theorem pairsCoded_of_tableOf? {entry : Operand × Operand → Option (α × UInt32)}
    {key : Operand → α → Prop}
    (hentry : ∀ o o' e, entry (o, o') = some e → o' = .label e.2 ∧ key o e.1)
    {table : List (α × UInt32)} (h : tableOf? entry o = some table) :
    ∃ items, o = .list items ∧ PairsCoded key items table := by
  cases o
  case list items =>
    obtain ⟨grouped, hpairs, htable⟩ := Option.bind_eq_some_iff.1 h
    exact ⟨items, rfl, pairsCoded_of_mapM hentry hpairs htable⟩
  all_goals cases h

/-- A value and its label. -/
theorem valuePair?_eq_some {o' : Operand} {e : Term × UInt32} (h : valuePair? (o, o') = some e) :
    o' = .label e.2 ∧ ValueKey o e.1 := by
  unfold valuePair? at h
  split at h
  case h_1 value n heq =>
    cases heq
    obtain ⟨t, ht, rfl⟩ := Option.map_eq_some_iff.1 h
    exact ⟨rfl, ht⟩
  case h_2 => cases h

/-- A tuple size and its label. -/
theorem arityPair?_eq_some {o' : Operand} {e : Nat × UInt32} (h : arityPair? (o, o') = some e) :
    o' = .label e.2 ∧ ArityKey o e.1 := by
  unfold arityPair? at h
  split at h
  case h_1 v n heq =>
    cases heq
    split at h
    case isTrue hsign =>
      cases h
      exact ⟨rfl, v, rfl, (Int.toNat_of_nonneg hsign).symm⟩
    case isFalse => cases h
  case h_2 => cases h

/-- The other way round, pairs whose entries can be told are a table. -/
theorem tableOf?_of_pairsCoded {entry : Operand × Operand → Option (α × UInt32)}
    {key : Operand → α → Prop}
    (hentry : ∀ {o k} (n : UInt32), key o k → entry (o, .label n) = some (k, n))
    {items : List Operand} {table : List (α × UInt32)} (h : PairsCoded key items table) :
    tableOf? entry (.list items) = some table := by
  show (pairs items).bind (·.mapM entry) = some table
  induction h with
  | nil => rfl
  | @cons o k n items table hkey _ ih =>
    obtain ⟨grouped, hpairs, htable⟩ := Option.bind_eq_some_iff.1 ih
    rw [pairs, hpairs, Option.map_some, Option.bind_some, List.mapM_cons, hentry n hkey, htable]
    rfl

/-- A value and its label are an entry. -/
theorem valuePair?_of_key {t : Term} (n : UInt32) (h : ValueKey o t) :
    valuePair? (o, .label n) = some (t, n) := by
  show o.constant?.map (·, n) = some (t, n)
  rw [show o.constant? = some t from h]
  rfl

/-- A tuple size and its label are an entry. -/
theorem arityPair?_of_key {size : Nat} (n : UInt32) (h : ArityKey o size) :
    arityPair? (o, .label n) = some (size, n) := by
  obtain ⟨v, rfl, hv⟩ := h
  show (if 0 ≤ v.toInt then some (v.toInt.toNat, n) else none) = some (size, n)
  rw [hv, if_pos (Int.natCast_nonneg size), Int.toNat_natCast]

/-- A slot of a cursor. -/
theorem pools_field_saveSlot (l : Layout) (k : Nat) :
    Pools (field i l (.saveSlot k)) a (Lays known i a.tuplePosition [.saveSlot k] l)
      (Unfit i (.saveSlot k)) := by
  rw [field]
  split
  case h_1 ho =>
    exact pools_pure (lays_number (.inl ⟨ho, by decide⟩) rfl)
  case h_2 hstart =>
    refine pools_integer (fun v ho => ?_) fun hnot => unfit_plain (.head _) rfl fun r p n hn => ?_
    · dsimp only
      split
      case h_1 n hword =>
        exact pools_pure (lays_number (.inr ⟨v, ho, toInt_of_signedWordOf? hword⟩) rfl)
      case h_2 hword =>
        refine pools_throw (.range (.head _) ho fun hcodable => ?_)
        obtain ⟨r, p, n, ⟨ho', -⟩ | ⟨v', ho', hv⟩⟩ := hcodable.of_plain rfl
        · cases ho.symm.trans ho'
        · cases ho.symm.trans ho'
          unfold signedWordOf? at hword
          have hle := n.toInt16.le_toInt
          have hlt := n.toInt16.toInt_lt
          rw [if_pos (by omega)] at hword
          cases hword
    · obtain ⟨ho, -⟩ | ⟨v, ho, -⟩ := hn
      · exact hstart ho
      · exact hnot v ho

/-- A jump table of values. -/
theorem pools_field_values (l : Layout) (k : Nat) :
    Pools (field i l (.values k)) a (Lays known i a.tuplePosition [.values k] l)
      (Unfit i (.values k)) := by
  rw [field]
  cases htable : tableOf? valuePair? (operand i k) with
  | some table =>
    obtain ⟨items, ho, hpairs⟩ := pairsCoded_of_tableOf? @valuePair?_eq_some htable
    refine pools_get (pools_nextIndex (fun _ _ => .full rfl) fun n hsize hn => ?_)
    refine ⟨{ Moved.refl a with valueTables := keeps_push _ _, roomy := ?_ }, ?_⟩
    · exact fun h => { h with valueTables := (Array.size_push _).trans_le hsize }
    · exact lays_number ⟨items, table, ho, hpairs, fun _ => getElem?_push_size hn⟩ rfl
  | none =>
    refine pools_unexpected (unfit_plain (.head _) rfl ?_)
    rintro r p n ⟨items, table, ho, hpairs, -⟩
    rw [ho, tableOf?_of_pairsCoded valuePair?_of_key hpairs] at htable
    cases htable

/-- A jump table of tuple sizes. -/
theorem pools_field_arities (l : Layout) (k : Nat) :
    Pools (field i l (.arities k)) a (Lays known i a.tuplePosition [.arities k] l)
      (Unfit i (.arities k)) := by
  rw [field]
  cases htable : tableOf? arityPair? (operand i k) with
  | some table =>
    obtain ⟨items, ho, hpairs⟩ := pairsCoded_of_tableOf? @arityPair?_eq_some htable
    refine pools_get (pools_nextIndex (fun _ _ => .full rfl) fun n hsize hn => ?_)
    refine ⟨{ Moved.refl a with arityTables := keeps_push _ _, roomy := ?_ }, ?_⟩
    · exact fun h => { h with arityTables := (Array.size_push _).trans_le hsize }
    · exact lays_number ⟨items, table, ho, hpairs, fun _ => getElem?_push_size hn⟩ rfl
  | none =>
    refine pools_unexpected (unfit_plain (.head _) rfl ?_)
    rintro r p n ⟨items, table, ho, hpairs, -⟩
    rw [ho, tableOf?_of_pairsCoded arityPair?_of_key hpairs] at htable
    cases htable

/-- Whether a built-in function stands in a test. -/
theorem guard_iff (o : Operand) :
    (match o with | .label n => n != 0 | _ => false) = true ↔ ∃ l, l ≠ 0 ∧ o = .label l := by
  cases o <;> simp

/-- Any field is laid out as what it stands for, or refused for a reason. -/
theorem pools_field (hroomy : known → a.Roomy) (l : Layout) (use : OperandUse)
    (htwo : l.sources.length + [use].countP OperandUse.isSource ≤ 2) :
    Pools (field i l use) a (Lays known i a.tuplePosition [use] l) (Unfit i use) := by
  cases use with
  | source k => exact pools_field_source hroomy (Nat.lt_of_succ_le htwo) k
  | dest k => exact pools_field_dest l k
  | floatSource k => exact pools_field_floatSource hroomy l k
  | floatDest k => exact pools_field_floatDest l k
  | floatRegister k | stackSlot k =>
    rw [field]
    split
    case h_1 n ho => exact pools_pure (lays_number ho rfl)
    case h_2 hnot => exact pools_unexpected (unfit_plain (.head _) rfl fun r p n => hnot n)
  | number k =>
    rw [field]
    exact pools_numberWord (.head _) rfl id fun n v ho hv =>
      pools_pure (lays_number ⟨v, ho, hv⟩ rfl)
  | arguments k extra =>
    rw [field]
    refine pools_numberWord (.head _) rfl id fun n v ho hv => ?_
    refine ⟨{ Moved.refl a with roomy := fun h => ⟨h.1, h.2, h.3, h.4⟩ }, ?_⟩
    exact lays_number ⟨v, ho, hv⟩ rfl
  | saveSlot k => exact pools_field_saveSlot l k
  | unused k =>
    rw [field]
    refine pools_integer (fun v ho => pools_pure (lays_unused ⟨v, ho⟩)) fun hnot => ?_
    refine .operand (.head _) fun hcodable => ?_
    obtain ⟨v, ho⟩ := hcodable.of_unused rfl rfl
    exact hnot v ho
  | unusedLabel k =>
    rw [field]
    split
    case h_1 n ho => exact pools_pure (lays_unused ⟨n, ho⟩)
    case h_2 hnot =>
      refine pools_unexpected (.operand (.head _) fun hcodable => ?_)
      obtain ⟨n, ho⟩ := hcodable.of_unused rfl rfl
      exact hnot n ho
  | label k =>
    rw [field]
    split
    case h_1 n ho => exact pools_pure (lays_label ho)
    case h_2 hnot =>
      refine pools_unexpected (.operand (.head _) fun hcodable => ?_)
      obtain ⟨n, ho⟩ := hcodable.of_label
      exact hnot n ho
  | atom k | literal k =>
    rw [field]
    split
    case h_1 value ho =>
      refine (pools_constant (fun _ _ => .full rfl) _).bind fun n a' _ ⟨hconstant, hposition⟩ => ?_
      exact pools_pure (lays_number ⟨value, ho, fun hk => hconstant (hroomy hk)⟩ hposition)
    case h_2 hnot =>
      exact pools_unexpected (unfit_plain (.head _) rfl fun r p n ⟨v, ho, _⟩ => hnot v ho)
  -- The arity comes from another operand than the function, and each of them may be the reason for
  -- a refusal.
  | callee k count =>
    rw [field]
    refine pools_integer (fun v hv => ?_) fun hnot => ?_
    · refine (pools_functionWord (.head _) rfl rfl ?_).bind ?_
      · rintro r p n ⟨id, v', hid, hv', harity, -⟩
        cases hv.symm.trans hv'
        exact ⟨id, hid, harity⟩
      · rintro n a' - ⟨⟨id, hid, harity, himport⟩, hposition⟩
        exact pools_pure
          (lays_number ⟨id, v, hid, hv, harity, fun hk => himport (hroomy hk)⟩ hposition)
    · exact unfit_plain (.tail _ (.head _)) rfl fun r p n ⟨id, v, _, hv, _⟩ => hnot v hv
  | builtin k arity =>
    rw [field]
    refine (pools_functionWord (.head _) rfl rfl ?_).bind ?_
    · exact fun ⟨id, hid, harity, _⟩ => ⟨id, hid, harity⟩
    · rintro n a' - ⟨⟨id, hid, harity, himport⟩, hposition⟩
      exact pools_pure (lays_number ⟨id, hid, harity, fun hk => himport (hroomy hk)⟩ hposition)
  | guardBuiltin k arity fail =>
    rw [field]
    refine (pools_functionWord (.head _) rfl rfl ?_).bind ?_
    · exact fun ⟨id, _, hid, harity, _⟩ => ⟨id, hid, harity⟩
    · rintro n a' - ⟨⟨id, hid, harity, himport⟩, hposition⟩
      exact pools_pure (lays_number
        ⟨id, _, hid, harity, guard_iff _, fun hk => himport (hroomy hk)⟩ hposition)
  | values k => exact pools_field_values l k
  | arities k => exact pools_field_arities l k
  -- The position is the assembler's own, so it is never refused.
  | position =>
    rw [field]
    refine ⟨{ Moved.refl a with roomy := fun h => ⟨h.1, h.2, h.3, h.4⟩ }, ?_⟩
    exact lays_number rfl rfl

/-- The fields of a shape are laid out one after another, up to one that is refused. -/
theorem pools_fields (hroomy : known → a.Roomy) (l : Layout) (uses : List OperandUse)
    (htwo : l.sources.length + uses.countP OperandUse.isSource ≤ 2) :
    Pools (uses.foldlM (field i) l) a (Lays known i a.tuplePosition uses l)
      fun e a' => ∃ use ∈ uses, Unfit i use e a' := by
  induction uses generalizing a l with
  | nil => exact pools_pure ⟨[], [], [], by simp, .nil, rfl⟩
  | cons use uses ih =>
    have hcount : (use :: uses).countP OperandUse.isSource =
        [use].countP OperandUse.isSource + uses.countP OperandUse.isSource := by
      rw [← List.countP_append, List.singleton_append]
    refine Pools.bind ((pools_field hroomy l use (by omega)).mono (fun _ _ => id) ?_) ?_
    · exact fun e a' hunfit => ⟨use, .head _, hunfit⟩
    rintro l' a' hmoved ⟨ss, vs, ws, rfl, hcoded, hposition⟩
    have hlength := hcoded.length_sources
    refine Runs.mono (ih (fun hk => hmoved.roomy (hroomy hk)) _ ?_) ?_ ?_
    · rw [List.length_append]
      omega
    · rintro l'' a'' ⟨hmoved', ss', vs', ws', rfl, hcoded', hposition'⟩
      rw [hposition] at hcoded' hposition'
      -- What the first field refers to is still there after the others.
      have hcoded := hcoded.map (hmoved'.hom.given known) fun _ _ _ => id
      rw [List.map_id] at hcoded
      refine ⟨hmoved', ss ++ ss', vs ++ vs', ws ++ ws', ?_, hcoded.append hcoded', hposition'⟩
      simp
    · rintro e a'' ⟨hmoved', use', huse', hunfit⟩
      exact ⟨hmoved', use', .tail _ huse', hunfit⟩

end Fields

end Assembler

end ErlangMachine
