import ErlangMachine.Proofs.Assembly

/-!
# The pool of constants

The assembler looks constants up in its pool one by one, and constants that are exactly equal share
a place. What it looks up for an instruction can be read off the instruction
(`Instruction.constants`), and a step that fails on the way has looked up a first part of that. This
is what `Assembler.Interns` says of every step up to a whole function (`interns_function`); it keeps
a log of the constants and of the places that were given for them.

What is in the pool follows from what one lookup does (`constant_cases`), by induction along the log
(`Interned.pooled`): the place that was given for a constant holds one that is exactly equal to it
and was looked up itself, and no two constants in the pool are exactly equal.
-/

namespace ErlangMachine

/-! ## The constants of an instruction -/

/-- The constants that are looked up for a field of an instruction. -/
def Assembler.fieldConstants (i : Instruction) : OperandUse → List Term
  | .source k | .floatSource k | .atom k | .literal k => (operand i k).constant?.toList
  | _ => []

/-- The constants that are looked up for an instruction, in order. -/
def Instruction.constants (i : Instruction) : List Term :=
  match i.operation.shape? with
  | some shape => shape.fields.flatMap (Assembler.fieldConstants i)
  | none => []

/-- Each of them is what an operand stands for. -/
theorem Instruction.exists_operand {i : Instruction} {t : Term} (h : t ∈ i.constants) :
    ∃ k, (Assembler.operand i k).constant? = some t := by
  unfold constants at h
  split at h
  case h_2 => cases h
  case h_1 shape _ =>
    obtain ⟨use, -, huse⟩ := List.mem_flatMap.1 h
    unfold Assembler.fieldConstants at huse
    split at huse
    case h_5 => cases huse
    all_goals exact ⟨_, Option.mem_toList.1 huse⟩

namespace Assembler

variable {a a' : Assembler} {log : List (Term × UInt16)}

/-! ## Lookups -/

/-- A lookup that succeeds finds the first constant that is exactly equal, or adds the constant to a
pool that has none and is not full. -/
theorem constant_cases {t : Term} {n : UInt16} (h : constant t a = .ok n a') :
    (∃ k c, a.constants[k]? = some c ∧ c.exactEq t = true ∧ n = .ofNat k ∧ a' = a) ∨
      ((∀ c ∈ a.constants, c.exactEq t = false) ∧ a.constants.size < 65535 ∧
        n = .ofNat a.constants.size ∧ a'.constants = a.constants.push t) := by
  obtain ⟨b, a₁, hget, h⟩ := bind_eq_ok h
  cases hget
  cases hfind : a.constants.findIdx? (·.exactEq t) with
  | some k =>
    obtain ⟨hk, hequal, -⟩ := Array.findIdx?_eq_some_iff_getElem.1 hfind
    rw [hfind] at h
    cases h
    exact .inl ⟨k, _, Array.getElem?_eq_getElem hk, hequal, rfl, rfl⟩
  | none =>
    rw [hfind] at h
    obtain ⟨i, a₂, hnext, h⟩ := bind_eq_ok h
    unfold nextIndex at hnext
    split at hnext
    case isFalse => cases hnext
    case isTrue hsize =>
      cases hnext
      cases h
      refine .inr ⟨fun c hc => ?_, hsize, rfl, rfl⟩
      simpa using Array.findIdx?_eq_none_iff.1 hfind c hc

/-- The pool has changed from one assembler to the next by some lookups and nothing else. The log
has the constants that were looked up and the places that were given for them. -/
inductive Interned : Assembler → List (Term × UInt16) → Assembler → Prop where
  | done {a a' : Assembler} (h : a'.constants = a.constants) : Interned a [] a'
  | lookup {a b c a' : Assembler} {t : Term} {n : UInt16} {log : List (Term × UInt16)}
    (h : b.constants = a.constants) (hrun : constant t b = .ok n c) (hrest : Interned c log a') :
    Interned a ((t, n) :: log) a'

/-- Only the pool counts. -/
theorem Interned.of_constants {b : Assembler} (hrest : Interned b log a')
    (h : b.constants = a.constants) : Interned a log a' := by
  cases hrest with
  | done h' => exact .done (h'.trans h)
  | lookup h' hrun hrest => exact .lookup (h'.trans h) hrun hrest

/-- Some lookups and then others. -/
theorem Interned.trans {a'' : Assembler} {log' : List (Term × UInt16)} (h : Interned a log a')
    (h' : Interned a' log' a'') : Interned a (log ++ log') a'' := by
  induction h with
  | done heq => exact h'.of_constants heq
  | lookup heq hrun _ ih => exact .lookup heq hrun (ih h')

/-! ## What the pool holds -/

/-- What is known of a pool after the lookups in a log. -/
structure Pooled (log : List (Term × UInt16)) (pool : Array Term) : Prop where
  /-- Every place can be written as a word. -/
  size_le : pool.size ≤ 65535
  /-- The place that was given for a constant holds one that is exactly equal to it. -/
  entry : ∀ t n, (t, n) ∈ log → ∃ c, pool[n.toNat]? = some c ∧ c.exactEq t = true
  /-- What is in the pool was looked up. -/
  mem : ∀ c ∈ pool, c ∈ log.map Prod.fst
  /-- No constant in the pool is exactly equal to a later one. -/
  distinct : pool.toList.Pairwise fun c d => c.exactEq d = false

/-- A pool in which nothing was looked up. -/
theorem pooled_empty : Pooled [] #[] where
  size_le := by simp
  entry := by simp
  mem := by simp
  distinct := by simp

/-- One lookup. -/
theorem Pooled.constant {t : Term} {n : UInt16} (h : Pooled log a.constants)
    (hrun : constant t a = .ok n a') : Pooled (log ++ [(t, n)]) a'.constants := by
  rcases constant_cases hrun with ⟨k, c, hc, hequal, rfl, rfl⟩ | ⟨hnone, hsize, rfl, hpush⟩
  · have hk : k < a'.constants.size := (Array.getElem?_eq_some_iff.1 hc).1
    refine ⟨h.size_le, fun u m hu => ?_, fun d hd => ?_, h.distinct⟩
    · rcases List.mem_append.1 hu with hu | hu
      · exact h.entry u m hu
      · obtain ⟨rfl, rfl⟩ := Prod.mk.inj (List.mem_singleton.1 hu)
        exact ⟨c, by rw [toNat_ofNat_of_lt hk h.size_le, hc], hequal⟩
    · rw [List.map_append]
      exact List.mem_append_left _ (h.mem d hd)
  · rw [hpush]
    refine ⟨by rw [Array.size_push]; omega, fun u m hu => ?_, fun d hd => ?_, ?_⟩
    · rcases List.mem_append.1 hu with hu | hu
      · obtain ⟨c, hc, hequal⟩ := h.entry u m hu
        exact ⟨c, keeps_push _ _ _ _ hc, hequal⟩
      · obtain ⟨rfl, rfl⟩ := Prod.mk.inj (List.mem_singleton.1 hu)
        exact ⟨u, getElem?_push_size (toNat_ofNat_of_lt hsize (Nat.le_refl _)), u.exactEq_self⟩
    · rw [List.map_append]
      rcases Array.mem_push.1 hd with hd | rfl
      · exact List.mem_append_left _ (h.mem d hd)
      · exact List.mem_append_right _ (by simp)
    · rw [Array.toList_push, List.pairwise_append]
      refine ⟨h.distinct, List.pairwise_singleton _ _, fun c hc d hd => ?_⟩
      obtain rfl := List.mem_singleton.1 hd
      exact hnone c (Array.mem_toList_iff.1 hc)

/-- All lookups of a log. -/
theorem Interned.pooled {log' : List (Term × UInt16)} (h : Interned a log a')
    (hpool : Pooled log' a.constants) : Pooled (log' ++ log) a'.constants := by
  induction h generalizing log' with
  | done heq => rwa [List.append_nil, heq]
  | lookup heq hrun _ ih =>
    rw [← heq] at hpool
    simpa using ih (hpool.constant hrun)

/-! ## Steps -/

/-- A step looks up the given constants in order, or a first part of them if it fails. -/
def Interns {α : Type} (step : Step α) (terms : List Term) : Prop :=
  ∀ a, Runs step a (fun _ a' => ∃ log, log.map Prod.fst = terms ∧ Interned a log a')
    (fun _ a' => ∃ log, log.map Prod.fst <+: terms ∧ Interned a log a')

section Steps

variable {α β : Type} {terms terms' : List Term}

theorem Interns.pure (x : α) : Interns (Pure.pure x) [] := fun _ => ⟨[], rfl, .done rfl⟩

theorem Interns.throw (e : Error) : Interns (throw e : Step α) terms :=
  fun _ => ⟨[], List.nil_prefix, .done rfl⟩

theorem Interns.get : Interns (get : Step Assembler) [] := fun _ => ⟨[], rfl, .done rfl⟩

theorem Interns.modify {f : Assembler → Assembler} (h : ∀ a, (f a).constants = a.constants) :
    Interns (modify f : Step Unit) [] := fun a => ⟨[], rfl, .done (h a)⟩

/-- One step after another. -/
theorem Interns.bind {step : Step α} {next : α → Step β} (h : Interns step terms)
    (hnext : ∀ x, Interns (next x) terms') : Interns (step >>= next) (terms ++ terms') := by
  intro a
  refine (h a).bind ?_ ?_
  · rintro e a' ⟨log, hlog, hinterned⟩
    exact ⟨log, hlog.trans (List.prefix_append _ _), hinterned⟩
  · rintro x a' ⟨log, rfl, hinterned⟩
    refine (hnext x a').mono ?_ ?_
    · rintro y a'' ⟨log', rfl, hinterned'⟩
      exact ⟨log ++ log', List.map_append, hinterned.trans hinterned'⟩
    · rintro e a'' ⟨log', hlog', hinterned'⟩
      refine ⟨log ++ log', ?_, hinterned.trans hinterned'⟩
      rw [List.map_append]
      exact List.prefix_append_right_inj _ |>.2 hlog'

theorem Interns.after {step : Step α} {next : α → Step β} (h : Interns step [])
    (hnext : ∀ x, Interns (next x) terms) : Interns (step >>= next) terms := h.bind hnext

theorem Interns.before {step : Step α} {next : α → Step β} (h : Interns step terms)
    (hnext : ∀ x, Interns (next x) []) : Interns (step >>= next) terms := by
  simpa using h.bind hnext

/-- A step for each element of a list. -/
theorem Interns.forM {xs : List α} {step : α → Step Unit} {constants : α → List Term}
    (h : ∀ x, Interns (step x) (constants x)) : Interns (xs.forM step) (xs.flatMap constants) := by
  induction xs with
  | nil => exact .pure ()
  | cons x xs ih => exact (h x).bind fun _ => ih

/-- Steps along a list that look nothing up. -/
theorem Interns.forM_nil {xs : List α} {step : α → Step Unit} (h : ∀ x, Interns (step x) []) :
    Interns (xs.forM step) [] := by
  have hforM : Interns (xs.forM step) (xs.flatMap fun _ => []) := .forM h
  rwa [List.flatMap_eq_nil_iff.2 fun _ _ => rfl] at hforM

/-- Steps along a list that hand a value on. -/
theorem Interns.foldlM {xs : List α} {step : β → α → Step β} {constants : α → List Term}
    (h : ∀ y x, Interns (step y x) (constants x)) (y : β) :
    Interns (xs.foldlM step y) (xs.flatMap constants) := by
  induction xs generalizing y with
  | nil => exact .pure y
  | cons x xs ih =>
    exact (h y x).bind ih

/-- The place of the next entry of a table. -/
theorem interns_nextIndex (table : Table) (size : Nat) : Interns (nextIndex table size) [] := by
  unfold nextIndex
  split
  · exact .pure _
  · exact .throw _

/-- A constant. -/
theorem interns_constant (t : Term) : Interns (constant t) [t] := by
  intro a
  unfold Runs
  cases hrun : constant t a with
  | ok n a' => exact ⟨[(t, n)], rfl, .lookup rfl hrun (.done rfl)⟩
  | error e a' =>
    have hkept : a'.constants = a.constants := by
      have hruns : Runs (constant t) a (fun _ _ => True) fun _ b => b.constants = a.constants := by
        refine runs_get ?_
        split
        · exact trivial
        · unfold nextIndex
          split
          · exact trivial
          · exact rfl
      exact hruns.of_error hrun
    exact ⟨[], List.nil_prefix, .done hkept⟩

/-- An import is no constant. -/
theorem interns_importIndex (wanted : Import) : Interns (importIndex wanted) [] := by
  refine Interns.get.after fun a => ?_
  split
  · exact .pure _
  · refine (interns_nextIndex _ _).after fun n => Interns.after ?_ fun _ => .pure _
    exact .modify fun _ => rfl

theorem interns_noteOperand (o : Operand) : Interns (noteOperand o) [] := by
  unfold noteOperand
  split
  · exact .modify fun _ => rfl
  · exact .pure ()

section Fields

variable {i : Instruction}

/-- An integer operand. -/
theorem interns_integer (k : Nat) : Interns (integer i k) [] := by
  unfold integer
  split
  · exact .pure _
  · exact .throw _

/-- An integer operand as a word. -/
theorem interns_numberWord (k : Nat) : Interns (numberWord i k) [] := by
  refine (interns_integer k).after fun v => ?_
  split
  · exact .pure _
  · exact .throw _

/-- A function of another module. -/
theorem interns_functionWord (k arity : Nat) (guard : Bool) :
    Interns (functionWord i k arity guard) [] := by
  unfold functionWord
  split
  · split
    · exact interns_importIndex _
    · exact .throw _
  · exact .throw _

theorem interns_addVariant (l : Layout) (o : Operand) (v : Variant) (w : UInt16) :
    Interns (do noteOperand o; pure (l.addVariant v w)) [] :=
  (interns_noteOperand o).after fun _ => .pure _

theorem interns_addConstant (l : Layout) (o : Operand) (t : Term) :
    Interns (do let n ← constant t; noteOperand o; pure (l.addVariant .c n)) [t] :=
  (interns_constant t).before fun n => interns_addVariant l o .c n

/-- For a source the constant that it stands for is looked up, even if there are too many
sources. -/
theorem interns_field_source (l : Layout) (k : Nat) :
    Interns (field i l (.source k)) (operand i k).constant?.toList := by
  have hrest : ∀ o (s : Variant × UInt16), Interns (do
      if l.sources.length = 2 then throw (.tooManySources i.operation)
      noteOperand o
      pure (l.addSource s)) [] := by
    intro o s
    split
    · exact .throw _
    · exact (interns_noteOperand o).after fun _ => .pure _
  rw [field]
  cases operand i k with
  | x n => exact hrest (.x n) (.x, n)
  | y n => exact hrest (.y n) (.y, n)
  | int | atom | nil | literal => exact (interns_constant _).before fun n => hrest _ (.c, n)
  | fr | label | external | list => exact .throw _

theorem interns_field_floatSource (l : Layout) (k : Nat) :
    Interns (field i l (.floatSource k)) (operand i k).constant?.toList := by
  rw [field]
  cases operand i k with
  | x n => exact interns_addVariant l (.x n) .x n
  | y n => exact interns_addVariant l (.y n) .y n
  | fr n => exact interns_addVariant l (.fr n) .f n
  | int v => exact interns_addConstant l (.int v) (.integer v)
  | atom name => exact interns_addConstant l (.atom name) (.atom name)
  | nil => exact interns_addConstant l .nil .nil
  | literal t => exact interns_addConstant l (.literal t) t
  | label | external | list => exact .throw _

/-- Every field looks up its constants. -/
theorem interns_field (l : Layout) (use : OperandUse) :
    Interns (field i l use) (fieldConstants i use) := by
  cases use with
  | source k => exact interns_field_source l k
  | floatSource k => exact interns_field_floatSource l k
  | dest k =>
    rw [field]
    cases operand i k
    case x n => exact interns_addVariant l (.x n) .x n
    case y n => exact interns_addVariant l (.y n) .y n
    all_goals exact .throw _
  | floatDest k =>
    rw [field]
    cases operand i k
    case x n => exact interns_addVariant l (.x n) .x n
    case y n => exact interns_addVariant l (.y n) .y n
    case fr n => exact interns_addVariant l (.fr n) .f n
    all_goals exact .throw _
  | floatRegister | stackSlot | unusedLabel | label =>
    rw [field]
    split
    · exact .pure _
    · exact .throw _
  | number k =>
    exact (interns_numberWord k).after fun _ => .pure _
  | arguments k extra =>
    refine (interns_numberWord k).after fun w => Interns.after ?_ fun _ => .pure _
    exact .modify fun _ => rfl
  | saveSlot k =>
    rw [field]
    split
    · rw [pure_bind]
      dsimp only
      split
      · exact .pure _
      · exact .throw _
    · refine (interns_integer k).after fun v => ?_
      dsimp only
      split
      · exact .pure _
      · exact .throw _
  | unused k =>
    exact (interns_integer k).after fun _ => .pure _
  | atom | literal =>
    rw [field, fieldConstants]
    split
    case h_1 ho =>
      rw [ho]
      exact (interns_constant _).before fun _ => .pure _
    case h_2 => exact .throw _
  | callee k count =>
    refine (interns_integer count).after fun v => ?_
    exact (interns_functionWord k _ false).after fun _ => .pure _
  | builtin k arity =>
    exact (interns_functionWord k arity false).after fun _ => .pure _
  | guardBuiltin k arity fail =>
    rw [field]
    exact (interns_functionWord k arity _).after fun _ => .pure _
  | values | arities =>
    rw [field]
    split
    · refine Interns.get.after fun a => (interns_nextIndex _ _).after fun w => ?_
      exact Interns.after (.modify fun _ => rfl) fun _ => .pure _
    · exact .throw _
  | position =>
    rw [field]
    refine Interns.after ?_ fun _ => Interns.get.after fun _ => .pure _
    exact .modify fun _ => rfl

end Fields

/-- The word of an opcode. -/
theorem interns_opcodeWord (o : Opcode) : Interns (opcodeWord o) [] := by
  unfold opcodeWord
  split
  · exact .pure _
  · exact .throw _

theorem interns_emit (w : UInt16) : Interns (emit w) [] := .modify fun _ => rfl

/-- A code word that may be a label. -/
theorem interns_emitWord (w : Word) : Interns (emitWord w) [] := by
  cases w with
  | raw w => exact interns_emit w
  | label n => exact .modify fun _ => rfl

/-- The fetch of sources. -/
theorem interns_emitSources (sources : List (Variant × UInt16)) :
    Interns (emitSources sources) [] := by
  unfold emitSources
  split
  · exact .pure ()
  · refine (interns_opcodeWord _).after fun w => (interns_emit w).after fun _ => ?_
    exact .forM_nil fun s => interns_emit s.2

/-- What was laid out. -/
theorem interns_emitLayout (family : Family) (l : Layout) : Interns (emitLayout family l) [] := by
  refine (interns_emitSources _).after fun _ => (interns_opcodeWord _).after fun w => ?_
  refine (interns_emit w).after fun _ => (Interns.forM_nil interns_emitWord).after fun _ => ?_
  refine Interns.get.after fun a => ?_
  split
  · exact .throw _
  · exact .pure ()

/-- A label. -/
theorem interns_bindLabel (n : UInt32) : Interns (bindLabel n) [] := by
  refine Interns.get.after fun a => Interns.after (.modify fun _ => rfl) fun _ => ?_
  split
  · exact .throw _
  · refine Interns.get.after fun a => ?_
    split
    · refine (interns_opcodeWord _).after fun w => (interns_emit w).after fun _ => ?_
      exact .modify fun _ => rfl
    · exact .pure ()

/-- Every instruction looks up its constants. -/
theorem interns_instruction (i : Instruction) : Interns (instruction i) i.constants := by
  have hlaid : ∀ shape, i.operation.shape? = some shape → Interns (do
      let l ← shape.fields.foldlM (field i) .empty
      emitLayout shape.family l) i.constants := by
    intro shape hshape
    unfold Instruction.constants
    rw [hshape]
    exact (Interns.foldlM interns_field _).before fun l => interns_emitLayout _ l
  have hnone : i.operation.shape? = none → i.constants = [] := by
    intro hshape
    unfold Instruction.constants
    rw [hshape]
  unfold instruction
  by_cases harity : i.operands.length = i.operation.arity
  case neg =>
    rw [if_pos harity]
    exact .throw _
  rw [if_neg (not_not_intro harity)]
  by_cases hop : i.operation = .label
  · rw [if_pos hop, hnone (by rw [hop]; rfl)]
    split
    · exact interns_bindLabel _
    · exact .throw _
  rw [if_neg hop]
  -- A tuple that begins sets the position back, which is no constant.
  by_cases hput : i.operation = .putTuple
  · rw [if_pos hput]
    refine Interns.after (.modify fun _ => rfl) fun _ => ?_
    split
    case h_1 shape hshape => exact hlaid shape hshape
    case h_2 hshape => exact hnone hshape ▸ .pure ()
  · rw [if_neg hput]
    split
    case h_1 shape hshape => exact hlaid shape hshape
    case h_2 hshape => exact hnone hshape ▸ .pure ()

/-- Every function looks up the constants of its instructions. -/
theorem interns_function (f : LocalName) (entryLabel : UInt32) (body : List Instruction) :
    Interns (function f entryLabel body) (body.flatMap Instruction.constants) := by
  refine Interns.get.after fun a => Interns.after (.modify fun _ => rfl) fun _ => ?_
  refine (Interns.forM interns_instruction).before fun _ => Interns.get.after fun a => ?_
  split
  · split
    · exact .modify fun _ => rfl
    · exact .throw _
  · exact .throw _

end Steps

end Assembler

end ErlangMachine
