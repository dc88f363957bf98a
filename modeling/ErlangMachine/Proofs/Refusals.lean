import ErlangMachine.Proofs.Boundaries
import ErlangMachine.Proofs.KnownLabels

/-!
# Refused functions

An assembler that refuses a function keeps what it had done for it, and goes on with the next one.
This module follows the labels of a function that was taken through everything that is asked of the
assembler later. A refusal for a label moves that label to the end of the code, and nothing else
that is asked for moves any (`lookup_serve`).

`labels_kept` says this of a whole run. A label of a function that was taken is resolved to its own
offset if and only if every later refusal for it came when the code still ended there. At the entry
label two words are added at once, so a function is entered at its first opcode if and only if no
later function was refused for its entry label.
-/

namespace ErlangMachine

namespace Assembler

variable {a : Assembler} {n : UInt32} {offset : Nat}

/-- A function is entered where its entry label is resolved to. -/
theorem entry?_functionTable {table : FunctionTable} (h : a.functionTable = .ok table)
    {f : LocalName} {start : Nat} {label : UInt32} (hf : (f, start, label) ∈ a.functions.toList) :
    table.entry? f = a.labels.lookup label := by
  unfold functionTable at h
  rw [← Array.foldlM_toList] at h
  generalize a.functions.toList = functions at h hf
  generalize FunctionTable.empty = t at h
  induction functions generalizing t with
  | nil => cases hf
  | cons g functions ih =>
    obtain ⟨t₁, hfirst, hrest⟩ := except_bind_eq_ok h
    rcases List.mem_cons.1 hf with rfl | hf
    · obtain ⟨entry, hentry, hfirst⟩ := except_bind_eq_ok hfirst
      split at hfirst
      case h_2 => cases hfirst
      case h_1 t₂ hinsert =>
        cases hfirst
        -- The name is taken from here on, so the functions that follow have others.
        refine (foldlM_keeps (fun t : FunctionTable => t.entry? f = some entry) ?_ hrest ?_).trans
          (lookup_of_resolve hentry).symm
        · rintro t ⟨g, start', label'⟩ t' hstep ht
          obtain ⟨entry', -, hstep⟩ := except_bind_eq_ok hstep
          split at hstep
          case h_2 => cases hstep
          case h_1 t₃ hinsert' =>
            cases hstep
            rw [FunctionTable.entry?_insert? hinsert', if_neg, ht]
            rintro rfl
            cases ht.symm.trans (FunctionTable.entry?_eq_none_of_insert? hinsert')
        · rw [FunctionTable.entry?_insert? hinsert, if_pos rfl]
    · exact ih hf _ hrest

/-! ## Requests -/

/-- What an assembler may be asked for. -/
inductive Request where
  /-- To assemble a function. -/
  | function (f : LocalName) (entry : UInt32) (body : List Instruction)
  /-- To note an exported function. -/
  | addExport (f : LocalName)

/-- The assembler after a request, which it may have refused. -/
def serve (a : Assembler) : Request → Assembler
  | .function f entry body =>
    match function f entry body a with
    | .ok _ a' => a'
    | .error _ a' => a'
  | .addExport f => a.addExport f

/-- The error with which a request is refused. -/
def refusal? (a : Assembler) : Request → Option Error
  | .function f entry body =>
    match function f entry body a with
    | .ok _ _ => none
    | .error e _ => some e
  | .addExport _ => none

/-- The assembler after some requests. -/
def serveAll (a : Assembler) (requests : List Request) : Assembler := requests.foldl serve a

/-- The label for which a function is refused. -/
def Error.label? : Error → Option UInt32
  | .duplicateLabel n => some n
  | _ => none

/-- A function is refused for a label that is known already. -/
theorem Error.label?_eq_some_iff {e : Error} : e.label? = some n ↔ e = .duplicateLabel n := by
  cases e
  case duplicateLabel m => exact ⟨fun h => by cases h; rfl, fun h => by cases h; rfl⟩
  all_goals exact ⟨nofun, nofun⟩

/-- The labels for which functions among some requests are refused, each with the size that the code
has then. -/
def refusals : Assembler → List Request → List (UInt32 × Nat)
  | _, [] => []
  | a, r :: requests =>
    (((a.refusal? r).bind Error.label?).map (·, (a.serve r).code.size)).toList ++
      refusals (a.serve r) requests

/-- What comes of a function: it is refused at one of its instructions or at its end, or it is
taken. -/
inductive Served (a : Assembler) (f : LocalName) (entry : UInt32) (body : List Instruction) :
    Option Error → Assembler → Prop
  | stopped {e : Error} {b : Assembler} :
    body.forM instruction (a.opened f entry) = .error e b → Served a f entry body (some e) b
  | incomplete {e : Error} {b : Assembler} :
    body.forM instruction (a.opened f entry) = .ok () b → (∀ n, e ≠ .duplicateLabel n) →
      Served a f entry body (some e) b
  | taken {b : Assembler} {place : Nat} :
    body.forM instruction (a.opened f entry) = .ok () b → b.capacityAt = some place →
      Served a f entry body none (b.closed f a.code.size entry place)

/-- A look at the assembler changes nothing. -/
theorem get_bind {α : Type} (next : Assembler → Step α) (a : Assembler) :
    (get >>= next) a = next a a := rfl

/-- A function is its body and then, if its entry label was met, the number of its registers. -/
theorem function_outcome (a : Assembler) (f : LocalName) (entry : UInt32)
    (body : List Instruction) :
    (∃ e b, body.forM instruction (a.opened f entry) = .error e b ∧
      function f entry body a = .error e b) ∨
    (∃ e b, body.forM instruction (a.opened f entry) = .ok () b ∧ (∀ n, e ≠ .duplicateLabel n) ∧
      function f entry body a = .error e b) ∨
    ∃ b place, body.forM instruction (a.opened f entry) = .ok () b ∧ b.capacityAt = some place ∧
      function f entry body a = .ok () (b.closed f a.code.size entry place) := by
  change (∃ e b, _ ∧ EStateM.bind (body.forM instruction) _ (a.opened f entry) = _) ∨
    (∃ e b, _ ∧ _ ∧ EStateM.bind (body.forM instruction) _ (a.opened f entry) = _) ∨
    ∃ b place, _ ∧ _ ∧ EStateM.bind (body.forM instruction) _ (a.opened f entry) = _
  simp only [EStateM.bind]
  cases hbody : body.forM instruction (a.opened f entry) with
  | error e b => exact .inl ⟨e, b, rfl, rfl⟩
  | ok x b =>
    refine .inr ?_
    simp only [get_bind]
    cases hplace : b.capacityAt with
    | none => exact .inl ⟨.missingEntry f entry, b, rfl, fun _ => by simp, rfl⟩
    | some place =>
      by_cases hregisters : b.registers < 65536
      · refine .inr ⟨b, place, rfl, hplace, ?_⟩
        simp only [if_pos hregisters]
        rfl
      · refine .inl ⟨.codeTooLarge, b, rfl, fun _ => by simp, ?_⟩
        simp only [if_neg hregisters]
        rfl

/-- A request for a function has one of these outcomes. -/
theorem served (a : Assembler) (f : LocalName) (entry : UInt32) (body : List Instruction) :
    Served a f entry body (a.refusal? (.function f entry body))
      (a.serve (.function f entry body)) := by
  rw [refusal?, serve]
  rcases a.function_outcome f entry body with ⟨e, b, hbody, hrun⟩ | ⟨e, b, hbody, he, hrun⟩ |
    ⟨b, place, hbody, hplace, hrun⟩
  · rw [hrun]
    exact .stopped hbody
  · rw [hrun]
    exact .incomplete hbody he
  · rw [hrun]
    exact .taken hbody hplace

/-- A request changes nothing in the code that was there, and functions that were taken stay. -/
structure Continues (a a' : Assembler) : Prop where
  /-- The code does not shrink. -/
  size_le : a.code.size ≤ a'.code.size
  /-- Functions stay. -/
  functions : ∀ f ∈ a.functions.toList, f ∈ a'.functions.toList
  /-- Words stay. -/
  rests : ∀ {offset : Nat} {k : UInt16}, Rests offset k a → Rests offset k a'

theorem Continues.refl (a : Assembler) : Continues a a := ⟨Nat.le_refl _, fun _ => id, id⟩

/-- One request after another. -/
theorem Continues.trans {a' a'' : Assembler} (h : Continues a a') (h' : Continues a' a'') :
    Continues a a'' :=
  ⟨Nat.le_trans h.size_le h'.size_le, fun f hf => h'.functions f (h.functions f hf),
    fun hrests => h'.rests (h.rests hrests)⟩

/-- What is done for a function that is not finished. -/
theorem Extends.continues {b : Assembler} {f : LocalName} {entry : UInt32}
    (h : Extends (a.opened f entry) b) : Continues a b where
  size_le := h.size_le
  functions := by
    rw [h.functions]
    exact fun _ => id
  rests := fun hrests => h.rests ⟨hrests.code, hrests.fixups, nofun⟩

/-- The end of a function. Its number of registers is not written over a word that rests. -/
theorem Continues.closed {b : Assembler} {place : Nat} (h : Continues a b) (f : LocalName)
    (start : Nat) (entry : UInt32) (hplace : b.capacityAt = some place) :
    Continues a (b.closed f start entry place) where
  size_le := by
    show a.code.size ≤ (b.code.setIfInBounds place _).size
    rw [Array.size_setIfInBounds]
    exact h.size_le
  functions := by
    intro g hg
    show g ∈ (b.functions.push (f, start, entry)).toList
    rw [Array.toList_push]
    exact List.mem_append_left _ (h.functions g hg)
  rests := by
    intro offset k hrests
    have hkept := h.rests hrests
    have hother : place ≠ offset := by
      rintro rfl
      exact hkept.capacity hplace
    refine ⟨?_, hkept.fixups, hkept.capacity⟩
    show (b.code.setIfInBounds place _)[offset]? = some k
    rw [Array.getElem?_setIfInBounds_ne hother]
    exact hkept.code

/-- A request, refused or not. -/
theorem continues_serve (a : Assembler) (r : Request) : Continues a (a.serve r) := by
  cases r with
  | function f entry body =>
    have hextends := runs_forM_extends body (a.opened f entry)
    have hserved := a.served f entry body
    generalize a.refusal? (.function f entry body) = outcome at hserved
    generalize a.serve (.function f entry body) = a' at hserved ⊢
    cases hserved with
    | stopped hbody => exact (hextends.of_error hbody).continues
    | incomplete hbody _ => exact (hextends.of_ok hbody).continues
    | taken hbody hplace => exact (hextends.of_ok hbody).continues.closed f _ entry hplace
  | addExport f => exact ⟨Nat.le_refl _, fun _ => id, fun h => ⟨h.code, h.fixups, h.capacity⟩⟩

/-- A known label is noted again, at the end of the code, by a request that is refused for it. No
other request moves it, whether it is refused or not. -/
theorem lookup_serve (hknown : (a.labels.lookup n).isSome) (r : Request) :
    (a.refusal? r = some (.duplicateLabel n) →
        (a.serve r).labels.lookup n = some (a.serve r).code.size) ∧
      (a.refusal? r ≠ some (.duplicateLabel n) →
        (a.serve r).labels.lookup n = a.labels.lookup n) := by
  cases r with
  | function f entry body =>
    have hlabel : Relabelled n a (body.forM instruction (a.opened f entry)) :=
      forM_relabelled (a := a.opened f entry) hknown body
    have hserved := a.served f entry body
    generalize a.refusal? (.function f entry body) = outcome at hserved ⊢
    generalize a.serve (.function f entry body) = a' at hserved ⊢
    cases hserved with
    | stopped hbody =>
      rw [hbody] at hlabel
      exact ⟨fun he => hlabel.1 (Option.some.inj he),
        fun he => hlabel.2 fun heq => he (by rw [heq])⟩
    | incomplete hbody hother =>
      rw [hbody] at hlabel
      exact ⟨fun he => absurd (Option.some.inj he) (hother n), fun _ => hlabel⟩
    | taken hbody _ =>
      rw [hbody] at hlabel
      exact ⟨nofun, fun _ => hlabel⟩
  | addExport f => exact ⟨nofun, fun _ => rfl⟩

/-! ## Runs -/

/-- A function that was taken is noted, its labels stand where the widths of its instructions say,
and the opcode at its entry rests. -/
theorem function_taken {a' : Assembler} {f : LocalName} {entry : UInt32} {body : List Instruction}
    (h : a.InLines) (hrun : function f entry body a = .ok () a') :
    (∀ n offset, (n, offset) ∈ labelsFrom entry a.code.size body →
      a'.labels.lookup n = some offset ∧ offset ≤ a'.code.size) ∧
    (f, a.code.size, entry) ∈ a'.functions.toList ∧
    ∃ offset k, (entry, offset) ∈ labelsFrom entry a.code.size body ∧ Rests offset k a' ∧
      Opcode.ofWord? k = some ⟨.ensureCapacity, []⟩ := by
  obtain ⟨lines, hlined⟩ := h
  have hopened : (a.opened f entry).InLines := ⟨lines, hlined.opened f entry⟩
  rcases a.function_outcome f entry body with ⟨e, b, -, herror⟩ | ⟨e, b, -, -, herror⟩ |
    ⟨b, place, hbody, hplace, hok⟩
  · cases hrun.symm.trans herror
  · cases hrun.symm.trans herror
  · cases hrun.symm.trans hok
    have hclosed : Continues b (b.closed f a.code.size entry place) :=
      (Continues.refl b).closed f _ entry hplace
    refine ⟨fun n offset hn => ?_, ?_, ?_⟩
    · obtain ⟨hlookup, hle⟩ := lookup_of_mem_labelsFrom rfl hbody hn
      exact ⟨hlookup, Nat.le_trans hle hclosed.size_le⟩
    · show _ ∈ (b.functions.push (f, a.code.size, entry)).toList
      rw [Array.toList_push]
      exact List.mem_append_right _ (.head _)
    · obtain ⟨offset, k, hmem, hrests, hk⟩ := rests_of_forM hopened rfl rfl hbody hplace
      exact ⟨offset, k, hmem, hclosed.rests hrests, hk⟩

/-- What a request keeps, requests keep. -/
theorem continues_serveAll (a : Assembler) (requests : List Request) :
    Continues a (a.serveAll requests) := by
  induction requests generalizing a with
  | nil => exact .refl a
  | cons r requests ih => exact (continues_serve a r).trans (ih (a.serve r))

/-- Refusals come when the code is at least as large as it was. -/
theorem size_le_of_mem_refusals {requests : List Request} {size : Nat}
    (hn : (n, size) ∈ a.refusals requests) : a.code.size ≤ size := by
  induction requests generalizing a with
  | nil => cases hn
  | cons r requests ih =>
    have hfirst := (continues_serve a r).size_le
    rcases List.mem_append.1 hn with hn | hn
    · obtain ⟨m, -, heq⟩ := Option.map_eq_some_iff.1 (Option.mem_toList.1 hn)
      obtain ⟨-, rfl⟩ := Prod.mk.inj heq
      exact hfirst
    · exact Nat.le_trans hfirst (ih hn)

/-- A label never moves back. -/
theorem le_lookup_serveAll (hlookup : a.labels.lookup n = some offset)
    (hle : offset ≤ a.code.size) (requests : List Request) :
    ∃ offset', (a.serveAll requests).labels.lookup n = some offset' ∧ offset ≤ offset' := by
  induction requests generalizing a offset with
  | nil => exact ⟨offset, hlookup, Nat.le_refl _⟩
  | cons r requests ih =>
    obtain ⟨hmoved, hkept⟩ := lookup_serve (by rw [hlookup]; rfl) r
    have hsize := (continues_serve a r).size_le
    by_cases hr : a.refusal? r = some (.duplicateLabel n)
    · obtain ⟨offset', hlookup', hle'⟩ := ih (hmoved hr) (Nat.le_refl _)
      exact ⟨offset', hlookup', by omega⟩
    · exact ih ((hkept hr).trans hlookup) (by omega)

/-- A label is at its offset after some requests if and only if those that were refused for it were
refused when the code ended there. -/
theorem lookup_serveAll (hlookup : a.labels.lookup n = some offset) (hle : offset ≤ a.code.size)
    (requests : List Request) :
    (a.serveAll requests).labels.lookup n = some offset ↔
      ∀ size, (n, size) ∈ a.refusals requests → size = offset := by
  induction requests generalizing a with
  | nil => exact iff_of_true hlookup nofun
  | cons r requests ih =>
    obtain ⟨hmoved, hkept⟩ := lookup_serve (by rw [hlookup]; rfl) r
    have hsize := (continues_serve a r).size_le
    by_cases hr : a.refusal? r = some (.duplicateLabel n)
    · have hrefusals : a.refusals (r :: requests) =
          (n, (a.serve r).code.size) :: (a.serve r).refusals requests := by
        rw [refusals, hr]
        rfl
      rw [hrefusals]
      by_cases hsame : (a.serve r).code.size = offset
      · refine (ih (by rw [hmoved hr, hsame]) (by omega)).trans ?_
        constructor
        · intro hrest size hmem
          rcases List.mem_cons.1 hmem with heq | hmem
          · obtain ⟨-, rfl⟩ := Prod.mk.inj heq
            exact hsame
          · exact hrest size hmem
        · exact fun hall size hmem => hall size (.tail _ hmem)
      · -- The label has moved on and does not come back.
        obtain ⟨offset', hlookup', hle'⟩ := le_lookup_serveAll (hmoved hr) (Nat.le_refl _) requests
        refine iff_of_false ?_ fun hall => hsame (hall _ (.head _))
        show ((a.serve r).serveAll requests).labels.lookup n ≠ some offset
        rw [hlookup']
        intro heq
        have := Option.some.inj heq
        omega
    · refine (ih ((hkept hr).trans hlookup) (by omega)).trans ?_
      constructor
      · intro hrest size hmem
        rcases List.mem_append.1 hmem with hmem | hmem
        · obtain ⟨m, hm, heq⟩ := Option.map_eq_some_iff.1 (Option.mem_toList.1 hmem)
          obtain ⟨rfl, -⟩ := Prod.mk.inj heq
          obtain ⟨e, he, hlabel⟩ := Option.bind_eq_some_iff.1 hm
          rw [Error.label?_eq_some_iff.1 hlabel] at he
          exact absurd he hr
        · exact hrest size hmem
      · exact fun hall size hmem => hall size (List.mem_append_right _ hmem)

/-- A word that rests is in the code of the finished module. -/
theorem Finished.code_of_rests {m : Module} (h : Finished a m) {k : UInt16}
    (hrests : Rests offset k a) : m.code[offset]? = some k := by
  have hcode := h.code
  unfold resolvedCode at hcode
  rw [← Array.foldlM_toList] at hcode
  have hfixups := hrests.fixups
  have hword := hrests.code
  generalize a.code = code at hcode hword
  generalize a.fixups.toList = fixups at hcode hfixups
  induction fixups generalizing code with
  | nil =>
    cases hcode
    exact hword
  | cons e fixups ih =>
    obtain ⟨code₁, hfirst, hrest⟩ := except_bind_eq_ok hcode
    obtain ⟨w, -, hfirst⟩ := except_bind_eq_ok hfirst
    cases hfirst
    refine ih _ ?_ hrest fun e he => hfixups e (.tail _ he)
    rw [Array.getElem?_setIfInBounds_ne (hfixups e (.head _))]
    exact hword

/-- A label is resolved to where it was noted last. -/
theorem resolve_eq_ok_iff : a.resolve n = .ok offset ↔ a.labels.lookup n = some offset := by
  refine ⟨lookup_of_resolve, fun h => ?_⟩
  unfold resolve
  rw [h]

/-- The labels of a function that was taken, after everything that was asked for later, and the
entry of the function in the finished module. A label is resolved to the offset at which the
function declares it if and only if all later functions that were refused for this label were
refused when the code ended at that offset. At the entry label the function has its first opcode,
and this is where the module enters it if and only if no later function was refused for the entry
label. -/
theorem labels_kept {start taken : Assembler} {f : LocalName} {entry : UInt32}
    {body : List Instruction} {after : List Request} {m : Module} (hstart : Reached start)
    (hrun : function f entry body start = .ok () taken)
    (hfinish : (taken.serveAll after).finish = .ok m) :
    (∀ n offset, (n, offset) ∈ labelsFrom entry start.code.size body →
      taken.resolve n = .ok offset ∧
        ((taken.serveAll after).resolve n = .ok offset ↔
          ∀ size, (n, size) ∈ taken.refusals after → size = offset)) ∧
    ∃ offset word, (entry, offset) ∈ labelsFrom entry start.code.size body ∧
      m.code[offset]? = some word ∧ Opcode.ofWord? word = some ⟨.ensureCapacity, []⟩ ∧
      (m.functions.entry? f = some offset ↔
        ∀ size, (entry, size) ∉ taken.refusals after) := by
  obtain ⟨hlabels, hfunction, offset, k, hentry, hrests, hk⟩ := function_taken hstart.inLines hrun
  have hcontinues := continues_serveAll taken after
  have hfinished := finished_of_finish hfinish
  refine ⟨fun n offset hn => ?_, offset, k, hentry, ?_, hk, ?_⟩
  · obtain ⟨hlookup, hle⟩ := hlabels n offset hn
    rw [resolve_eq_ok_iff, resolve_eq_ok_iff]
    exact ⟨hlookup, lookup_serveAll hlookup hle after⟩
  · exact hfinished.code_of_rests (hcontinues.rests hrests)
  · obtain ⟨hlookup, hle⟩ := hlabels entry offset hentry
    rw [entry?_functionTable hfinished.functions (hcontinues.functions _ hfunction),
      lookup_serveAll hlookup hle after]
    -- The opcode is in the code already, so a later refusal finds more code than up to the label.
    have hlt := hrests.lt_size
    constructor
    · intro hall size hmem
      have hsize := size_le_of_mem_refusals hmem
      have hequal := hall size hmem
      omega
    · exact fun hnone size hmem => absurd hmem (hnone size)

/-- The body of a function that returns at once. Its entry label `2` stands at the offset four. -/
def returning : List Instruction := [
  ⟨.label, [.int 1]⟩,
  ⟨.funcInfo, [.atom "m", .atom "f", .int 0]⟩,
  ⟨.label, [.int 2]⟩,
  ⟨.ret, []⟩]

/-- A function that is refused at its second instruction, which takes no operand, and then an
exported function. -/
def refusedThenExported : List Request :=
  [.function ⟨"g", 0⟩ 3 [⟨.label, [.int 3]⟩, ⟨.ret, [.int 1]⟩], .addExport ⟨"f", 0⟩]

/-- The labels of a function stay although the next one is refused, after it has declared a label of
its own and added code. -/
theorem labels_kept_refused : ∃ (taken : Assembler) (m : Module),
    function ⟨"f", 0⟩ 2 returning (ofName "m") = .ok () taken ∧
      (taken.serveAll refusedThenExported).finish = .ok m ∧
      (taken.serveAll refusedThenExported).resolve 1 = .ok 0 ∧
      m.functions.entry? ⟨"f", 0⟩ = some 4 := by
  have htaken : ((ofName "m").refusal? (.function ⟨"f", 0⟩ 2 returning)).isNone = true := by
    decide +kernel
  have hfinish : (((ofName "m").serve (.function ⟨"f", 0⟩ 2 returning)).serveAll
      refusedThenExported).finish.toBool = true := by
    decide +kernel
  have hrefusals : ((ofName "m").serve (.function ⟨"f", 0⟩ 2 returning)).refusals
      refusedThenExported = [] := by
    decide +kernel
  rw [refusal?] at htaken
  rw [serve] at hfinish hrefusals
  cases hrun : function ⟨"f", 0⟩ 2 returning (ofName "m") with
  | error e a =>
    rw [hrun] at htaken
    cases htaken
  | ok x taken =>
    rw [hrun] at hfinish hrefusals
    cases hmodule : (taken.serveAll refusedThenExported).finish with
    | error e =>
      rw [hmodule] at hfinish
      cases hfinish
    | ok m =>
      obtain ⟨hlabels, offset, word, hentry, -, -, hentered⟩ :=
        labels_kept (.start "m") hrun hmodule
      have hwalk : labelsFrom 2 (ofName "m").code.size returning = [(1, 0), (2, 4)] := by
        decide +kernel
      rw [hwalk, hrefusals] at hlabels
      rw [hwalk] at hentry
      rw [hrefusals] at hentered
      have hfour : offset = 4 := by simpa using hentry
      refine ⟨taken, m, rfl, hmodule, (hlabels 1 0 (.head _)).2.2 nofun, ?_⟩
      rw [hentered.2 nofun, hfour]

/-- A function that declares the entry label of an earlier one is refused, but from then on the
module enters the earlier one where the code ended. -/
theorem refused_function_moves_entry :
    ((ofName "m").serveAll [.function ⟨"f", 0⟩ 2 returning]).labels.lookup 2 = some 4 ∧
      (((ofName "m").serveAll [.function ⟨"f", 0⟩ 2 returning]).refusal?
        (.function ⟨"g", 0⟩ 3 [⟨.label, [.int 2]⟩])).isSome = true ∧
      ((ofName "m").serveAll [.function ⟨"f", 0⟩ 2 returning,
        .function ⟨"g", 0⟩ 3 [⟨.label, [.int 2]⟩]]).finish.toOption.map
          (·.functions.entry? ⟨"f", 0⟩) = some (some 7) := by
  decide +kernel

end Assembler

end ErlangMachine
