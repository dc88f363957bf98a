import ErlangMachine.Proofs.Emission
import ErlangMachine.Proofs.FunctionTables
import ErlangMachine.Proofs.Sites

/-!
# Extents of functions

In the code of a module the functions of its listing stand one after the other, in their order and
without gaps. So the words of a function begin behind as many words as the functions before it take,
and those of an instruction behind as many more as the instructions before it take.

The module's table of functions knows these extents: `Listing.functionAt?_of_encloses` says that for
an offset within a function it names that function, and by `Listing.exists_encloses` every offset of
the code is within one.
-/

namespace ErlangMachine

variable {offset : Nat} {labels : List (UInt32 × Nat)} {l : Listing} {m : Module}

/-- The number of words that some instructions take in a function with some entry label. -/
def bodyWidth (entry : UInt32) (body : List Instruction) : Nat :=
  (body.map (Instruction.width entry)).sum

/-- The number of words that a function takes. -/
def FunctionListing.width (f : FunctionListing) : Nat := bodyWidth f.entry f.body.toList

/-- The number of words that some functions take. -/
def codeWidth (functions : List FunctionListing) : Nat := (functions.map FunctionListing.width).sum

section Coded

variable {ω : Type} {r : Reading ω}

/-- The words of a body can be divided where its instructions are. -/
theorem BodyCoded.split {entry : UInt32} {capacity : UInt16} {p : Nat}
    {front back : List Instruction} {ws : List ω}
    (h : BodyCoded r entry capacity p offset (front ++ back) labels ws) :
    ∃ q labels' words rest, ws = words ++ rest ∧ words.length = bodyWidth entry front ∧
      BodyCoded r entry capacity q (offset + bodyWidth entry front) back labels' rest := by
  induction front generalizing p offset labels ws with
  | nil => exact ⟨p, labels, [], ws, rfl, rfl, h⟩
  | cons i front ih =>
    -- Which form the instruction was read from does not matter here.
    obtain ⟨q, -, labels', block, ws', -, rfl, hlength, -, hrest⟩ :=
      Listing.exists_site h ⟨0, .nil⟩
    obtain ⟨q', labels'', words, rest, rfl, hwords, hback⟩ := ih hrest
    have hwidth : bodyWidth entry (i :: front) = i.width entry + bodyWidth entry front := rfl
    refine ⟨q', labels'', block ++ words, rest, (List.append_assoc ..).symm, ?_, ?_⟩
    · rw [List.length_append, hlength, hwords, hwidth]
    · rw [hwidth, ← Nat.add_assoc]
      exact hback

/-- A body has as many words as its instructions take. -/
theorem BodyCoded.length_eq {entry : UInt32} {capacity : UInt16} {p : Nat}
    {body : List Instruction} {ws : List ω}
    (h : BodyCoded r entry capacity p offset body labels ws) :
    ws.length = bodyWidth entry body := by
  rw [← List.append_nil body] at h
  obtain ⟨q, labels', words, rest, rfl, hwords, hnil⟩ := h.split
  cases hnil
  rw [List.append_nil, hwords]

/-- The words of functions can be divided where a function begins. -/
theorem ProgramCoded.split {before after : List FunctionListing} {ws : List ω}
    (h : ProgramCoded r offset (before ++ after) labels ws) :
    ∃ labels' words rest, ws = words ++ rest ∧ words.length = codeWidth before ∧
      ProgramCoded r (offset + codeWidth before) after labels' rest := by
  induction before generalizing offset labels ws with
  | nil => exact ⟨labels, [], ws, rfl, rfl, h⟩
  | cons f before ih =>
    cases h with
    | cons hbody hrest =>
      have hlength : _ = f.width := hbody.length_eq
      obtain ⟨labels', words, rest, rfl, hwords, hafter⟩ := ih hrest
      have hwidth : codeWidth (f :: before) = f.width + codeWidth before := rfl
      refine ⟨labels', _, rest, (List.append_assoc ..).symm, ?_, ?_⟩
      · rw [List.length_append, hlength, hwords, hwidth]
      · rw [hwidth, ← Nat.add_assoc, ← hlength]
        exact hafter

/-- Functions have as many words as they take. -/
theorem ProgramCoded.length_eq {functions : List FunctionListing} {ws : List ω}
    (h : ProgramCoded r offset functions labels ws) : ws.length = codeWidth functions := by
  rw [← List.append_nil functions] at h
  obtain ⟨labels', words, rest, rfl, hwords, hnil⟩ := h.split
  cases hnil
  rw [List.append_nil, hwords]

end Coded

/-- In the code of a module the words of some last instructions of a function stand behind those of
the functions and the instructions before them. -/
theorem Listing.coded_body (h : l.toModule = .ok m) {before after : List FunctionListing}
    {f : FunctionListing} (hfunctions : l.functions.toList = before ++ f :: after)
    {front back : List Instruction} (hbody : f.body.toList = front ++ back) :
    ∃ labels capacity p labels' ws,
      BodyCoded (m.reading labels) f.entry capacity p (codeWidth before + bodyWidth f.entry front)
        back labels' ws ∧
      ws <+: m.code.toList.drop (codeWidth before + bodyWidth f.entry front) := by
  obtain ⟨labels, -, hprogram⟩ := programCoded_of_toModule h
  rw [hfunctions] at hprogram
  obtain ⟨labels', words, rest, hcode, hwords, hafter⟩ := hprogram.split
  cases hafter with
  | cons hcoded hlater =>
    rename_i capacity labels₁ labels₂ ws₁ ws₂
    rw [hbody, Nat.zero_add] at hcoded
    obtain ⟨p, labels'', words', back', rfl, hwords', hback⟩ := hcoded.split
    refine ⟨labels, capacity, p, labels'', back', hback, ws₂, ?_⟩
    have hfront : (words ++ words').length = codeWidth before + bodyWidth f.entry front := by
      rw [List.length_append, hwords, hwords']
    rw [hcode, ← hfront, List.append_assoc words' back', ← List.append_assoc words words',
      List.drop_left]

/-- The code of a module has as many words as its functions take. -/
theorem Listing.size_code (h : l.toModule = .ok m) :
    m.code.size = codeWidth l.functions.toList := by
  obtain ⟨labels, -, hprogram⟩ := programCoded_of_toModule h
  rw [← Array.length_toList, hprogram.length_eq]

/-! ## Function tables -/

/-- An offset of the code is within a function of the listing. -/
def Listing.Encloses (l : Listing) (pc : Nat) (f : FunctionListing) : Prop :=
  ∃ before after, l.functions.toList = before ++ f :: after ∧ codeWidth before ≤ pc ∧
    pc < codeWidth before + f.width

/-- Every offset of the code of some functions is within one of them. -/
theorem exists_extent {functions : List FunctionListing} {pc : Nat} (h : pc < codeWidth functions) :
    ∃ before f after, functions = before ++ f :: after ∧ codeWidth before ≤ pc ∧
      pc < codeWidth before + f.width := by
  induction functions generalizing pc with
  | nil => cases h
  | cons f functions ih =>
    have hwidth : ∀ fs, codeWidth (f :: fs) = f.width + codeWidth fs := fun _ => rfl
    rw [hwidth] at h
    by_cases hpc : pc < f.width
    · exact ⟨[], f, functions, rfl, Nat.zero_le _, (Nat.zero_add f.width).symm ▸ hpc⟩
    · have hrest : pc - f.width < codeWidth functions := by omega
      obtain ⟨before, g, after, rfl, hle, hlt⟩ := ih hrest
      refine ⟨f :: before, g, after, rfl, ?_, ?_⟩
      · rw [hwidth]
        omega
      · rw [hwidth]
        omega

/-- Every offset of a module's code is within a function. -/
theorem Listing.exists_encloses (h : l.toModule = .ok m) {pc : Nat} (hpc : pc < m.code.size) :
    ∃ f, l.Encloses pc f := by
  rw [size_code h] at hpc
  obtain ⟨before, f, after, hfunctions, hextent⟩ := exists_extent hpc
  exact ⟨f, before, after, hfunctions, hextent⟩

/-- The offsets at which functions begin that stand one after the other from an offset on, with
their names. -/
def starts : Nat → List FunctionListing → List (Nat × LocalName)
  | _, [] => []
  | offset, f :: functions => (offset, f.function) :: starts (offset + f.width) functions

section Starts

variable {offset : Nat} {functions : List FunctionListing}

/-- Some functions and then others. -/
theorem starts_append (offset : Nat) (before after : List FunctionListing) :
    starts offset (before ++ after) =
      starts offset before ++ starts (offset + codeWidth before) after := by
  induction before generalizing offset with
  | nil => rfl
  | cons f before ih =>
    have hwidth : codeWidth (f :: before) = f.width + codeWidth before := rfl
    rw [List.cons_append, starts, starts, ih, hwidth, Nat.add_assoc]
    rfl

/-- No function begins before the first. -/
theorem le_of_mem_starts {p : Nat × LocalName} (h : p ∈ starts offset functions) :
    offset ≤ p.1 := by
  induction functions generalizing offset with
  | nil => cases h
  | cons f functions ih =>
    rcases List.mem_cons.1 h with rfl | h
    · exact Nat.le_refl _
    · exact (Nat.le_add_right _ _).trans (ih h)

/-- No function begins after the last ends. -/
theorem le_of_starts_mem {p : Nat × LocalName} (h : p ∈ starts offset functions) :
    p.1 ≤ offset + codeWidth functions := by
  induction functions generalizing offset with
  | nil => cases h
  | cons f functions ih =>
    have hwidth : codeWidth (f :: functions) = f.width + codeWidth functions := rfl
    rcases List.mem_cons.1 h with rfl | h
    · exact Nat.le_add_right _ _
    · rw [hwidth, ← Nat.add_assoc]
      exact ih h

/-- The functions begin in their order. -/
theorem pairwise_starts : (starts offset functions).Pairwise fun p q => p.1 ≤ q.1 := by
  induction functions generalizing offset with
  | nil => exact .nil
  | cons f functions ih =>
    exact .cons (fun q hq => (Nat.le_add_right _ _).trans (le_of_mem_starts hq)) ih

/-- The last function that begins at or before an offset is the one that the offset is within. -/
theorem getLast?_takeWhile_starts {before after : List FunctionListing} {f : FunctionListing}
    {pc : Nat} (hle : codeWidth before ≤ pc) (hlt : pc < codeWidth before + f.width) :
    ((starts 0 (before ++ f :: after)).takeWhile fun p => p.1 ≤ pc).getLast? =
      some (codeWidth before, f.function) := by
  have hbefore : ∀ p ∈ starts 0 before, decide (p.1 ≤ pc) = true := by
    intro p hp
    have hp := le_of_starts_mem hp
    exact decide_eq_true (by omega)
  have hafter : (starts (codeWidth before + f.width) after).takeWhile
      (fun p => decide (p.1 ≤ pc)) = [] := by
    cases after with
    | nil => rfl
    | cons g after => exact List.takeWhile_cons_of_neg (by simpa using hlt)
  rw [starts_append, Nat.zero_add, starts, List.takeWhile_append_of_pos hbefore,
    List.takeWhile_cons_of_pos (by simpa using hle), hafter, List.getLast?_concat]

end Starts

namespace FunctionTable

/-- A function that begins after all others is put at the end. -/
theorem starts_of_insert? {t t' : FunctionTable} {e : FunctionEntry} (h : t.insert? e = some t')
    (hle : ∀ p ∈ t.starts.toList, p.1 ≤ e.start) :
    t'.starts.toList = t.starts.toList ++ [(e.start, e.function)] := by
  have hbefore : ∀ p ∈ t.starts.toList, decide (p.1 ≤ e.start) = true :=
    fun p hp => decide_eq_true (hle p hp)
  rw [(of_insert? h).2, toList_insert_starts, List.takeWhile_eq_self_iff.2 hbefore,
    List.dropWhile_eq_nil_iff.2 hbefore]
  exact List.pairwise_of_forall_mem_list fun p hp _ _ _ => hle p hp

/-- A table that functions are put into in the order in which they begin has them in that order. -/
theorem starts_of_foldlM {α ε : Type} {step : FunctionTable → α → Except ε FunctionTable}
    (view : α → Nat × LocalName)
    (hstep : ∀ t x t', step t x = .ok t' →
      ∃ entry, t.insert? ⟨(view x).2, (view x).1, entry⟩ = some t')
    {xs : List α} {t t' : FunctionTable} (h : xs.foldlM step t = .ok t')
    (hsorted : xs.Pairwise fun x y => (view x).1 ≤ (view y).1)
    (hle : ∀ p ∈ t.starts.toList, ∀ x ∈ xs, p.1 ≤ (view x).1) :
    t'.starts.toList = t.starts.toList ++ xs.map view := by
  induction xs generalizing t with
  | nil =>
    cases h
    exact (List.append_nil _).symm
  | cons x xs ih =>
    obtain ⟨t₁, hfirst, hrest⟩ := except_bind_eq_ok h
    obtain ⟨entry, hinsert⟩ := hstep t x t₁ hfirst
    obtain ⟨hx, hxs⟩ := List.pairwise_cons.1 hsorted
    have hstarts := starts_of_insert? hinsert fun p hp => hle p hp x List.mem_cons_self
    rw [ih hrest hxs ?_, hstarts, List.append_assoc]
    · rfl
    · intro p hp y hy
      rw [hstarts] at hp
      rcases List.mem_append.1 hp with hp | hp
      · exact hle p hp y (List.mem_cons_of_mem _ hy)
      · obtain rfl := List.mem_singleton.1 hp
        exact hx y hy

end FunctionTable

namespace Assembler

variable {a : Assembler}

/-- Instructions do not change the functions that are done. -/
theorem functions_of_forM {body : List Instruction} {a' : Assembler}
    (hrun : body.forM instruction a = .ok () a') : a'.functions = a.functions :=
  (Runs.forM (fun _ _ hb => runs_instruction_keeps hb (fun _ => hb) (fun _ _ _ => hb)
    (fun _ hmoved => hmoved.functions.trans hb)
    fun _ _ _ hadded => hadded.moved.functions.trans hb) body rfl).of_ok hrun

/-- A function that is done begins where the code before it ends. -/
theorem functions_of_function {f : FunctionListing} {a' : Assembler}
    (hrun : function f.function f.entry f.body.toList a = .ok () a') :
    a'.functions = a.functions.push (f.function, a.code.size, f.entry) := by
  refine (runs_function
    (fun a' => a'.functions = a.functions.push (f.function, a.code.size, f.entry))
    (runs_of_forall_ok ?_)).of_ok hrun
  rintro ⟨⟩ b hbody
  have hfunctions : b.functions = (a.opened f.function f.entry).functions :=
    functions_of_forM hbody
  refine ⟨trivial, fun place _ => ?_⟩
  show b.functions.push _ = _
  rw [hfunctions]
  rfl

/-- What is noted of a function that is done: where it begins, and its name. -/
def noted (e : LocalName × Nat × UInt32) : Nat × LocalName := (e.2.1, e.1)

/-- The functions that are done begin one after the other. -/
theorem Assembled.functions_eq {functions : List FunctionListing} (h : Assembled functions a) :
    a.functions.toList.map noted = starts 0 functions := by
  induction h with
  | start name => rfl
  | @function functions f a a' hassembled hrun ih =>
    obtain ⟨labels, ws, hprogram⟩ := hassembled.program
    have hsize : a.code.size = codeWidth functions := by
      rw [← Array.length_toList, hprogram.code, List.length_map, hprogram.coded.length_eq]
    rw [functions_of_function hrun, Array.toList_push, List.map_append, ih,
      starts_append, Nat.zero_add, ← hsize]
    rfl
  | addExport g _ ih => exact ih

/-- The table of functions has them in the order in which they were done. -/
theorem starts_of_functionTable {functions : List FunctionListing} {table : FunctionTable}
    (hassembled : Assembled functions a) (h : a.functionTable = .ok table) :
    table.starts.toList = starts 0 functions := by
  unfold functionTable at h
  rw [← Array.foldlM_toList] at h
  have hsorted : a.functions.toList.Pairwise fun x y => (noted x).1 ≤ (noted y).1 := by
    rw [← List.pairwise_map (f := noted) (R := fun p q => p.1 ≤ q.1), hassembled.functions_eq]
    exact pairwise_starts
  rw [FunctionTable.starts_of_foldlM noted ?_ h hsorted (fun p hp => by cases hp),
    hassembled.functions_eq]
  · rfl
  · rintro t ⟨f, start, label⟩ t' hstep
    obtain ⟨entry, -, hstep⟩ := except_bind_eq_ok hstep
    split at hstep
    case h_2 => cases hstep
    case h_1 inserted hinsert =>
      cases hstep
      exact ⟨entry, hinsert⟩

end Assembler

/-- An offset within a function belongs to that function. -/
theorem Listing.functionAt?_of_encloses (h : l.toModule = .ok m) {pc : Nat} {f : FunctionListing}
    (hencloses : l.Encloses pc f) : m.functionAt? pc = some f.function := by
  obtain ⟨a, hassembled, hfinish⟩ := assembled_of_toModule h
  obtain ⟨before, after, hfunctions, hle, hlt⟩ := hencloses
  have hstarts :=
    Assembler.starts_of_functionTable hassembled (Assembler.finished_of_finish hfinish).functions
  rw [hfunctions] at hstarts
  unfold Module.functionAt?
  rw [FunctionTable.enclosing?_eq (hstarts ▸ pairwise_starts), hstarts,
    getLast?_takeWhile_starts hle hlt]
  rfl

end ErlangMachine
