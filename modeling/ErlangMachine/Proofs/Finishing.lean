import Mathlib.Data.List.Forall2
import ErlangMachine.Proofs.Assembly

/-!
# Finishing a module

What `Assembler.finish` makes of an assembler that it accepts. `Finished` gathers it, table by
table. `Finished.code_eq` is about the code: if the code words are known as words of the assembler,
where labels are names, then each of these labels has a place and the module's code is the same
words with places for labels. The proof, in `foldlM_pending`, goes through the words from left to
right; what is to the left is filled in already, what is to the right still has zeros for labels,
and the notes on labels not yet filled in are those on the words to the right.
-/

namespace ErlangMachine

variable {α β : Type}

/-- A computation and then another that gave a result both gave one. -/
theorem except_bind_eq_ok {ε : Type} {x : Except ε α} {next : α → Except ε β} {y : β}
    (h : (x >>= next) = .ok y) : ∃ z, x = .ok z ∧ next z = .ok y := by
  cases x with
  | ok z => exact ⟨z, rfl, h⟩
  | error e => cases h

/-- The results of a computation on each element, in their order. -/
theorem forall₂_of_mapM_ok {ε : Type} {f : α → Except ε β} {xs : List α} {ys : List β}
    (h : xs.mapM f = .ok ys) : List.Forall₂ (fun x y => f x = .ok y) xs ys := by
  induction xs generalizing ys with
  | nil =>
    cases h
    exact .nil
  | cons x xs ih =>
    rw [List.mapM_cons] at h
    obtain ⟨y, hy, h⟩ := except_bind_eq_ok h
    obtain ⟨ys, hys, h⟩ := except_bind_eq_ok h
    cases h
    exact .cons hy (ih hys)

/-- The results of a computation on each entry of a table, at their places. -/
theorem getElem?_of_mapM_ok {ε : Type} {f : α → Except ε β} {xs : Array α} {ys : Array β}
    (h : xs.mapM f = .ok ys) : List.Forall₂ (fun x y => f x = .ok y) xs.toList ys.toList := by
  rw [Array.mapM_eq_mapM_toList] at h
  cases hlist : xs.toList.mapM f with
  | error e => rw [hlist] at h; cases h
  | ok list =>
    rw [hlist] at h
    cases h
    exact forall₂_of_mapM_ok hlist

/-- Related lists have related entries at each place. -/
theorem getElem?_of_forall₂ {rel : α → β → Prop} {xs : Array α} {ys : Array β}
    (h : List.Forall₂ rel xs.toList ys.toList) {k : Nat} {x : α} (hx : xs[k]? = some x) :
    ∃ y, ys[k]? = some y ∧ rel x y := by
  obtain ⟨hk, rfl⟩ := Array.getElem?_eq_some_iff.1 hx
  have hk' : k < ys.size := by
    rw [← Array.length_toList, ← h.length_eq]
    exact hk
  exact ⟨ys[k], Array.getElem?_eq_getElem hk', h.get hk hk'⟩

/-- What is in the second of two related lists is related to something in the first. -/
theorem exists_of_forall₂ {rel : α → β → Prop} {xs : List α} {ys : List β}
    (h : List.Forall₂ rel xs ys) {y : β} (hy : y ∈ ys) : ∃ x ∈ xs, rel x y := by
  induction h with
  | nil => cases hy
  | @cons x y' xs ys hxy _ ih =>
    rcases List.mem_cons.1 hy with rfl | hy
    · exact ⟨x, .head _, hxy⟩
    · obtain ⟨x', hx', hrel⟩ := ih hy
      exact ⟨x', .tail _ hx', hrel⟩

namespace Assembler

variable {a : Assembler}

/-- The word that a label becomes. -/
def place (a : Assembler) (n : UInt32) : UInt16 :=
  match a.labelWord n with
  | .ok w => w
  | .error _ => 0

/-- A label that is resolved has been noted. -/
theorem lookup_of_resolve {n : UInt32} {offset : Nat} (h : a.resolve n = .ok offset) :
    a.labels.lookup n = some offset := by
  unfold resolve at h
  split at h
  case h_1 heq => cases h; exact heq
  case h_2 => cases h

/-- A label word is the offset at which the label stands, and no offset is mistaken for the word
that stands for no label. -/
theorem lookup_of_labelWord {n : UInt32} {w : UInt16} (h : a.labelWord n = .ok w) :
    a.labels.lookup n = some w.toNat ∧ w ≠ noLabel := by
  obtain ⟨offset, hoffset, h⟩ := except_bind_eq_ok h
  have hlookup := lookup_of_resolve hoffset
  split at h
  case isTrue hlt =>
    unfold codeLimit at hlt
    cases h
    have hnat : (UInt16.ofNat offset).toNat = offset := by
      rw [UInt16.toNat_ofNat', Nat.mod_eq_of_lt (by omega)]
    refine ⟨by rw [hlookup, hnat], fun hno => ?_⟩
    rw [hno] at hnat
    exact absurd hnat (by unfold noLabel; show ¬(65535 = offset); omega)
  case isFalse => cases h

/-- A jump table gets the offsets at which its labels stand. -/
theorem forall₂_of_resolveTable {α : Type} {table : List (α × UInt32)} {resolved : List (α × Nat)}
    (h : a.resolveTable table = .ok resolved) :
    List.Forall₂ (fun e e' => e'.1 = e.1 ∧ a.labels.lookup e.2 = some e'.2) table resolved := by
  refine (forall₂_of_mapM_ok h).imp fun e e' he => ?_
  obtain ⟨offset, hoffset, he⟩ := except_bind_eq_ok he
  cases he
  exact ⟨rfl, lookup_of_resolve hoffset⟩

/-- Filling in the labels among `ws`, which follow `filled`. -/
theorem foldlM_pending (ws : List Word) (filled : List UInt16) {code code' : Array UInt16}
    (hcode : code.toList = filled ++ ws.map (Word.value fun _ => 0))
    (h : (pending filled.length ws).foldlM
      (fun code (i, n) => return code.setIfInBounds i (← a.labelWord n)) code = .ok code') :
    code'.toList = filled ++ ws.map (Word.value a.place) ∧
      ∀ n, Word.label n ∈ ws → a.labelWord n = .ok (a.place n) := by
  -- One word after another moves from what is to be filled in to what has been.
  induction ws generalizing filled code with
  | nil =>
    cases h
    exact ⟨hcode, nofun⟩
  | cons w ws ih =>
    cases w with
    | raw w =>
      have hnext : code.toList = (filled ++ [w]) ++ ws.map (Word.value fun _ => 0) := by
        rw [hcode, List.append_assoc]
        rfl
      obtain ⟨hcode', hlabels⟩ := ih _ hnext (by rw [List.length_append]; exact h)
      refine ⟨by rw [hcode', List.append_assoc]; rfl, fun n hn => hlabels n ?_⟩
      cases hn with
      | tail _ hn => exact hn
    | label n =>
      obtain ⟨code₁, hfirst, h⟩ := except_bind_eq_ok h
      obtain ⟨w, hw, hfirst⟩ := except_bind_eq_ok hfirst
      cases hfirst
      have hplace : a.place n = w := by
        unfold place
        rw [hw]
      have hnext : (code.setIfInBounds filled.length w).toList =
          (filled ++ [w]) ++ ws.map (Word.value fun _ => 0) := by
        rw [Array.toList_setIfInBounds, hcode, List.set_append_right _ _ (Nat.le_refl _),
          Nat.sub_self, List.append_assoc]
        rfl
      obtain ⟨hcode', hlabels⟩ := ih _ hnext (by rw [List.length_append]; exact h)
      refine ⟨?_, fun m hm => ?_⟩
      · rw [hcode', List.append_assoc, List.map_cons, Word.value, hplace]
        rfl
      · cases hm with
        | head => rw [hplace, hw]
        | tail _ hm => exact hlabels m hm

/-- What finishing gives. -/
structure Finished (a : Assembler) (m : Module) : Prop where
  /-- Labels are filled in. -/
  code : a.resolvedCode = .ok m.code
  /-- The constants are those pooled. -/
  constants : m.constants = a.constants
  /-- The imports are those pooled. -/
  imports : m.imports = a.imports
  /-- The jump tables of values get places for labels. -/
  valueTables : List.Forall₂
    (fun table table' =>
      ∃ resolved, a.resolveTable table = .ok resolved ∧ table' = .ofList resolved)
    a.valueTables.toList m.valueTables.toList
  /-- The jump tables of tuple sizes get places for labels. -/
  arityTables : List.Forall₂
    (fun table table' =>
      ∃ resolved, a.resolveTable table = .ok resolved ∧ table' = .ofList resolved)
    a.arityTables.toList m.arityTables.toList
  /-- The functions. -/
  functions : a.functionTable = .ok m.functions
  /-- Exported functions are entered where their table says. -/
  exports : List.Forall₂ (fun f e => resolveExport m.functions f = .ok e) a.exports.toList m.exports

/-- A module that was finished. -/
theorem finished_of_finish {m : Module} (h : a.finish = .ok m) : Finished a m := by
  obtain ⟨code, hcode, h⟩ := except_bind_eq_ok h
  obtain ⟨valueTables, hvalues, h⟩ := except_bind_eq_ok h
  obtain ⟨arityTables, harities, h⟩ := except_bind_eq_ok h
  obtain ⟨functions, hfunctions, h⟩ := except_bind_eq_ok h
  obtain ⟨exports, hexports, h⟩ := except_bind_eq_ok h
  cases h
  refine ⟨hcode, rfl, rfl, ?_, ?_, hfunctions, forall₂_of_mapM_ok hexports⟩
  · refine (getElem?_of_mapM_ok hvalues).imp fun table table' htable => ?_
    obtain ⟨resolved, hresolved, htable⟩ := except_bind_eq_ok htable
    cases htable
    exact ⟨resolved, hresolved, rfl⟩
  · refine (getElem?_of_mapM_ok harities).imp fun table table' htable => ?_
    obtain ⟨resolved, hresolved, htable⟩ := except_bind_eq_ok htable
    cases htable
    exact ⟨resolved, hresolved, rfl⟩

/-- The code of a finished module, given the words that were written. -/
theorem Finished.code_eq {m : Module} {ws : List Word} (h : Finished a m)
    (hcode : a.code.toList = ws.map (Word.value fun _ => 0))
    (hfixups : a.fixups.toList = pending 0 ws) :
    m.code.toList = ws.map (Word.value a.place) ∧
      ∀ n, Word.label n ∈ ws → a.labelWord n = .ok (a.place n) := by
  have hfold := h.code
  unfold resolvedCode at hfold
  rw [← Array.foldlM_toList, hfixups] at hfold
  exact foldlM_pending ws [] hcode hfold

end Assembler

end ErlangMachine
