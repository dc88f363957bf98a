import ErlangMachine.Module.JumpTable
import ErlangMachine.Proofs.Searching
import ErlangMachine.Proofs.TermOrder

/-!
# Jump tables

A jump table gives the target of the first of its entries that fits, whatever it does to find it. A
value table keeps the entries that have a key apart from the others. That does no harm, because
values that are exactly equal have the same key or none (`Key.exactEq_iff`): adding an entry gives a
target to those values that have had none (`ValueTable.lookup_add`), and so does adding many
(`ValueTable.lookup_foldl`). The first entry that is exactly equal wins
(`ValueTable.first_equal_entry_wins`).

An arity table sorts its entries, drops those that repeat a size and halves what is left. Sorting
and dropping keep the first entry of each size (`find?_mergeSort`, `find?_eraseRepsBy`) and leave
the sizes in strict order (`ArityTable.pairwise_ofList`), in which halving finds them
(`ArityTable.lookup_eq_find?`). The first entry of a size wins
(`ArityTable.first_entry_of_size_wins`).
-/

namespace ErlangMachine

/-! ## Tables of values -/

namespace Key

/-- Values that are exactly equal have the same key or none. -/
theorem ofTerm?_eq_of_exactEq {s t : Term} (h : s.exactEq t = true) : ofTerm? s = ofTerm? t := by
  have hrank := Term.rank_of_exactEq h
  cases s <;> cases t <;> first
    | rfl
    | cases hrank
  case integer.integer a b =>
    have hvalue : a.toInt = b.toInt := by simpa [Term.exactEq, Term.compare] using h
    rw [Int64.toInt_inj.1 hvalue]
  case integer.float a x => simp [Term.exactEq] at h
  case float.integer x a => simp [Term.exactEq] at h
  case atom.atom a b =>
    have hname : compare a b = .eq := by simpa [Term.exactEq, Term.compare] using h
    rw [(Term.compare_atom_eq_iff a b).1 hname]

/-- A key tells its value. -/
theorem eq_of_ofTerm? {s t : Term} {key : Key} (hs : ofTerm? s = some key)
    (ht : ofTerm? t = some key) : s = t := by
  cases s <;> cases hs <;> cases t <;> cases ht <;> rfl

/-- A value with a key is exactly equal to the values with that key. -/
theorem exactEq_iff {s t : Term} {key : Key} (h : ofTerm? s = some key) :
    s.exactEq t = true ↔ ofTerm? t = some key := by
  constructor
  · exact fun heq => (ofTerm?_eq_of_exactEq heq).symm.trans h
  · intro ht
    rw [eq_of_ofTerm? h ht]
    exact Term.exactEq_self t

end Key

namespace ValueTable

/-- A value with a key is looked up by its key. -/
theorem lookup_of_key {value : Term} {key : Key} (h : Key.ofTerm? value = some key)
    (t : ValueTable) : t.lookup value = t.keyed.lookup key := by
  unfold lookup
  rw [h]

/-- A value without a key is compared with one entry after another. -/
theorem lookup_of_no_key {value : Term} (h : Key.ofTerm? value = none) (t : ValueTable) :
    t.lookup value = (t.linear.find? fun e => e.1.exactEq value).map (·.2) := by
  unfold lookup
  rw [h]

/-- An entry with a key. -/
theorem lookup_add_of_key {entry : Term × Nat} {key : Key} (h : Key.ofTerm? entry.1 = some key)
    (t : ValueTable) (value : Term) :
    (t.add entry).lookup value =
      (t.lookup value).or (if entry.1.exactEq value then some entry.2 else none) := by
  have hadd : t.add entry =
      if (t.keyed.lookup key).isSome then t else { t with keyed := (key, entry.2) :: t.keyed } := by
    unfold add
    rw [h]
  rw [hadd]
  simp only [Key.exactEq_iff h]
  cases hvalue : Key.ofTerm? value with
  | none =>
    rw [lookup_of_no_key hvalue, lookup_of_no_key hvalue]
    split <;> simp
  | some key' =>
    rw [lookup_of_key hvalue, lookup_of_key hvalue]
    -- A value with the entry's key gets its target if the key is new, and keeps its own if not.
    by_cases hkey : key' = key
    · subst hkey
      cases hfound : t.keyed.lookup key' <;> simp [hfound]
    · have hother : (key' == key) = false := beq_false_of_ne hkey
      split <;> simp [hkey, List.lookup_cons, hother]

/-- An entry without one. -/
theorem lookup_add_of_no_key {entry : Term × Nat} (h : Key.ofTerm? entry.1 = none)
    (t : ValueTable) (value : Term) :
    (t.add entry).lookup value =
      (t.lookup value).or (if entry.1.exactEq value then some entry.2 else none) := by
  have hadd : t.add entry = { t with linear := t.linear ++ [entry] } := by
    unfold add
    rw [h]
  rw [hadd]
  cases hvalue : Key.ofTerm? value with
  | none =>
    rw [lookup_of_no_key hvalue, lookup_of_no_key hvalue, List.find?_append]
    cases hfits : entry.1.exactEq value <;> simp [hfits]
  | some key =>
    have hdiffers : ¬ entry.1.exactEq value = true := by
      intro heq
      have hkeys := Key.ofTerm?_eq_of_exactEq heq
      rw [h, hvalue] at hkeys
      cases hkeys
    rw [lookup_of_key hvalue, lookup_of_key hvalue, if_neg hdiffers, Option.or_none]

/-- One more entry gives its target to values that are exactly equal and have had none. -/
theorem lookup_add (t : ValueTable) (entry : Term × Nat) (value : Term) :
    (t.add entry).lookup value =
      (t.lookup value).or (if entry.1.exactEq value then some entry.2 else none) := by
  cases h : Key.ofTerm? entry.1 with
  | some key => exact lookup_add_of_key h t value
  | none => exact lookup_add_of_no_key h t value

/-- More entries give their targets to values that have had none, the first that fits. -/
theorem lookup_foldl (entries : List (Term × Nat)) (t : ValueTable) (value : Term) :
    (entries.foldl add t).lookup value =
      (t.lookup value).or ((entries.find? fun e => e.1.exactEq value).map (·.2)) := by
  induction entries generalizing t with
  | nil => simp
  | cons entry entries ih =>
    rw [List.foldl_cons, ih, lookup_add, Option.or_assoc, List.find?_cons]
    cases entry.1.exactEq value <;> simp

/-- A table that has none gives no target. -/
theorem lookup_empty (value : Term) : empty.lookup value = none := by
  cases h : Key.ofTerm? value with
  | some key => rw [lookup_of_key h]; rfl
  | none => rw [lookup_of_no_key h]; rfl

/-- What a table gives is the target of one of its entries. -/
theorem exists_mem_of_lookup {entries : List (Term × Nat)} {value : Term} {target : Nat}
    (h : (ofList entries).lookup value = some target) : ∃ key, (key, target) ∈ entries := by
  rw [ofList, lookup_foldl, lookup_empty, Option.none_or] at h
  obtain ⟨entry, hfound, rfl⟩ := Option.map_eq_some_iff.1 h
  exact ⟨entry.1, List.mem_of_find?_eq_some hfound⟩

/-- A table of values gives the target of the first of its entries whose value is exactly equal,
whatever their kinds and however often a value stands among them, and nothing if there is none. -/
theorem first_equal_entry_wins (entries : List (Term × Nat)) (value : Term) :
    (ofList entries).lookup value = (entries.find? fun e => e.1.exactEq value).map (·.2) := by
  rw [ofList, lookup_foldl, lookup_empty, Option.none_or]

end ValueTable

/-! ## Tables of tuple sizes -/

section Sorting

variable {α : Type} {key : α → Nat}

/-- Numbers can be sorted by. -/
theorem key_le_trans (x y z : α) (hxy : decide (key x ≤ key y) = true)
    (hyz : decide (key y ≤ key z) = true) : decide (key x ≤ key z) = true :=
  decide_eq_true (Nat.le_trans (of_decide_eq_true hxy) (of_decide_eq_true hyz))

@[inherit_doc key_le_trans]
theorem key_le_total (x y : α) : (decide (key x ≤ key y) || decide (key y ≤ key x)) = true := by
  simpa using Nat.le_total (key x) (key y)

/-- A sort by some number puts the numbers in order. -/
theorem pairwise_mergeSort_key (l : List α) :
    (l.mergeSort fun x y => key x ≤ key y).Pairwise fun x y => key x ≤ key y :=
  (List.pairwise_mergeSort key_le_trans key_le_total l).imp of_decide_eq_true

/-- Items with the same number keep their order. -/
theorem filter_mergeSort (l : List α) (k : Nat) :
    (l.mergeSort fun x y => key x ≤ key y).filter (fun x => key x = k) =
      l.filter fun x => key x = k := by
  have hequal : (l.filter fun x => key x = k).Pairwise fun x y => decide (key x ≤ key y) = true :=
    List.pairwise_of_forall_mem_list fun x hx y hy => by
      simp only [List.mem_filter, decide_eq_true_eq] at hx hy ⊢
      rw [hx.2, hy.2]
  -- Items that stand in order before a stable sort stand in the same order after it.
  have hsub : (l.filter fun x => key x = k).Sublist (l.mergeSort fun x y => key x ≤ key y) :=
    List.sublist_mergeSort key_le_trans key_le_total hequal List.filter_sublist
  have hfilter := hsub.filter fun x => key x = k
  rw [List.filter_filter, List.filter_congr fun _ _ => Bool.and_self _] at hfilter
  exact (hfilter.eq_of_length (((List.mergeSort_perm l _).filter _).length_eq).symm).symm

/-- The first item with a number stays the first when items are sorted. -/
theorem find?_mergeSort (l : List α) (k : Nat) :
    (l.mergeSort fun x y => key x ≤ key y).find? (fun x => key x = k) =
      l.find? fun x => key x = k := by
  rw [← List.head?_filter, filter_mergeSort, List.head?_filter]

/-- The first item with a number stays the first where an item that has the number of the item
before it is dropped. The items that have been kept stand in `kept`, the last of them is `x`. -/
theorem find?_eraseRepsBy_loop (l : List α) (x : α) (kept : List α) (k : Nat) :
    (List.eraseRepsBy.loop (fun x y => key x == key y) x l kept).find? (fun x => key x = k) =
      (kept.reverse ++ x :: l).find? fun x => key x = k := by
  induction l generalizing x kept with
  | nil => simp [List.eraseRepsBy.loop]
  | cons y l ih =>
    simp only [List.eraseRepsBy.loop]
    split
    case h_1 hsame =>
      -- The item that is dropped would be found only where the one before it is.
      rw [ih, List.find?_append, List.find?_append]
      simp only [List.find?_cons, ← eq_of_beq hsame]
      split <;> rfl
    case h_2 => rw [ih, List.reverse_cons, List.append_assoc, List.singleton_append]

@[inherit_doc find?_eraseRepsBy_loop]
theorem find?_eraseRepsBy (l : List α) (k : Nat) :
    (l.eraseRepsBy fun x y => key x == key y).find? (fun x => key x = k) =
      l.find? fun x => key x = k := by
  cases l with
  | nil => rfl
  | cons x l => exact find?_eraseRepsBy_loop l x [] k

/-- Dropping them leaves numbers that stand in order in strict order. -/
theorem pairwise_eraseRepsBy_loop {l : List α} {x : α} {kept : List α}
    (hl : (x :: l).Pairwise fun x y => key x ≤ key y)
    (hkept : (kept.reverse ++ [x]).Pairwise fun x y => key x < key y) :
    (List.eraseRepsBy.loop (fun x y => key x == key y) x l kept).Pairwise
      fun x y => key x < key y := by
  induction l generalizing x kept with
  | nil => simpa [List.eraseRepsBy.loop] using hkept
  | cons y l ih =>
    obtain ⟨hx, hyl⟩ := List.pairwise_cons.1 hl
    simp only [List.eraseRepsBy.loop]
    split
    case h_1 =>
      refine ih (List.pairwise_cons.2 ⟨fun z hz => hx z (.tail _ hz), ?_⟩) hkept
      exact (List.pairwise_cons.1 hyl).2
    case h_2 hdiffer =>
      have hxy : key x < key y :=
        Nat.lt_of_le_of_ne (hx y (.head _)) fun h => by simp [h] at hdiffer
      refine ih hyl ?_
      rw [List.reverse_cons]
      refine List.pairwise_append.2 ⟨hkept, List.pairwise_singleton _ _, fun z hz w hw => ?_⟩
      cases List.mem_singleton.1 hw
      rcases List.mem_append.1 hz with hz | hz
      · exact Nat.lt_trans ((List.pairwise_append.1 hkept).2.2 z hz x (.head _)) hxy
      · rwa [List.mem_singleton.1 hz]

@[inherit_doc pairwise_eraseRepsBy_loop]
theorem pairwise_eraseRepsBy {l : List α} (h : l.Pairwise fun x y => key x ≤ key y) :
    (l.eraseRepsBy fun x y => key x == key y).Pairwise fun x y => key x < key y := by
  cases l with
  | nil => exact .nil
  | cons x l => exact pairwise_eraseRepsBy_loop h (List.pairwise_singleton _ _)

end Sorting

namespace ArityTable

/-- The sizes of a table stand in strict order. -/
theorem pairwise_ofList (entries : List (Nat × Nat)) :
    (ofList entries).entries.toList.Pairwise fun e e' => e.1 < e'.1 :=
  pairwise_eraseRepsBy (pairwise_mergeSort_key entries)

/-- In such an order halving finds what looking at one entry after another would. -/
theorem lookup_eq_find? {t : ArityTable}
    (h : t.entries.toList.Pairwise fun e e' => e.1 < e'.1) (arity : Nat) :
    t.lookup arity = (t.entries.toList.find? fun e => e.1 = arity).map (·.2) := by
  have hsorted : t.entries.toList.Pairwise fun e e' => e.1 ≤ e'.1 := h.imp Nat.le_of_lt
  unfold lookup
  cases hsearch : search (fun e => compare e.1 arity) t.entries with
  | found index =>
    obtain ⟨e, he, hfits⟩ := exists_of_search_found (cut_of_pairwise hsorted) hsearch
    have hmem : e ∈ t.entries.toList := Array.mem_toList_iff.2 (Array.mem_of_getElem? he)
    have hfind : (t.entries.toList.find? fun e => e.1 = arity).map (·.2) = some e.2 :=
      (map_find?_eq_some_iff (h.imp Nat.ne_of_lt)).2 ⟨e, hmem, Nat.compare_eq_eq.1 hfits, rfl⟩
    rw [hfind]
    simp only [he, Option.map_some]
  | vacant index =>
    have hnone := forall_ne_of_search_vacant hsorted hsearch
    have hfind : (t.entries.toList.find? fun e => e.1 = arity) = none :=
      List.find?_eq_none.2 fun e he => by simpa using hnone e (Array.mem_toList_iff.1 he)
    rw [hfind]
    rfl

/-- Sorting and dropping do not change what is the first entry of a size. -/
theorem find?_ofList (entries : List (Nat × Nat)) (arity : Nat) :
    ((ofList entries).entries.toList.find? fun e => e.1 = arity) =
      entries.find? fun e => e.1 = arity := by
  unfold ofList
  dsimp only
  rw [find?_eraseRepsBy, find?_mergeSort]

/-- What a table gives is the target of one of its entries. -/
theorem exists_mem_of_lookup {entries : List (Nat × Nat)} {arity target : Nat}
    (h : (ofList entries).lookup arity = some target) : ∃ key, (key, target) ∈ entries := by
  rw [lookup_eq_find? (pairwise_ofList entries), find?_ofList] at h
  obtain ⟨entry, hfound, rfl⟩ := Option.map_eq_some_iff.1 h
  exact ⟨entry.1, List.mem_of_find?_eq_some hfound⟩

/-- A table of sizes gives the target of the first of its entries that has the size, in whatever
order they are given and however often a size stands among them, and nothing if there is none. -/
theorem first_entry_of_size_wins (entries : List (Nat × Nat)) (arity : Nat) :
    (ofList entries).lookup arity = (entries.find? fun e => e.1 = arity).map (·.2) := by
  rw [lookup_eq_find? (pairwise_ofList entries), find?_ofList]

end ArityTable

end ErlangMachine
