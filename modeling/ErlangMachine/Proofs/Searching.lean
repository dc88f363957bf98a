import ErlangMachine.Module.Search
import Mathlib.Data.List.Basic
import Mathlib.Data.List.TakeWhile

/-!
# What a search comes to

Halving keeps between its bounds the place up to which items do not come after what is searched for
(`halve_eq`). Everything else follows from that place, the `cut`: a search ends at the item before
it (`search_of_cut_succ`), and the point at which items are parted is the cut itself
(`partitionPoint_eq`). Items that stand in the order of some number have a cut (`cut_of_pairwise`).
-/

namespace ErlangMachine

variable {α : Type} {order : α → Ordering} {items : Array α} {count : Nat}

/-- The items that do not come after what is searched for are the first `count`. -/
structure Cut (order : α → Ordering) (items : Array α) (count : Nat) : Prop where
  /-- They are items. -/
  le_size : count ≤ items.size
  /-- An item comes after what is searched for if it is not one of them. -/
  gt_iff : ∀ {i : Nat} {x : α}, items[i]? = some x → (order x = .gt ↔ count ≤ i)

/-- Halving ends before the cut, if the cut is among the items that are halved. -/
theorem halve_eq (h : Cut order items count) {base size : Nat} (hbase : base ≤ count - 1)
    (hcount : count ≤ base + size) (hsize : base + size ≤ items.size) :
    halve order items base size = count - 1 := by
  fun_induction halve order items base size with
  | case1 base size hone => omega
  | case2 base size hmany half hafter ih =>
    have hmiddle : base + half < items.size := by omega
    have hcut : count ≤ base + half := by
      rw [← h.gt_iff (Array.getElem?_eq_getElem hmiddle)]
      simpa [hmiddle] using hafter
    exact ih hbase (by omega) (by omega)
  | case3 base size hmany half hafter ih =>
    have hmiddle : base + half < items.size := by omega
    have hcut : ¬ count ≤ base + half := by
      rw [← h.gt_iff (Array.getElem?_eq_getElem hmiddle)]
      simpa [hmiddle] using hafter
    exact ih (by omega) (by omega) (by omega)

/-- A search halves all items. -/
theorem halve_all (h : Cut order items count) : halve order items 0 items.size = count - 1 :=
  halve_eq h (Nat.zero_le _) (by rw [Nat.zero_add]; exact h.le_size) (by rw [Nat.zero_add])

/-- Nothing is found where all items come after what is searched for. -/
theorem search_of_cut_zero (h : Cut order items 0) : search order items = .vacant 0 := by
  unfold search
  dsimp only
  rw [halve_all h]
  cases hx : items[0 - 1]? with
  | none => rfl
  | some x =>
    have hafter : order x = .gt := (h.gt_iff hx).2 (Nat.zero_le _)
    simp [hafter]

/-- The item before the cut is found if it fits. -/
theorem search_of_cut_succ {last : Nat} {x : α} (h : Cut order items (last + 1))
    (hx : items[last]? = some x) :
    search order items = if order x = .eq then .found last else .vacant (last + 1) := by
  have hnot : order x ≠ .gt := fun hgt => absurd ((h.gt_iff hx).1 hgt) (by omega)
  unfold search
  dsimp only
  rw [halve_all h, Nat.add_sub_cancel, hx]
  cases hcompare : order x with
  | lt => simp [hcompare]
  | eq => simp [hcompare]
  | gt => exact absurd hcompare hnot

/-- What is found fits. -/
theorem exists_of_search_found (h : Cut order items count) {i : Nat}
    (hfound : search order items = .found i) : ∃ x, items[i]? = some x ∧ order x = .eq := by
  cases count with
  | zero =>
    rw [search_of_cut_zero h] at hfound
    cases hfound
  | succ last =>
    obtain ⟨x, hx⟩ : ∃ x, items[last]? = some x := ⟨_, Array.getElem?_eq_getElem h.le_size⟩
    rw [search_of_cut_succ h hx] at hfound
    split at hfound
    case isTrue heq =>
      cases hfound
      exact ⟨x, hx, heq⟩
    case isFalse => cases hfound

/-! ## Cuts of lists -/

/-- Where nothing that has a property comes after something that has not, an item has the property
if and only if it is one of those taken while they have it. -/
theorem lt_length_takeWhile_iff {p : α → Bool} {l : List α}
    (h : l.Pairwise fun x y => p y = true → p x = true) {i : Nat} {x : α} (hx : l[i]? = some x) :
    p x = true ↔ i < (l.takeWhile p).length := by
  induction l generalizing i with
  | nil => cases hx
  | cons y l ih =>
    obtain ⟨hy, hl⟩ := List.pairwise_cons.1 h
    cases hp : p y with
    | false =>
      rw [List.takeWhile_cons_of_neg (by simp [hp])]
      cases i with
      | zero =>
        obtain rfl : y = x := Option.some.inj hx
        simp [hp]
      | succ i =>
        have hxl : x ∈ l := List.mem_of_getElem? hx
        have hnot : p x ≠ true := fun hpx => Bool.noConfusion (hp.symm.trans (hy x hxl hpx))
        simp [hnot]
    | true =>
      rw [List.takeWhile_cons_of_pos hp, List.length_cons]
      cases i with
      | zero =>
        obtain rfl : y = x := Option.some.inj hx
        simp [hp]
      | succ i => rw [ih hl hx, Nat.succ_lt_succ_iff]

/-- Where those that have a property stand first, they are the ones taken while they have it. -/
theorem takeWhile_eq_filter {p : α → Bool} {l : List α}
    (h : l.Pairwise fun x y => p y = true → p x = true) : l.takeWhile p = l.filter p := by
  induction l with
  | nil => rfl
  | cons y l ih =>
    obtain ⟨hy, hl⟩ := List.pairwise_cons.1 h
    by_cases hp : p y = true
    · rw [List.takeWhile_cons_of_pos hp, List.filter_cons_of_pos hp, ih hl]
    · rw [List.takeWhile_cons_of_neg hp, List.filter_cons_of_neg hp]
      exact (List.filter_eq_nil_iff.2 fun x hx hpx => hp (hy x hx hpx)).symm

/-- Where those that have a property stand first, the ones left do not have it. -/
theorem not_of_mem_dropWhile {p : α → Bool} {l : List α}
    (h : l.Pairwise fun x y => p y = true → p x = true) {x : α} (hx : x ∈ l.dropWhile p) :
    ¬ p x = true := by
  induction l with
  | nil => cases hx
  | cons y l ih =>
    obtain ⟨hy, hl⟩ := List.pairwise_cons.1 h
    by_cases hp : p y = true
    · rw [List.dropWhile_cons_of_pos hp] at hx
      exact ih hl hx
    · rw [List.dropWhile_cons_of_neg hp] at hx
      rcases List.mem_cons.1 hx with rfl | hx
      · exact hp
      · exact fun hpx => hp (hy x hx hpx)

/-- A key that no two items share leads to what the item with that key has. -/
theorem map_find?_eq_some_iff {γ κ ν : Type} [DecidableEq κ] {key : γ → κ} {value : γ → ν}
    {l : List γ} (h : l.Pairwise fun x y => key x ≠ key y) {k : κ} {v : ν} :
    (l.find? fun x => key x = k).map value = some v ↔ ∃ x ∈ l, key x = k ∧ value x = v := by
  induction l with
  | nil => simp
  | cons y l ih =>
    obtain ⟨hy, hl⟩ := List.pairwise_cons.1 h
    by_cases hk : key y = k
    · have hothers : ∀ x ∈ l, key x ≠ k := fun x hx hkx => hy x hx (hk.trans hkx.symm)
      simp only [List.find?_cons, hk, decide_true, Option.map_some, Option.some.injEq,
        List.exists_mem_cons_iff, true_and]
      exact ⟨.inl, fun h => h.resolve_right fun ⟨x, hx, hkx, _⟩ => hothers x hx hkx⟩
    · simp only [List.find?_cons, hk, decide_false, List.exists_mem_cons_iff, false_and, false_or]
      exact ih hl

/-- An item is put between the two. -/
theorem insertIdx_length_takeWhile (p : α → Bool) (l : List α) (x : α) :
    l.insertIdx (l.takeWhile p).length x = l.takeWhile p ++ x :: l.dropWhile p := by
  induction l with
  | nil => rfl
  | cons y l ih =>
    by_cases hp : p y = true
    · rw [List.takeWhile_cons_of_pos hp, List.dropWhile_cons_of_pos hp, List.length_cons,
        List.insertIdx_succ_cons, ih, List.cons_append]
    · rw [List.takeWhile_cons_of_neg hp, List.dropWhile_cons_of_neg hp]
      rfl

/-- Items at the front of which a property holds are cut there. -/
theorem cut_of_takeWhile {p : α → Bool} (horder : ∀ x, order x ≠ .gt ↔ p x = true)
    (h : items.toList.Pairwise fun x y => p y = true → p x = true) :
    Cut order items (items.toList.takeWhile p).length where
  le_size := by
    exact (List.takeWhile_prefix p).length_le
  gt_iff := by
    intro i x hx
    rw [← Array.getElem?_toList] at hx
    rw [← not_iff_not, ← Ne, horder, lt_length_takeWhile_iff h hx, Nat.not_le]

/-- Items in the order of some number are cut where the number passes what is searched for. -/
theorem cut_of_pairwise {key : α → Nat} {target : Nat}
    (h : items.toList.Pairwise fun x y => key x ≤ key y) :
    Cut (fun x => compare (key x) target) items
      (items.toList.takeWhile fun x => key x ≤ target).length := by
  refine cut_of_takeWhile (fun x => ?_) (h.imp fun hxy hy => ?_)
  · simp [Nat.compare_ne_gt]
  · exact decide_eq_true (hxy.trans (of_decide_eq_true hy))

/-- If nothing is found, no item has the number that is searched for. -/
theorem forall_ne_of_search_vacant {key : α → Nat} {target : Nat}
    (h : items.toList.Pairwise fun x y => key x ≤ key y) {i : Nat}
    (hvacant : search (fun x => compare (key x) target) items = .vacant i) :
    ∀ x ∈ items, key x ≠ target := by
  obtain ⟨count, hcut⟩ : ∃ count, Cut (fun x => compare (key x) target) items count :=
    ⟨_, cut_of_pairwise h⟩
  rintro x hx rfl
  obtain ⟨j, hj⟩ := Array.mem_iff_getElem?.1 hx
  have hbefore : j < count := by
    rw [← Nat.not_le, ← hcut.gt_iff hj]
    simp
  obtain ⟨last, rfl⟩ : ∃ last, count = last + 1 := ⟨count - 1, by omega⟩
  obtain ⟨y, hy⟩ : ∃ y, items[last]? = some y := ⟨_, Array.getElem?_eq_getElem hcut.le_size⟩
  -- The item before the cut has the number too, so it would have been found.
  have hle : key y ≤ key x := by
    rw [← Nat.compare_ne_gt, Ne, hcut.gt_iff hy]
    omega
  have hge : key x ≤ key y := by
    rw [← Array.getElem?_toList] at hj hy
    rcases Nat.lt_or_eq_of_le (Nat.le_of_lt_succ hbefore) with hlt | rfl
    · obtain ⟨hj', rfl⟩ := List.getElem?_eq_some_iff.1 hj
      obtain ⟨hy', rfl⟩ := List.getElem?_eq_some_iff.1 hy
      exact List.pairwise_iff_getElem.1 h j last hj' hy' hlt
    · rw [Option.some.inj (hj.symm.trans hy)]
  rw [search_of_cut_succ hcut hy, if_pos (Nat.compare_eq_eq.2 (Nat.le_antisymm hle hge))] at hvacant
  cases hvacant

/-- Items are parted where the first that does not have the property stands. -/
theorem partitionPoint_eq {p : α → Bool}
    (h : items.toList.Pairwise fun x y => p y = true → p x = true) :
    partitionPoint p items = (items.toList.takeWhile p).length := by
  have hcut : Cut (fun x => if p x then .lt else .gt) items (items.toList.takeWhile p).length :=
    cut_of_takeWhile (fun x => by cases p x <;> simp) h
  unfold partitionPoint
  cases hcount : (items.toList.takeWhile p).length with
  | zero =>
    rw [hcount] at hcut
    rw [search_of_cut_zero hcut]
  | succ last =>
    rw [hcount] at hcut
    have hlast : last < items.size := hcut.le_size
    rw [search_of_cut_succ hcut (Array.getElem?_eq_getElem hlast), if_neg]
    split <;> simp

end ErlangMachine
