import ErlangMachine.Proofs.Equality
import ErlangMachine.Proofs.Searching
import Mathlib.Data.List.Nodup
import Mathlib.Data.List.Perm.Basic

/-!
# Tables of functions

A table of functions keeps two accounts of what it was given: a correspondence of names and entries,
and the offsets at which functions begin, in order. `Holds` says that both are accounts of the same
functions. Adding a function keeps that, and a function that is refused leaves the table as it was
(`Holds.insert_cases`).

`offered_functions` says this of a table that functions were offered to one after another. Names and
entries lead to each other for exactly those that were taken, and an offset belongs to the one of
them that begins last before it.
-/

namespace ErlangMachine

/-! ## Correspondences -/

namespace Correspondence

variable {α β : Type} {c c' : Correspondence α β} {a : α} {b : β}

/-- No value stands in two pairs. -/
def OneToOne (c : Correspondence α β) : Prop :=
  c.pairs.Pairwise fun p q => p.1 ≠ q.1 ∧ p.2 ≠ q.2

/-- From the left side to the right. -/
theorem right?_eq_some_iff [DecidableEq α] (h : c.OneToOne) :
    c.right? a = some b ↔ (a, b) ∈ c.pairs := by
  have hkeys : c.pairs.Pairwise fun p q => p.1 ≠ q.1 := h.imp And.left
  rw [right?, map_find?_eq_some_iff hkeys]
  exact ⟨fun ⟨_, hp, ha, hb⟩ => ha ▸ hb ▸ hp, fun hp => ⟨_, hp, rfl, rfl⟩⟩

/-- From the right side to the left. -/
theorem left?_eq_some_iff [DecidableEq β] (h : c.OneToOne) :
    c.left? b = some a ↔ (a, b) ∈ c.pairs := by
  have hkeys : c.pairs.Pairwise fun p q => p.2 ≠ q.2 := h.imp And.right
  rw [left?, map_find?_eq_some_iff hkeys]
  exact ⟨fun ⟨_, hp, hb, ha⟩ => ha ▸ hb ▸ hp, fun hp => ⟨_, hp, rfl, rfl⟩⟩

variable [DecidableEq α] [DecidableEq β]

/-- A pair is taken if no pair shares a side with it, and else refused. -/
theorem insert?_cases (c : Correspondence α β) (a : α) (b : β) :
    (c.insert? a b = none ∧ ∃ p ∈ c.pairs, p.1 = a ∨ p.2 = b) ∨
      c.insert? a b = some ⟨(a, b) :: c.pairs⟩ ∧ ∀ p ∈ c.pairs, p.1 ≠ a ∧ p.2 ≠ b := by
  have hright : (c.right? a).isSome = true ↔ ∃ p ∈ c.pairs, p.1 = a := by
    simp [right?, List.find?_isSome]
  have hleft : (c.left? b).isSome = true ↔ ∃ p ∈ c.pairs, p.2 = b := by
    simp [left?, List.find?_isSome]
  unfold insert?
  split
  case isTrue htaken =>
    left
    rcases Bool.or_eq_true_iff.1 htaken with h | h
    · obtain ⟨p, hp, hpa⟩ := hright.1 h
      exact ⟨rfl, p, hp, .inl hpa⟩
    · obtain ⟨p, hp, hpb⟩ := hleft.1 h
      exact ⟨rfl, p, hp, .inr hpb⟩
  case isFalse hfree =>
    right
    rw [Bool.or_eq_true, hright, hleft, not_or] at hfree
    exact ⟨rfl, fun p hp => ⟨fun h => hfree.1 ⟨p, hp, h⟩, fun h => hfree.2 ⟨p, hp, h⟩⟩⟩

/-- A pair that is taken is added, and no other pair has a side of it. -/
theorem of_insert? (h : c.insert? a b = some c') :
    c' = ⟨(a, b) :: c.pairs⟩ ∧ ∀ p ∈ c.pairs, p.1 ≠ a ∧ p.2 ≠ b := by
  rcases c.insert?_cases a b with ⟨hnone, -⟩ | ⟨hsome, hfree⟩
  · cases hnone.symm.trans h
  · exact ⟨(Option.some.inj (hsome.symm.trans h)).symm, hfree⟩

end Correspondence

/-! ## Adding a function -/

namespace FunctionTable

variable {t t' : FunctionTable} {e : FunctionEntry}

/-- A function is added if the correspondence takes it, and else given back. -/
theorem insert_run (e : FunctionEntry) (t : FunctionTable) :
    insert e t =
      ((t.entries.insert? e.function e.entry).elim (.error (e.function, e.entry) t)
        fun entries => .ok () ⟨entries, t.starts.insertIdxIfInBounds
          (partitionPoint (fun p => p.1 ≤ e.start) t.starts) (e.start, e.function)⟩) := by
  have hget : ∀ f : FunctionTable → EStateM (LocalName × Nat) FunctionTable Unit,
      (get >>= f) t = f t t := fun _ => rfl
  rw [insert, hget]
  cases t.entries.insert? e.function e.entry <;> rfl

/-- What is known of a table that has taken a function. -/
theorem of_insert? (h : t.insert? e = some t') :
    t.entries.insert? e.function e.entry = some t'.entries ∧
      t'.starts = t.starts.insertIdxIfInBounds
        (partitionPoint (fun p => p.1 ≤ e.start) t.starts) (e.start, e.function) := by
  unfold insert? at h
  rw [insert_run] at h
  cases hentries : t.entries.insert? e.function e.entry with
  | none =>
    rw [hentries] at h
    cases h
  | some entries =>
    rw [hentries] at h
    cases h
    exact ⟨rfl, rfl⟩

/-- A table takes a function only if it has none of that name. -/
theorem entry?_eq_none_of_insert? (h : t.insert? e = some t') : t.entry? e.function = none := by
  have hfree := (Correspondence.of_insert? (of_insert? h).1).2
  unfold entry? Correspondence.right?
  rw [Option.map_eq_none_iff, List.find?_eq_none]
  exact fun p hp => by simpa using (hfree p hp).1

/-- A table with one more function has its entry and those that were there. -/
theorem entry?_insert? (h : t.insert? e = some t') (f : LocalName) :
    t'.entry? f = if f = e.function then some e.entry else t.entry? f := by
  have hentries := (Correspondence.of_insert? (of_insert? h).1).1
  unfold entry? Correspondence.right?
  rw [hentries]
  by_cases hf : f = e.function
  · simp [hf]
  · have hother : ¬ e.function = f := fun h => hf h.symm
    simp [hf, hother]

/-- Where functions begin, with one more. Those that begin no later come before it. -/
theorem toList_insert_starts {starts : Array (Nat × LocalName)}
    (h : starts.toList.Pairwise fun p q => q.1 ≤ e.start → p.1 ≤ e.start) :
    (starts.insertIdxIfInBounds (partitionPoint (fun p => p.1 ≤ e.start) starts)
        (e.start, e.function)).toList =
      starts.toList.takeWhile (fun p => p.1 ≤ e.start) ++
        (e.start, e.function) :: starts.toList.dropWhile (fun p => p.1 ≤ e.start) := by
  have hpoint := partitionPoint_eq (p := fun p : Nat × LocalName => decide (p.1 ≤ e.start))
    (h.imp fun hpq hq => decide_eq_true (hpq (of_decide_eq_true hq)))
  have harray := List.insertIdxIfInBounds_toArray starts.toList
    (starts.toList.takeWhile fun p => p.1 ≤ e.start).length (e.start, e.function)
  rw [hpoint, harray, insertIdx_length_takeWhile]

/-- The function whose code holds an offset is the last of those that begin at or before it. -/
theorem enclosing?_eq (h : t.starts.toList.Pairwise fun p q => p.1 ≤ q.1) (offset : Nat) :
    t.enclosing? offset =
      (t.starts.toList.takeWhile fun p => p.1 ≤ offset).getLast?.map Prod.snd := by
  have hcut : Cut (fun p => compare p.1 offset) t.starts _ := cut_of_pairwise h
  have hprefix := List.takeWhile_prefix (fun p => decide (p.1 ≤ offset)) (l := t.starts.toList)
  generalize t.starts.toList.takeWhile (fun p => decide (p.1 ≤ offset)) = front at hcut hprefix ⊢
  unfold enclosing?
  rcases List.eq_nil_or_concat' front with rfl | ⟨init, p, rfl⟩
  · rw [search_of_cut_zero hcut]
    rfl
  · rw [List.length_append, List.length_singleton] at hcut
    have hp : t.starts[init.length]? = some p := by
      obtain ⟨rest, hrest⟩ := hprefix
      rw [← Array.getElem?_toList, ← hrest]
      simp
    rw [search_of_cut_succ hcut hp, List.getLast?_concat]
    by_cases hfits : compare p.1 offset = .eq
    · simp [hfits, hp]
    · simp [hfits, hp]

end FunctionTable

/-! ## The functions of a table -/

/-- Two functions that no table has both of: they share a name or an entry. -/
def FunctionEntry.Clashes (e e' : FunctionEntry) : Prop :=
  e.function = e'.function ∨ e.entry = e'.entry

namespace FunctionTable

/-- Both accounts of a table are of some functions. -/
structure Holds (t : FunctionTable) (fs : List FunctionEntry) : Prop where
  /-- Their names correspond to their entries. -/
  entries : t.entries.pairs.Perm (fs.map fun e => (e.function, e.entry))
  /-- No name and no entry is there twice. -/
  oneToOne : t.entries.OneToOne
  /-- They begin where the table says. -/
  starts : t.starts.toList.Perm (fs.map fun e => (e.start, e.function))
  /-- The table says so in this order. -/
  sorted : t.starts.toList.Pairwise fun p q => p.1 ≤ q.1

theorem holds_empty : Holds .empty [] :=
  ⟨.refl _, .nil, .refl _, .nil⟩

variable {t : FunctionTable} {fs : List FunctionEntry}

/-- The pairs of a table are those of its functions. -/
theorem Holds.mem_pairs (h : t.Holds fs) {f : LocalName} {n : Nat} :
    (f, n) ∈ t.entries.pairs ↔ ∃ e ∈ fs, e.function = f ∧ e.entry = n := by
  rw [h.entries.mem_iff, List.mem_map]
  simp only [Prod.mk.injEq]

/-- The order of beginnings is kept. -/
theorem pairwise_insert {starts : List (Nat × LocalName)}
    (h : starts.Pairwise fun p q => p.1 ≤ q.1) (p : Nat × LocalName) :
    (starts.takeWhile (fun q => q.1 ≤ p.1) ++ p :: starts.dropWhile (fun q => q.1 ≤ p.1)).Pairwise
      fun p q => p.1 ≤ q.1 := by
  have hbelow : starts.Pairwise fun q r => decide (r.1 ≤ p.1) = true → decide (q.1 ≤ p.1) = true :=
    h.imp fun hqr hr => decide_eq_true (hqr.trans (of_decide_eq_true hr))
  have hfront : ∀ q ∈ starts.takeWhile fun q => q.1 ≤ p.1, q.1 ≤ p.1 :=
    fun q hq => by simpa using List.mem_takeWhile_imp hq
  have hback : ∀ q ∈ starts.dropWhile fun q => q.1 ≤ p.1, p.1 ≤ q.1 := by
    intro q hq
    have hnot := not_of_mem_dropWhile hbelow hq
    rw [decide_eq_true_iff] at hnot
    omega
  refine List.pairwise_append.2 ⟨h.sublist (List.takeWhile_sublist _), ?_, ?_⟩
  · exact List.pairwise_cons.2 ⟨hback, h.sublist (List.dropWhile_sublist _)⟩
  · intro q hq r hr
    rcases List.mem_cons.1 hr with rfl | hr
    · exact hfront q hq
    · exact (hfront q hq).trans (hback r hr)

/-- A function is refused if it clashes with one that the table has, which leaves the table as it
is, and else it is one more. -/
theorem Holds.insert_cases (h : t.Holds fs) (e : FunctionEntry) :
    ((∃ e' ∈ fs, e.Clashes e') ∧ insert e t = .error (e.function, e.entry) t) ∨
      (∀ e' ∈ fs, ¬ e.Clashes e') ∧ ∃ t', insert e t = .ok () t' ∧ t'.Holds (fs ++ [e]) := by
  have hbelow : t.starts.toList.Pairwise fun p q => q.1 ≤ e.start → p.1 ≤ e.start :=
    h.sorted.imp fun hpq hq => hpq.trans hq
  rw [insert_run]
  -- The correspondence decides. The order of beginnings follows only if it takes the function.
  rcases t.entries.insert?_cases e.function e.entry with ⟨hnone, p, hp, hclash⟩ | ⟨hsome, hfree⟩
  · left
    obtain ⟨e', he', hfunction, hentry⟩ := h.mem_pairs.1 hp
    rw [hnone]
    exact ⟨⟨e', he', hclash.imp (fun h => (hfunction.trans h).symm) fun h => (hentry.trans h).symm⟩,
      rfl⟩
  · right
    rw [hsome]
    refine ⟨fun e' he' hclash => ?_, _, rfl, ?_, ?_, ?_, ?_⟩
    · have hfree := hfree _ (h.mem_pairs.2 ⟨e', he', rfl, rfl⟩)
      exact hclash.elim (fun h => hfree.1 h.symm) fun h => hfree.2 h.symm
    · show (_ :: t.entries.pairs).Perm _
      rw [List.map_append]
      exact (h.entries.cons _).trans (List.perm_append_singleton _ _).symm
    · exact List.pairwise_cons.2
        ⟨fun p hp => ⟨(hfree p hp).1.symm, (hfree p hp).2.symm⟩, h.oneToOne⟩
    · show (Array.toList _).Perm _
      rw [toList_insert_starts hbelow, List.map_append]
      refine List.perm_middle.trans ?_
      rw [List.takeWhile_append_dropWhile]
      exact (h.starts.cons _).trans (List.perm_append_singleton _ _).symm
    · show (Array.toList _).Pairwise _
      rw [toList_insert_starts hbelow]
      exact pairwise_insert h.sorted (e.start, e.function)

/-! ## Offering functions -/

/-- The functions that a table takes of those that are offered to it one after another, and the
table then. -/
def offerAll : List FunctionEntry → FunctionTable → List FunctionEntry × FunctionTable
  | [], t => ([], t)
  | e :: offers, t =>
    match insert e t with
    | .ok _ t' => ((offerAll offers t').1.cons e, (offerAll offers t').2)
    | .error _ t' => offerAll offers t'

/-- The functions that are taken come in the order in which they were offered. -/
theorem offerAll_sublist (offers : List FunctionEntry) (t : FunctionTable) :
    (offerAll offers t).1.Sublist offers := by
  induction offers generalizing t with
  | nil => exact .slnil
  | cons e offers ih =>
    rw [offerAll]
    split
    · exact (ih _).cons_cons e
    · exact (ih _).cons e

/-- A table has what it had and what it has taken. -/
theorem Holds.offerAll (h : t.Holds fs) (offers : List FunctionEntry) :
    (offerAll offers t).2.Holds (fs ++ (FunctionTable.offerAll offers t).1) := by
  induction offers generalizing t fs with
  | nil => simpa [FunctionTable.offerAll] using h
  | cons e offers ih =>
    rw [FunctionTable.offerAll]
    rcases h.insert_cases e with ⟨-, hrun⟩ | ⟨-, t', hrun, htaken⟩
    · rw [hrun]
      exact ih h
    · rw [hrun]
      have hrest := ih htaken
      rwa [List.append_assoc] at hrest

/-- The functions that begin at or before an offset, as the table has them. -/
theorem Holds.mem_takeWhile (h : t.Holds fs) {pc : Nat} {p : Nat × LocalName} :
    (p ∈ t.starts.toList.takeWhile fun q => q.1 ≤ pc) ↔
      ∃ e ∈ fs, e.start ≤ pc ∧ (e.start, e.function) = p := by
  have hbelow : t.starts.toList.Pairwise fun q r =>
      decide (r.1 ≤ pc) = true → decide (q.1 ≤ pc) = true :=
    h.sorted.imp fun hqr hr => decide_eq_true (hqr.trans (of_decide_eq_true hr))
  rw [takeWhile_eq_filter hbelow, List.mem_filter, h.starts.mem_iff, List.mem_map,
    decide_eq_true_iff]
  constructor
  · rintro ⟨⟨e, he, rfl⟩, hle⟩
    exact ⟨e, he, hle, rfl⟩
  · rintro ⟨e, he, hle, rfl⟩
    exact ⟨⟨e, he, rfl⟩, hle⟩

/-- The last of the functions that begin at or before an offset begins no earlier than the
others. -/
theorem Holds.le_getLast (h : t.Holds fs) {pc : Nat} {p : Nat × LocalName}
    (hlast : (t.starts.toList.takeWhile fun q => q.1 ≤ pc).getLast? = some p) :
    (∃ e ∈ fs, e.start ≤ pc ∧ (e.start, e.function) = p) ∧
      ∀ e ∈ fs, e.start ≤ pc → e.start ≤ p.1 := by
  refine ⟨h.mem_takeWhile.1 (List.mem_of_getLast? hlast), fun e he hle => ?_⟩
  have hmem := h.mem_takeWhile.2 ⟨e, he, hle, rfl⟩
  obtain ⟨init, hinit⟩ := List.getLast?_eq_some_iff.1 hlast
  have hsorted := h.sorted.sublist (List.takeWhile_sublist fun q => decide (q.1 ≤ pc))
  rw [hinit] at hmem hsorted
  rcases List.mem_append.1 hmem with hmem | hmem
  · exact (List.pairwise_append.1 hsorted).2.2 _ hmem p (.head _)
  · rw [← List.mem_singleton.1 hmem]

/-- An offset before all functions belongs to none. -/
theorem Holds.enclosing?_eq_none_iff (h : t.Holds fs) {pc : Nat} :
    t.enclosing? pc = none ↔ ∀ e ∈ fs, pc < e.start := by
  rw [enclosing?_eq h.sorted, Option.map_eq_none_iff, List.getLast?_eq_none_iff,
    List.eq_nil_iff_forall_not_mem]
  constructor
  · intro hnone e he
    by_contra hle
    exact hnone _ (h.mem_takeWhile.2 ⟨e, he, Nat.le_of_not_lt hle, rfl⟩)
  · rintro hall p hp
    obtain ⟨e, he, hle, -⟩ := h.mem_takeWhile.1 hp
    exact absurd (hall e he) (Nat.not_lt_of_le hle)

/-- Of functions that begin at different offsets, an offset belongs to the one that begins last
before it. -/
theorem Holds.enclosing?_eq_some_iff (h : t.Holds fs) (hstarts : (fs.map (·.start)).Nodup)
    {pc : Nat} {f : LocalName} :
    t.enclosing? pc = some f ↔
      ∃ e ∈ fs, e.function = f ∧ e.start ≤ pc ∧
        ∀ e' ∈ fs, e'.start ≤ pc → e'.start ≤ e.start := by
  constructor
  · intro hfound
    rw [enclosing?_eq h.sorted] at hfound
    obtain ⟨p, hlast, rfl⟩ := Option.map_eq_some_iff.1 hfound
    obtain ⟨⟨e, he, hle, rfl⟩, hgreatest⟩ := h.le_getLast hlast
    exact ⟨e, he, rfl, hle, hgreatest⟩
  · rintro ⟨e, he, rfl, hle, hgreatest⟩
    cases hfound : t.enclosing? pc with
    | none => exact absurd (h.enclosing?_eq_none_iff.1 hfound e he) (Nat.not_lt_of_le hle)
    | some f =>
      rw [enclosing?_eq h.sorted] at hfound
      obtain ⟨p, hlast, rfl⟩ := Option.map_eq_some_iff.1 hfound
      obtain ⟨⟨e', he', hle', rfl⟩, hgreatest'⟩ := h.le_getLast hlast
      -- Both begin last, and functions that begin together are one.
      have hstart : e'.start = e.start :=
        Nat.le_antisymm (hgreatest e' he' hle') (hgreatest' e he hle)
      rw [List.inj_on_of_nodup_map hstarts he' he hstart]

/-- Functions are offered to a table one after another, no two of them beginning at the same offset.
Then names and entries lead to each other for exactly those that were taken. The next one is refused
if its name or its entry is taken, and given back while the table stays as it is, and else it is
taken. An offset belongs to the one of those taken that begins last at or before it, and to none if
none does. -/
theorem offered_functions (offers : List FunctionEntry) (hstarts : (offers.map (·.start)).Nodup)
    (taken : List FunctionEntry) (t : FunctionTable) (h : offerAll offers .empty = (taken, t)) :
    (∀ f n, t.entry? f = some n ↔ ∃ e ∈ taken, e.function = f ∧ e.entry = n) ∧
      (∀ f n, t.function? n = some f ↔ t.entry? f = some n) ∧
      (∀ e : FunctionEntry,
        ((∃ e' ∈ taken, e.function = e'.function ∨ e.entry = e'.entry) ∧
            insert e t = .error (e.function, e.entry) t) ∨
          (∀ e' ∈ taken, e.function ≠ e'.function ∧ e.entry ≠ e'.entry) ∧
            ∃ t', insert e t = .ok () t') ∧
      (∀ pc f, t.enclosing? pc = some f ↔
        ∃ e ∈ taken, e.function = f ∧ e.start ≤ pc ∧
          ∀ e' ∈ taken, e'.start ≤ pc → e'.start ≤ e.start) ∧
      ∀ pc, t.enclosing? pc = none ↔ ∀ e ∈ taken, pc < e.start := by
  -- The table was empty first, and an offer that is refused leaves it as it is.
  have hholds : t.Holds taken := by
    have hrun := holds_empty.offerAll offers
    rwa [h, List.nil_append] at hrun
  have hsublist : taken.Sublist offers := by
    have hrun := offerAll_sublist offers .empty
    rwa [h] at hrun
  have hentry : ∀ f n, t.entry? f = some n ↔ (f, n) ∈ t.entries.pairs :=
    fun f n => Correspondence.right?_eq_some_iff hholds.oneToOne
  refine ⟨fun f n => ?_, fun f n => ?_, fun e => ?_, fun pc f => ?_, fun pc => ?_⟩
  · rw [hentry, hholds.mem_pairs]
  · rw [hentry]
    exact Correspondence.left?_eq_some_iff hholds.oneToOne
  · rcases hholds.insert_cases e with hrefused | ⟨hfree, t', hrun, -⟩
    · exact .inl hrefused
    · exact .inr ⟨fun e' he' => not_or.1 (hfree e' he'), t', hrun⟩
  · exact hholds.enclosing?_eq_some_iff (hstarts.sublist (hsublist.map _))
  · exact hholds.enclosing?_eq_none_iff

/-- Five functions, offered in another order than that in which they begin. The third has a name
that is taken and the fourth an entry. -/
def unordered : List FunctionEntry :=
  [⟨⟨"g", 0⟩, 10, 13⟩, ⟨⟨"f", 1⟩, 2, 4⟩, ⟨⟨"f", 1⟩, 20, 24⟩, ⟨⟨"h", 0⟩, 7, 13⟩, ⟨⟨"k", 2⟩, 5, 8⟩]

/-- The table of the three that are taken. -/
def unorderedTable : FunctionTable where
  entries := ⟨[(⟨"k", 2⟩, 8), (⟨"f", 1⟩, 4), (⟨"g", 0⟩, 13)]⟩
  starts := #[(2, ⟨"f", 1⟩), (5, ⟨"k", 2⟩), (10, ⟨"g", 0⟩)]

/-- The function that was refused for its entry does not get the offsets after its beginning. -/
theorem offered_functions_unordered :
    (unordered.map (·.start)).Nodup ∧
      offerAll unordered .empty =
        ([⟨⟨"g", 0⟩, 10, 13⟩, ⟨⟨"f", 1⟩, 2, 4⟩, ⟨⟨"k", 2⟩, 5, 8⟩], unorderedTable) ∧
      unorderedTable.entry? ⟨"g", 0⟩ = some 13 ∧ unorderedTable.function? 13 = some ⟨"g", 0⟩ ∧
      unorderedTable.enclosing? 9 = some ⟨"k", 2⟩ ∧ unorderedTable.enclosing? 1 = none := by
  have hstarts : (unordered.map (·.start)).Nodup := by decide
  have hrun : offerAll unordered .empty =
      ([⟨⟨"g", 0⟩, 10, 13⟩, ⟨⟨"f", 1⟩, 2, 4⟩, ⟨⟨"k", 2⟩, 5, 8⟩], unorderedTable) := by
    decide +kernel
  obtain ⟨hentry, hfunction, -, henclosing, hnone⟩ := offered_functions unordered hstarts _ _ hrun
  have hg : unorderedTable.entry? ⟨"g", 0⟩ = some 13 := (hentry _ _).2 (by decide)
  exact ⟨hstarts, hrun, hg, (hfunction _ _).2 hg, (henclosing _ _).2 (by decide),
    (hnone _).2 (by decide)⟩

end FunctionTable

end ErlangMachine
