import ErlangMachine.Proofs.Identity

/-!
# Terms that are alike

Two terms are alike if they are equal but for the buffers that their bit strings are kept in. This
is said by moving each bit string to a buffer of its own (`Term.packed`), which changes neither the
text of a term nor its type, nor what it compares as (`text_packed`, `holds_packed`,
`compare_packed`, `exactEq_packed`).

The order of terms takes some terms for equal that are not alike. `Conflated` lists the pairs for
which this is so whatever else is in them: zeros of different sign, a NaN and any other float, an
integer and the float that it rounds to, closures of different loads of a module or of different
arity, any cursors and any catch tags. Terms that compare as equal are alike if and only if no such
pair stands at the same place in them (`alike_iff`).
-/

namespace ErlangMachine

namespace BitString

/-! ## Bit strings with the same bits -/

/-- The same bits in a buffer of their own. -/
def packed (b : BitString) : BitString := (Writer.copy b).toBitString

/-- The bits stay. -/
@[simp] theorem toList_packed (b : BitString) : b.packed.toList = b.toList :=
  Writer.toList_copy b

/-- Two bit strings come to the same if and only if they have the same bits. -/
theorem packed_eq_iff {a b : BitString} : a.packed = b.packed ↔ a.toList = b.toList := by
  constructor
  · intro h
    rw [← toList_packed a, h, toList_packed]
  · intro h
    rw [packed, packed, Writer.copy_eq, Writer.copy_eq, h]

section SameBits

variable {a b : BitString} (h : a.toList = b.toList)

include h

theorem size_congr : a.size = b.size := by
  rw [← length_toList a, h, length_toList]

/-- Each bit. -/
theorem bit_congr {i : Nat} (hi : i < a.size) : a.bit i = b.bit i := by
  have hsize := size_congr h
  have hget : a.toList[i]? = b.toList[i]? := by rw [h]
  simpa [toList, hi, hsize ▸ hi] using hget

/-- The last bits, read as a number where they do not make whole bytes. -/
theorem read_congr {i n : Nat} (hend : i + n ≤ a.size) (hn : n % 8 ≠ 0) :
    a.read i n = b.read i n := by
  unfold read
  rw [if_neg fun hboth => hn hboth.2, if_neg fun hboth => hn hboth.2]
  refine List.foldl_ext _ _ _ fun v j hj => ?_
  rw [bit_congr h (by have := List.mem_range.1 hj; omega)]

/-- The text. -/
theorem text_congr : a.text = b.text := by
  have hsize := size_congr h
  have hlast : (if a.size % 8 = 0 then []
      else [toString (a.read (8 * a.byteSize) (a.size % 8)) ++ ":" ++ toString (a.size % 8)]) =
      if b.size % 8 = 0 then []
      else [toString (b.read (8 * b.byteSize) (b.size % 8)) ++ ":" ++ toString (b.size % 8)] := by
    unfold byteSize
    rw [← hsize]
    split
    · rfl
    · rw [read_congr h (by omega) (by omega)]
  unfold text
  dsimp only
  rw [hlast, toBytes_congr h]
  unfold isBinary byteSize
  rw [hsize]

end SameBits

end BitString

namespace Binary64

/-! ## Floats at the same position -/

/-- Numbers at the same position are equal, or zeros of different sign. -/
theorem eq_or_zeros_of_position {x y : Binary64} (h : x.position = y.position) :
    x = y ∨ ∃ negative, x = zero negative ∧ y = zero !negative := by
  rw [← x.ofMagnitude_eq, ← y.ofMagnitude_eq]
  unfold position at h
  cases hx : x.isNegative <;> cases hy : y.isNegative <;> rw [hx, hy] at h
  case false.false => exact .inl (congrArg _ (Int.ofNat.inj h))
  case true.true => exact .inl (congrArg _ (Int.ofNat.inj (Int.neg_inj.1 h)))
  all_goals
    have hzeros : x.magnitude = 0 ∧ y.magnitude = 0 := by
      simp only [if_true, Bool.false_eq_true, if_false] at h
      omega
    rw [hzeros.1, hzeros.2]
    exact .inr ⟨_, rfl, rfl⟩

end Binary64

namespace Term

variable {a b : Term}

/-! ## Packed terms -/

mutual

/-- The term with each bit string in a buffer of its own. -/
def packed : Term → Term
  | closure code entry arity environment => closure code entry arity (packedAll environment)
  | tuple elements => tuple (packedAll elements)
  | cons head tail => cons (packed head) (packed tail)
  | bits b => bits b.packed
  | cursor c => cursor { c with subject := c.subject.packed }
  | t => t

def packedAll : List Term → List Term
  | [] => []
  | t :: ts => packed t :: packedAll ts

end

/-- Two terms are equal but for the buffers of their bit strings. -/
def Alike (a b : Term) : Prop := a.packed = b.packed

theorem rank_packed (t : Term) : t.packed.rank = t.rank := by
  cases t <;> rfl

/-- The number of terms stays. -/
theorem length_packedAll (ts : List Term) : (packedAll ts).length = ts.length := by
  induction ts with
  | nil => rfl
  | cons t ts ih => rw [packedAll, List.length_cons, List.length_cons, ih]

/-- The type stays. -/
theorem holds_packed (q : TypeTest) (t : Term) : q.holds t.packed = q.holds t := by
  cases t with
  | bits b =>
    cases q with
    | binary =>
      show b.packed.isBinary = b.isBinary
      unfold BitString.isBinary
      rw [BitString.size_congr b.toList_packed]
    | _ => rfl
  | _ => cases q <;> rfl

mutual

/-- The text stays. -/
theorem render_packed (inList : Bool) : (t : Term) → t.packed.render inList = t.render inList
  | cons head tail => by
    rw [packed, render, render, render_packed false head, render_packed true tail]
  | tuple elements => by rw [packed, render, render, renderAll_packedAll elements]
  | bits b => by rw [packed, render, render, BitString.text_congr b.toList_packed]
  | closure .. | cursor _ => by rw [packed, render, render]
  | integer _ | float _ | atom _ | reference _ | external _ | port _ | pid _ | nil
  | catchTag .. => rfl

/-- The texts of some terms stay. -/
theorem renderAll_packedAll : (ts : List Term) → renderAll (packedAll ts) = renderAll ts
  | [] => rfl
  | t :: ts => by
    rw [packedAll, renderAll, renderAll, render_packed false t, renderAll_packedAll ts]

end

/-- The text of a whole term stays. -/
theorem text_packed (t : Term) : t.packed.text = t.text := render_packed false t

/-- Terms of different kinds compare as before, so that only those of one kind count. -/
theorem compare_packed_of_rank (h : a.rank = b.rank → a.packed.compare b.packed = a.compare b) :
    a.packed.compare b.packed = a.compare b := by
  by_cases hab : a.rank = b.rank
  · exact h hab
  · rw [compare_of_rank_ne hab, compare_of_rank_ne (by rwa [rank_packed, rank_packed]),
      rank_packed, rank_packed]

mutual

/-- The order stays. -/
theorem compare_packed : (a b : Term) → a.packed.compare b.packed = a.compare b
  | closure m e j xs, b => compare_packed_of_rank fun hab => by
    cases b <;> cases hab
    case closure n f k ys =>
      rw [packed, packed, compare, compare, length_packedAll, length_packedAll,
        compareAll_packedAll xs ys]
    case external => rfl
  | tuple xs, b => compare_packed_of_rank fun hab => by
    cases b <;> cases hab
    case tuple ys =>
      rw [packed, packed, compare, compare, length_packedAll, length_packedAll,
        compareAll_packedAll xs ys]
  | cons x xs, b => compare_packed_of_rank fun hab => by
    cases b <;> cases hab
    case cons y ys =>
      rw [packed, packed, compare, compare, compare_packed x y, compare_packed xs ys]
  | bits x, b => compare_packed_of_rank fun hab => by
    cases b <;> cases hab
    case bits y =>
      show Ord.compare x.packed y.packed = Ord.compare x y
      rw [BitString.compare_eq, BitString.compare_eq, BitString.toList_packed,
        BitString.toList_packed]
  | integer _, b | float _, b | atom _, b | reference _, b | external _, b | port _, b | pid _, b
  | nil, b | cursor _, b | catchTag .., b => compare_packed_of_rank fun hab => by
    cases b <;> cases hab <;> rfl

/-- The order of the first elements that differ stays. -/
theorem compareAll_packedAll : (as bs : List Term) →
    compareAll (packedAll as) (packedAll bs) = compareAll as bs
  | [], [] | [], _ :: _ | _ :: _, [] => rfl
  | a :: as, b :: bs => by
    rw [packedAll, packedAll, compareAll, compareAll, compare_packed a b,
      compareAll_packedAll as bs]

end

mutual

/-- Exact equality stays. -/
theorem exactEq_packed : (a b : Term) → a.packed.exactEq b.packed = a.exactEq b
  | tuple xs, b => by
    cases b with
    | tuple ys =>
      rw [packed, packed, exactEq, exactEq, length_packedAll, length_packedAll,
        exactEqAll_packedAll]
    | _ => rfl
  | cons x xs, b => by
    cases b with
    | cons y ys => rw [packed, packed, exactEq, exactEq, exactEq_packed x, exactEq_packed xs]
    | _ => rfl
  | closure m e j xs, b => by
    cases b <;> exact congrArg (· == .eq) (compare_packed (closure m e j xs) _)
  | bits x, b => by
    cases b <;> exact congrArg (· == .eq) (compare_packed (bits x) _)
  | integer _, b | float _, b | atom _, b | reference _, b | external _, b | port _, b | pid _, b
  | nil, b | cursor _, b | catchTag .., b => by
    cases b <;> rfl

/-- Exact equality of elements stays. -/
theorem exactEqAll_packedAll : (as bs : List Term) →
    exactEqAll (packedAll as) (packedAll bs) = exactEqAll as bs
  | [], [] | [], _ :: _ | _ :: _, [] => rfl
  | a :: as, b :: bs => by
    rw [packedAll, packedAll, exactEqAll, exactEqAll, exactEq_packed a b,
      exactEqAll_packedAll as bs]

end

/-! ## Exact equality and the order -/

/-- Whether a term is a tuple or a cell is known from its kind. -/
theorem isCompound_of_rank (h : a.rank = b.rank) : a.isCompound = b.isCompound := by
  cases a <;> cases b <;> first | rfl | cases h

/-- A pair of an integer and a float is one the other way round. -/
theorem Mixes.symm (h : Mixes a b) : Mixes b a := by
  cases h <;> constructor

/-- Terms that compare as equal are of one kind. -/
theorem rank_of_compare (h : a.compare b = .eq) : a.rank = b.rank := by
  rw [compare_eq_rank_then, Ordering.then_eq_eq] at h
  exact Std.LawfulEqOrd.eq_of_compare h.1

/-- Exact equality of a term that is neither a tuple nor a cell goes both ways. -/
theorem exactEq_comm_of_not_isCompound (ha : a.isCompound = false) : a.exactEq b = b.exactEq a := by
  by_cases hab : a.rank = b.rank
  · by_cases hmixes : Mixes a b
    · rw [exactEq_of_mixes hmixes, exactEq_of_mixes hmixes.symm]
    · have hb : b.isCompound = false := (isCompound_of_rank hab).symm.trans ha
      rw [exactEq_of_not_isCompound ha hmixes,
        exactEq_of_not_isCompound hb fun h => hmixes h.symm, compare_swap a b]
      cases a.compare b <;> rfl
  · rw [exactEq_of_rank_ne hab, exactEq_of_rank_ne (Ne.symm hab)]

mutual

/-- Exact equality goes both ways. -/
theorem exactEq_comm : (a b : Term) → a.exactEq b = b.exactEq a
  | tuple xs, b => by
    cases b with
    | tuple ys => rw [exactEq, exactEq, BEq.comm, exactEqAll_comm xs ys]
    | _ => rfl
  | cons x xs, b => by
    cases b with
    | cons y ys => rw [exactEq, exactEq, exactEq_comm x y, exactEq_comm xs ys]
    | _ => rfl
  | integer _, b | float _, b | atom _, b | reference _, b | port _, b | pid _, b | closure .., b
  | external _, b | bits _, b | nil, b | cursor _, b | catchTag .., b =>
    exactEq_comm_of_not_isCompound rfl

theorem exactEqAll_comm : (as bs : List Term) → exactEqAll as bs = exactEqAll bs as
  | [], [] | [], _ :: _ | _ :: _, [] => rfl
  | a :: as, b :: bs => by rw [exactEqAll, exactEqAll, exactEq_comm a b, exactEqAll_comm as bs]

end

/-- A term that is neither a tuple nor a cell compares as equal if it is exactly equal. -/
theorem compare_of_exactEq_of_not_isCompound (ha : a.isCompound = false) (h : a.exactEq b = true) :
    a.compare b = .eq := by
  by_cases hmixes : Mixes a b
  · rw [exactEq_of_mixes hmixes] at h
    cases h
  · rwa [exactEq_of_not_isCompound ha hmixes, beq_iff_eq] at h

mutual

/-- Terms that are exactly equal compare as equal. -/
theorem compare_of_exactEq : (a b : Term) → a.exactEq b = true → a.compare b = .eq
  | tuple xs, b, h => by
    have hab := rank_of_exactEq h
    cases b with
    | tuple ys =>
      rw [exactEq, Bool.and_eq_true, beq_iff_eq] at h
      rw [compare, h.1, Std.ReflOrd.compare_self, compareAll_of_exactEqAll xs ys h.2]
      rfl
    | _ => cases hab
  | cons x xs, b, h => by
    have hab := rank_of_exactEq h
    cases b with
    | cons y ys =>
      rw [exactEq, Bool.and_eq_true] at h
      rw [compare, compare_of_exactEq x y h.1, compare_of_exactEq xs ys h.2]
      rfl
    | _ => cases hab
  | integer _, b, h | float _, b, h | atom _, b, h | reference _, b, h | port _, b, h | pid _, b, h
  | closure .., b, h | external _, b, h | bits _, b, h | nil, b, h | cursor _, b, h
  | catchTag .., b, h => compare_of_exactEq_of_not_isCompound rfl h

theorem compareAll_of_exactEqAll : (as bs : List Term) → exactEqAll as bs = true →
    compareAll as bs = .eq
  | [], [], _ | [], _ :: _, _ | _ :: _, [], _ => rfl
  | a :: as, b :: bs, h => by
    rw [exactEqAll, Bool.and_eq_true] at h
    rw [compareAll, compare_of_exactEq a b h.1, compareAll_of_exactEqAll as bs h.2]
    rfl

end

/-! ## Terms that the order does not tell apart -/

/-- Two terms that are not alike and compare as equal on their own account, whatever parts they
have. -/
inductive Conflated : Term → Term → Prop where
  | zeros (negative : Bool) : Conflated (float (.zero negative)) (float (.zero !negative))
  | nan {x y : Binary64} (hne : x ≠ y) (h : x.isNaN = true ∨ y.isNaN = true) :
    Conflated (float x) (float y)
  | integerFloat {i : Int64} {x : Binary64} (h : compareFloats (.ofInt i.toInt) x = .eq) :
    Conflated (integer i) (float x)
  | floatInteger {x : Binary64} {i : Int64} (h : compareFloats x (.ofInt i.toInt) = .eq) :
    Conflated (float x) (integer i)
  | closure {m n : ModuleRef} {entry j k : Nat} {xs ys : List Term} (hname : m.name = n.name)
    (hne : m ≠ n ∨ j ≠ k) : Conflated (closure m entry j xs) (closure n entry k ys)
  | cursor {c d : BitString.Cursor} (hne : ¬ Alike (cursor c) (cursor d)) :
    Conflated (cursor c) (cursor d)
  | catchTag {h k : Handler} {hs ks : List Handler} (hne : h ≠ k ∨ hs ≠ ks) :
    Conflated (catchTag h hs) (catchTag k ks)

/-- Conflated terms are not alike. -/
theorem Conflated.not_alike (h : Conflated a b) : ¬ Alike a b := by
  intro halike
  cases h with
  | zeros negative =>
    have heq : Binary64.zero negative = .zero !negative := float.inj halike
    revert heq
    cases negative <;> decide
  | nan hne _ => exact hne (float.inj halike)
  | integerFloat _ => cases halike
  | floatInteger _ => cases halike
  | closure _ hne =>
    obtain ⟨rfl, -, rfl, -⟩ := closure.inj halike
    rcases hne with hne | hne <;> exact hne rfl
  | cursor hne => exact hne halike
  | catchTag hne =>
    obtain ⟨rfl, rfl⟩ := catchTag.inj halike
    rcases hne with hne | hne <;> exact hne rfl

/-- Elements that face each other are alike if all are. -/
theorem alike_of_mem_zip {x y : Term} : {xs ys : List Term} → packedAll xs = packedAll ys →
    (x, y) ∈ xs.zip ys → Alike x y
  | [], _, _, hmem | _ :: _, [], _, hmem => by cases hmem
  | _ :: xs, _ :: ys, h, hmem => by
    obtain ⟨hhead, htail⟩ := List.cons.inj h
    rcases List.mem_cons.1 hmem with heq | hmem
    · cases heq
      exact hhead
    · exact alike_of_mem_zip htail hmem

/-- Terms that face each other in terms that are alike are alike. -/
theorem Facing.alike {inside : Bool} {u v : Term} (hf : Facing inside a b u v) (h : Alike a b) :
    Alike u v := by
  induction hf with
  | here => exact h
  | head _ ih => exact ih (cons.inj h).1
  | tail _ ih => exact ih (cons.inj h).2
  | element hmem _ ih => exact ih (alike_of_mem_zip (tuple.inj h) hmem)
  | captured hmem _ ih => exact ih (alike_of_mem_zip (closure.inj h).2.2.2 hmem)

/-- Floats that compare as equal are equal, unless they are zeros or one of them is a NaN. -/
theorem float_alike {x y : Binary64} (h : compareFloats x y = .eq)
    (hpure : ¬ Conflated (float x) (float y)) : x = y := by
  by_contra hne
  unfold compareFloats Binary64.compare? at h
  split at h
  case isTrue hnan =>
    rw [Bool.or_eq_true] at hnan
    exact hpure (.nan hne hnan)
  case isFalse =>
    rcases Binary64.eq_or_zeros_of_position (Std.LawfulEqOrd.eq_of_compare h) with
      heq | ⟨negative, rfl, rfl⟩
    · exact hne heq
    · exact hpure (.zeros negative)

mutual

/-- Terms that compare as equal are alike if no conflated terms stand at the same place in them. -/
theorem alike_of_compare : (a b : Term) → a.compare b = .eq →
    (∀ inside u v, Facing inside a b u v → ¬ Conflated u v) → Alike a b
  | integer i, b, h, hpure => by
    -- Terms that compare as equal are of one rank, so few forms of the other term remain.
    have hab := rank_of_compare h
    cases b <;> cases hab
    case integer j =>
      rw [compare, Std.LawfulEqOrd.compare_eq_iff_eq, Int64.toInt_inj] at h
      rw [h]
      rfl
    case float x => exact absurd (.integerFloat h) (hpure _ _ _ (.here _ _))
  | float x, b, h, hpure => by
    have hab := rank_of_compare h
    cases b <;> cases hab
    case integer i => exact absurd (.floatInteger h) (hpure _ _ _ (.here _ _))
    case float y =>
      rw [float_alike h (hpure _ _ _ (.here _ _))]
      rfl
  | atom a, b, h, _ => by
    have hab := rank_of_compare h
    cases b <;> cases hab
    rw [compare, compare_atom_eq_iff] at h
    rw [h]
    rfl
  | reference m, b, h, _ | port m, b, h, _ | pid m, b, h, _ => by
    have hab := rank_of_compare h
    cases b <;> cases hab
    rw [compare, Std.LawfulEqOrd.compare_eq_iff_eq] at h
    rw [h]
    rfl
  | external f, b, h, _ => by
    have hab := rank_of_compare h
    cases b <;> cases hab
    case closure => cases h
    case external g =>
      rw [compare, compareIds_eq_iff] at h
      rw [h]
      rfl
  | closure m e j xs, b, h, hpure => by
    have hab := rank_of_compare h
    cases b <;> cases hab
    case external => cases h
    case closure n f k ys =>
      rw [compare, Ordering.then_eq_eq, Ordering.then_eq_eq, Ordering.then_eq_eq,
        compare_atom_eq_iff, Std.LawfulEqOrd.compare_eq_iff_eq,
        Std.LawfulEqOrd.compare_eq_iff_eq] at h
      obtain ⟨hname, rfl, hlength, hall⟩ := h
      -- The order sees the name of the module but neither its version nor the arity.
      have hsame : ¬ (m ≠ n ∨ j ≠ k) :=
        fun hne => hpure _ _ _ (.here _ _) (.closure hname hne)
      rw [not_or, not_not, not_not] at hsame
      obtain ⟨rfl, rfl⟩ := hsame
      exact congrArg (closure m e j) (packedAll_of_compareAll xs ys hlength hall
        fun _ _ hmem _ _ _ hf => hpure _ _ _ (.captured hmem hf))
  | tuple xs, b, h, hpure => by
    have hab := rank_of_compare h
    cases b <;> cases hab
    case tuple ys =>
      rw [compare, Ordering.then_eq_eq, Std.LawfulEqOrd.compare_eq_iff_eq] at h
      exact congrArg tuple (packedAll_of_compareAll xs ys h.1 h.2
        fun _ _ hmem _ _ _ hf => hpure _ _ _ (.element hmem hf))
  | cons x xs, b, h, hpure => by
    have hab := rank_of_compare h
    cases b <;> cases hab
    case cons y ys =>
      rw [compare, Ordering.then_eq_eq] at h
      have hhead := alike_of_compare x y h.1 fun _ _ _ hf => hpure _ _ _ (.head hf)
      have htail := alike_of_compare xs ys h.2 fun _ _ _ hf => hpure _ _ _ (.tail hf)
      exact congrArg₂ cons hhead htail
  | bits x, b, h, _ => by
    have hab := rank_of_compare h
    cases b <;> cases hab
    case bits y =>
      exact congrArg bits (BitString.packed_eq_iff.2 (BitString.compare_eq_eq_iff.1 h))
  | nil, b, h, _ => by
    have hab := rank_of_compare h
    cases b <;> cases hab
    rfl
  | cursor c, b, h, hpure => by
    have hab := rank_of_compare h
    cases b <;> cases hab
    by_contra hne
    exact hpure _ _ _ (.here _ _) (.cursor hne)
  | catchTag handler outer, b, h, hpure => by
    have hab := rank_of_compare h
    cases b <;> cases hab
    case catchTag handler' outer' =>
      have hsame : ¬ (handler ≠ handler' ∨ outer ≠ outer') :=
        fun hne => hpure _ _ _ (.here _ _) (.catchTag hne)
      rw [not_or, not_not, not_not] at hsame
      obtain ⟨rfl, rfl⟩ := hsame
      rfl

theorem packedAll_of_compareAll : (xs ys : List Term) → xs.length = ys.length →
    compareAll xs ys = .eq →
    (∀ x y, (x, y) ∈ xs.zip ys → ∀ inside u v, Facing inside x y u v → ¬ Conflated u v) →
    packedAll xs = packedAll ys
  | [], [], _, _, _ => rfl
  | x :: xs, y :: ys, hlength, h, hpure => by
    rw [compareAll, Ordering.then_eq_eq] at h
    have hhead : Alike x y := alike_of_compare x y h.1 (hpure x y (List.mem_cons_self ..))
    have htail := packedAll_of_compareAll xs ys (Nat.succ.inj hlength) h.2
      fun _ _ hmem => hpure _ _ (List.mem_cons_of_mem _ hmem)
    exact congrArg₂ List.cons hhead htail

end

/-- Terms that compare as equal are alike if and only if no conflated terms stand at the same place
in them. -/
theorem alike_iff (h : a.compare b = .eq) :
    Alike a b ↔ ∀ inside u v, Facing inside a b u v → ¬ Conflated u v :=
  ⟨fun halike _ _ _ hf hconflated => hconflated.not_alike (hf.alike halike),
    alike_of_compare a b h⟩

end Term

end ErlangMachine
