import ErlangMachine.Proofs.Likeness
import ErlangMachine.Proofs.Refusals

/-!
# Shared constants

This module follows the constants of all functions that an assembler is asked for into the finished
module. A function that is taken has all its constants looked up, a refused one some first part of
them (`exists_log`). Each of them then shares a place with one that is exactly equal to it.

Exact equality is coarser than being alike, so the constant at that place may be a different one:
the first that came. `constants_alike_iff` says when no constant is replaced by a different one.
-/

namespace ErlangMachine.Assembler

/-! ## The log of a run -/

/-- The constants that are looked up for a request, if it is not refused. -/
def Request.constants : Request → List Term
  | function _ _ body => body.flatMap Instruction.constants
  | addExport _ => []

/-- The constants that are looked up for some requests: all of a request that is taken, a first part
of one that is refused. -/
inductive LookedUp : Assembler → List Request → List Term → Prop where
  | nil (a : Assembler) : LookedUp a [] []
  | taken {a : Assembler} {r : Request} {requests : List Request} {terms : List Term}
    (h : a.refusal? r = none) (hrest : LookedUp (a.serve r) requests terms) :
    LookedUp a (r :: requests) (r.constants ++ terms)
  | refused {a : Assembler} {r : Request} {requests : List Request} {part terms : List Term}
    (h : a.refusal? r ≠ none) (hpart : part <+: r.constants)
    (hrest : LookedUp (a.serve r) requests terms) : LookedUp a (r :: requests) (part ++ terms)

/-- One request. -/
theorem interned_serve (a : Assembler) (r : Request) : ∃ log, Interned a log (a.serve r) ∧
    log.map Prod.fst <+: r.constants ∧
      (a.refusal? r = none → log.map Prod.fst = r.constants) := by
  cases r with
  | addExport f => exact ⟨[], .done rfl, List.nil_prefix, fun _ => rfl⟩
  | function f entry body =>
    have hruns := interns_function f entry body a
    rw [serve, refusal?]
    cases hrun : function f entry body a with
    | ok x a' =>
      obtain ⟨log, hlog, hinterned⟩ := hruns.of_ok hrun
      exact ⟨log, hinterned, hlog ▸ List.prefix_refl _, fun _ => hlog⟩
    | error e a' =>
      obtain ⟨log, hlog, hinterned⟩ := hruns.of_error hrun
      exact ⟨log, hinterned, hlog, fun h => by cases h⟩

/-- All requests. -/
theorem exists_log (a : Assembler) (requests : List Request) :
    ∃ log, Interned a log (a.serveAll requests) ∧ LookedUp a requests (log.map Prod.fst) := by
  induction requests generalizing a with
  | nil => exact ⟨[], .done rfl, .nil a⟩
  | cons r requests ih =>
    obtain ⟨log, hinterned, hpart, hall⟩ := interned_serve a r
    obtain ⟨log', hinterned', hrest⟩ := ih (a.serve r)
    refine ⟨log ++ log', hinterned.trans hinterned', ?_⟩
    rw [List.map_append]
    by_cases h : a.refusal? r = none
    · rw [hall h]
      exact .taken h hrest
    · exact .refused h hpart hrest

/-- Nothing else is looked up. -/
theorem LookedUp.mem {a : Assembler} {requests : List Request} {terms : List Term}
    (h : LookedUp a requests terms) {t : Term} (ht : t ∈ terms) :
    t ∈ requests.flatMap Request.constants := by
  induction h with
  | nil => cases ht
  | taken _ _ ih =>
    exact (List.mem_append.1 ht).elim (List.mem_append_left _) fun h =>
      List.mem_append_right _ (ih h)
  | refused _ hpart _ ih =>
    exact (List.mem_append.1 ht).elim (fun h => List.mem_append_left _ (hpart.subset h)) fun h =>
      List.mem_append_right _ (ih h)

/-! ## Constants that are replaced -/

/-- A constant stands for another one without a difference: they are alike, they have the same text
and the same type. -/
structure StandsFor (c t : Term) : Prop where
  /-- Contents. -/
  alike : c.Alike t
  /-- Text. -/
  text : c.text = t.text
  /-- Type. -/
  type : ∀ q : TypeTest, q.holds c = q.holds t

/-- A constant stands for every one that it is like. -/
theorem standsFor_iff {c t : Term} : StandsFor c t ↔ c.Alike t := by
  refine ⟨StandsFor.alike, fun h => ⟨h, ?_, fun q => ?_⟩⟩
  · rw [← c.text_packed, h, t.text_packed]
  · rw [← c.holds_packed, h, t.holds_packed]

section Pool

variable {log : List (Term × UInt16)} {pool : Array Term}

/-- Two entries that are exactly equal are at the same place. -/
theorem Pooled.eq_of_exactEq (h : Pooled log pool) {c d : Term} (hc : c ∈ pool) (hd : d ∈ pool)
    (heq : c.exactEq d = true) : c = d := by
  by_contra hne
  have hsymm : Std.Symm fun c d : Term => c.exactEq d = false :=
    ⟨fun c d hcd => (d.exactEq_comm c).trans hcd⟩
  have hdistinct : c.exactEq d = false := h.distinct.forall (Array.mem_toList_iff.2 hc)
    (Array.mem_toList_iff.2 hd) hne
  rw [heq] at hdistinct
  cases hdistinct

/-- No constant is replaced by a different one if and only if those that are exactly equal are
alike. -/
theorem Pooled.forall_standsFor_iff (h : Pooled log pool) :
    (∀ t n, (t, n) ∈ log → ∃ c, pool[n.toNat]? = some c ∧ StandsFor c t) ↔
      ∀ t ∈ log.map Prod.fst, ∀ u ∈ log.map Prod.fst, t.exactEq u = true → t.Alike u := by
  constructor
  · intro hall t ht u hu heq
    obtain ⟨⟨t, n⟩, htn, rfl⟩ := List.mem_map.1 ht
    obtain ⟨⟨u, k⟩, huk, rfl⟩ := List.mem_map.1 hu
    obtain ⟨c, hc, hct⟩ := hall t n htn
    obtain ⟨d, hd, hdu⟩ := hall u k huk
    have hcd : c.exactEq d = true := by
      rw [← c.exactEq_packed, hct.alike, hdu.alike, t.exactEq_packed]
      exact heq
    obtain rfl := h.eq_of_exactEq (Array.mem_of_getElem? hc) (Array.mem_of_getElem? hd) hcd
    exact hct.alike.symm.trans hdu.alike
  · intro hall t n ht
    obtain ⟨c, hc, heq⟩ := h.entry t n ht
    have hmem := h.mem c (Array.mem_of_getElem? hc)
    exact ⟨c, hc, standsFor_iff.2 (hall c hmem t (List.mem_map_of_mem ht) heq)⟩

end Pool

/-- In a finished module the place that was given for a constant holds one of the constants that
were looked up, exactly equal to it. No constant is replaced by a different one if and only if no
two constants that were looked up are exactly equal and have at the same place terms that are
conflated. -/
theorem constants_alike_iff {name : Atom} {requests : List Request} {m : Module}
    (hfinish : ((ofName name).serveAll requests).finish = .ok m) :
    (∃ log, Interned (ofName name) log ((ofName name).serveAll requests) ∧
      LookedUp (ofName name) requests (log.map Prod.fst)) ∧
    ∀ log, Interned (ofName name) log ((ofName name).serveAll requests) →
      (∀ t n, (t, n) ∈ log →
        ∃ c ∈ log.map Prod.fst, m.constants[n.toNat]? = some c ∧ c.exactEq t = true) ∧
      ((∀ t n, (t, n) ∈ log → ∃ c, m.constants[n.toNat]? = some c ∧ StandsFor c t) ↔
        ∀ t ∈ log.map Prod.fst, ∀ u ∈ log.map Prod.fst, t.exactEq u = true →
          ∀ inside v w, Term.Facing inside t u v w → ¬ Term.Conflated v w) := by
  refine ⟨exists_log _ requests, fun log hlog => ?_⟩
  have hpooled : Pooled log m.constants := by
    rw [(finished_of_finish hfinish).constants]
    exact hlog.pooled pooled_empty
  refine ⟨fun t n ht => ?_, ?_⟩
  · obtain ⟨c, hc, heq⟩ := hpooled.entry t n ht
    exact ⟨c, hpooled.mem c (Array.mem_of_getElem? hc), hc, heq⟩
  · rw [hpooled.forall_standsFor_iff]
    refine forall₂_congr fun t _ => forall₂_congr fun u _ => imp_congr_right fun heq => ?_
    exact Term.alike_iff (t.compare_of_exactEq u heq)

/-- A body that loads two constants and returns. -/
def loading (f : Atom) (first : Nat) (t u : Term) : List Instruction := [
  ⟨.label, [.int (.ofNat first)]⟩,
  ⟨.funcInfo, [.atom "m", .atom f, .int 0]⟩,
  ⟨.label, [.int (.ofNat (first + 1))]⟩,
  ⟨.move, [.literal t, .x 0]⟩,
  ⟨.move, [.literal u, .x 0]⟩,
  ⟨.ret, []⟩]

/-- Functions that load the same bits from different buffers, and an integer and the float of the
same value. The second one is refused at its end, for it has no entry. -/
def loadingBits : List Request := [
  .function ⟨"f", 0⟩ 2 (loading "f" 1 (.bits (.ofBytes #[7])) (.tuple [.integer 1])),
  .function ⟨"g", 0⟩ 9 (loading "g" 3 (.bits (.ofBits #[7, 8] 8)) (.atom "m")),
  .function ⟨"h", 0⟩ 6
    (loading "h" 5 (.bits ((BitString.ofBytes #[9, 7]).slice 8 8))
      (.tuple [.float ⟨0x3FF0000000000000⟩])),
  .addExport ⟨"h", 0⟩]

/-- The bits share a place and the tuples do not, and no constant is replaced by a different one. -/
theorem constants_alike_iff_bits : ∃ (m : Module) (log : List (Term × UInt16)),
    ((ofName "m").serveAll loadingBits).finish = .ok m ∧
      LookedUp (ofName "m") loadingBits (log.map Prod.fst) ∧ m.constants.size = 7 ∧
      ∀ t n, (t, n) ∈ log → ∃ c, m.constants[n.toNat]? = some c ∧ StandsFor c t := by
  have hfinish : ((ofName "m").serveAll loadingBits).finish.toOption.map (·.constants.size) =
      some 7 := by
    decide +kernel
  have halike : ∀ t ∈ loadingBits.flatMap Request.constants,
      ∀ u ∈ loadingBits.flatMap Request.constants, t.exactEq u = true → t.packed = u.packed := by
    decide +kernel
  cases hmodule : ((ofName "m").serveAll loadingBits).finish with
  | error e =>
    rw [hmodule] at hfinish
    cases hfinish
  | ok m =>
    obtain ⟨⟨log, hlog, hlooked⟩, hall⟩ := constants_alike_iff hmodule
    rw [hmodule] at hfinish
    refine ⟨m, log, rfl, hlooked, Option.some.inj hfinish,
      (hall log hlog).2.2 fun t ht u hu heq => ?_⟩
    exact (Term.alike_iff (t.compare_of_exactEq u heq)).1
      (halike t (hlooked.mem ht) u (hlooked.mem hu) heq)

/-- A negative zero that is loaded after a positive one shares its place: the module has no negative
zero. -/
theorem negative_zero_replaced :
    let requests := [.function ⟨"f", 0⟩ 2
      (loading "f" 1 (.float (.zero false)) (.float (.zero true)))]
    (Term.float (.zero true)) ∈ requests.flatMap Request.constants ∧
      (Term.float (.zero true)).text = "-0.0" ∧ (Term.float (.zero false)).text = "0.0" ∧
      ((ofName "m").serveAll requests).finish.toOption.map
        (·.constants.toList) = some [.atom "m", .atom "f", .float (.zero false)] := by
  decide +kernel

end ErlangMachine.Assembler
