import ErlangMachine.Proofs.Commands
import ErlangMachine.Proofs.Encoding

/-!
# Commands from words that fit

The machine reads the operands of an instruction from its words. If the words fit the layout of the
family, then the command that it reads has operands that are allowed: its labels are places to go on
at, and its indices are ones that the tables have. `Coupling.fits_of_decode` says so for every
family, since a command refers to nothing but what its words refer to.
-/

namespace ErlangMachine

namespace Machine

/-- What words denote is allowed. -/
structure Coupling.Covers (C : Coupling) (r : Reading UInt16) : Prop where
  /-- Numbers are written as they are. -/
  number : ∀ w n, r.number w n → w = n
  /-- A label is missing, or it is where code may go on. -/
  label : ∀ w n, r.label w n → w = noLabel ∨ C.offset w.toNat
  /-- Constants are ones that commands may name. -/
  constant : ∀ n t, r.constant n t → C.constant n.toNat
  /-- Value tables are ones that commands may name. -/
  values : ∀ n table, r.values n table → C.valueTable n.toNat
  /-- Arity tables are ones that commands may name. -/
  arities : ∀ n table, r.arities n table → C.arityTable n.toNat

namespace Coupling

variable {C : Coupling} {r : Reading UInt16} (hC : C.Covers r)

include hC

/-- Words that fit refer to what is allowed, whatever stands behind them. -/
theorem allows_of_wordsFit {slots : List ErlangMachine.Slot} {vs : List Variant} {ws : List UInt16}
    (hfit : WordsFit r slots vs ws) (tail : List UInt16) :
    ∀ goal ∈ goals (laid slots vs (ws ++ tail)), C.Allows goal := by
  have hcons : ∀ {slot : ErlangMachine.Slot} {w : UInt16} {operands},
      (∀ goal ∈ slot.goals w, C.Allows goal) → (∀ goal ∈ goals operands, C.Allows goal) →
        ∀ goal ∈ goals ((slot, w) :: operands), C.Allows goal :=
    fun hfirst hrest => List.forall_mem_append.2 ⟨hfirst, hrest⟩
  -- The induction follows the words: each belongs to a plain slot, a label or a slot with variants.
  induction hfit with
  | nil => exact fun _ hgoal => by cases hgoal
  | @plain slot n w _ _ _ hlabel hplain hw hfits _ ih =>
    obtain rfl := hC.number _ _ hw
    rw [List.cons_append, laid, hplain]
    refine hcons ?_ ih
    cases slot with
    | label => exact absurd rfl hlabel
    | constant =>
      obtain ⟨t, ht⟩ := hfits
      exact List.forall_mem_singleton.2 (hC.constant w t ht)
    | valueTable =>
      obtain ⟨table, htable⟩ := hfits
      exact List.forall_mem_singleton.2 (hC.values w table htable)
    | arityTable =>
      obtain ⟨table, htable⟩ := hfits
      exact List.forall_mem_singleton.2 (hC.arities w table htable)
    | dest | source | floatSource | floatDest => cases hplain
    | _ => exact List.forall_mem_nil _
  | @label n w _ _ _ hw _ ih =>
    have hlabel : ∀ goal ∈ ErlangMachine.Slot.label.goals w, C.Allows goal := by
      rintro ⟨slot, target⟩ hgoal
      obtain ⟨rfl, rfl, hne⟩ := Slot.of_mem_goals hgoal
      exact (hC.label w n hw).resolve_left (hne rfl)
    exact hcons hlabel ih
  | @choice slot v n w _ _ _ hv hw hc _ ih =>
    obtain rfl := hC.number _ _ hw
    -- Only the variant for constants refers to anything.
    have hconstant : v = .c → C.constant w.toNat := by
      intro hvc
      obtain ⟨t, ht⟩ := hc hvc
      exact hC.constant w t ht
    cases slot with
    | dest | floatDest => exact hcons (List.forall_mem_nil _) ih
    | source | floatSource =>
      refine hcons ?_ ih
      cases v with
      | c => exact List.forall_mem_singleton.2 (hconstant rfl)
      | _ => exact List.forall_mem_nil _
    | _ => cases hv

/-- A command that was read from words that fit has allowed operands. -/
theorem fits_of_decode {family : Family} {o : Operands} {ws : List UInt16}
    (hwords : ws <+: o.words) (hfit : WordsFit r family.layout o.variants ws) {command : Command}
    {rest : Operands} (h : Command.decode family o = .ok (command, rest)) : C.Fits command := by
  obtain ⟨tail, htail⟩ := hwords
  have htold := (along_decode family o command rest h).2
  refine fits_of_allows fun goal hgoal => allows_of_wordsFit hC hfit tail goal ?_
  rw [htail]
  exact htold.goals_subset hgoal

end Coupling

end Machine

end ErlangMachine
