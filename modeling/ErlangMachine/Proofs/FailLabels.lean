import ErlangMachine.Proofs.StraightCode

/-!
# Fail labels

Many families of commands may fail, and have an operand for the label to go on at then. It stands
first, last or between others, as the layout of the family says. `Family.failLabel?` looks it up
there, and `failLabel?_of_decode` says that it is the label that the command goes on at.
-/

namespace ErlangMachine

namespace Family

/-- The label among operand words that are laid out in some way. -/
def labelAmong : List Slot → List UInt16 → Option Nat
  | .label :: _, w :: _ => if w = noLabel then none else some w.toNat
  | _ :: layout, _ :: words => labelAmong layout words
  | _, _ => none

/-- The fail label of a command of a family, whose opcode stands at an offset. -/
def failLabel? (family : Family) (code : LoadedModule) (pc : Nat) : Option Nat :=
  labelAmong family.layout
    (code.module.code.extract (pc + 1) (pc + 1 + family.layout.length)).toList

/-- Words behind those that are laid out do not count. -/
theorem labelAmong_take (layout : List Slot) (ws : List UInt16) :
    labelAmong layout (ws.take layout.length) = labelAmong layout ws := by
  induction layout generalizing ws with
  | nil => simp [labelAmong]
  | cons slot layout ih =>
    cases ws with
    | nil => rfl
    | cons w ws => cases slot <;> first | rfl | exact ih ws

/-- The label is the first one among the words with their slots. -/
theorem labelAmong_eq_firstLabel (layout : List Slot) (vs : List Variant) (ws : List UInt16) :
    labelAmong layout ws = firstLabel (laid layout vs ws) := by
  induction layout generalizing vs ws with
  | nil => simp [labelAmong, laid, firstLabel]
  | cons slot layout ih =>
    cases ws with
    | nil => simp [labelAmong, laid, firstLabel]
    | cons w ws =>
      cases slot with
      | label => rfl
      | source | floatSource =>
        rw [laid]
        cases vs.headD .x <;> exact ih _ _
      | _ => exact ih _ _

end Family

/-- The fail label of a command of a fallible family stands where the layout of the family has a
label. -/
theorem Machine.failLabel?_of_decode {code : LoadedModule} {pc : Nat} {opcode : Opcode}
    {command : Command} {rest : Operands} (hfallible : opcode.family.isFallible = true)
    (h : Command.decode opcode.family (code.operandsAt pc opcode) = .ok (command, rest)) :
    command.failLabel? = some (opcode.family.failLabel? code pc) := by
  have htold := (along_decode opcode.family _ command rest h).2
  unfold Family.failLabel?
  rw [Array.toList_extract, List.extract_eq_take_drop, Nat.add_sub_cancel_left,
    Family.labelAmong_take, Family.labelAmong_eq_firstLabel _ opcode.variants]
  exact htold.failLabel_eq hfallible

end ErlangMachine
