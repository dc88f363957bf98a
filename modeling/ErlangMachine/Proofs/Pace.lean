import ErlangMachine.Proofs.CoupledChains

/-!
# The pace of the world

A world decides how often running code is preempted. Nothing that code does depends on it: the
natives of `erlang` ignore it (`Native.IsErlang.ignoresPace`), and so commands do the same in worlds
that differ in their pace only. `unhurried` is the coupling that says so, of a first state in a
world that never preempts and a second one in a world that may, and `unhurried.laws_of_built` is its
contract, which every module of a linker with the natives of `erlang` meets.
-/

namespace ErlangMachine

/-! ## Natives do not notice the pace -/

/-- Sending does not depend on the pace. -/
theorem World.calm_send (w : World) (receiver message : Term) :
    w.calm.send receiver message = (w.send receiver message).map World.calm := by
  cases receiver with
  | pid id =>
    show (if id = w.self then _ else _) = Except.map _ (if id = w.self then _ else _)
    by_cases hid : id = w.self
    · rw [if_pos hid, if_pos hid]
      rfl
    · rw [if_neg hid, if_neg hid]
      rfl
  | _ => rfl

/-- Sending does not change the pace. -/
theorem World.pace_send {w sent : World} {receiver message : Term}
    (h : w.send receiver message = .ok sent) : sent.pace = w.pace := by
  unfold World.send at h
  cases receiver with
  | pid id =>
    dsimp only at h
    split at h
    · cases h
      rfl
    · cases h
      rfl
  | atom a =>
    cases h
    rfl
  | _ => cases h

namespace Native

/-- A native whose result does not depend on the pace of the world, and which leaves it alone. -/
def IgnoresPace (f : Native) : Prop :=
  ∀ arguments w w', w.calm = w'.calm → (f arguments w).1 = (f arguments w').1 ∧
    (f arguments w).2.calm = (f arguments w').2.calm ∧ (f arguments w).2.pace = w.pace

theorem ignoresPace_ofPure (f : List Term → Except Fault Term) : (ofPure f).IgnoresPace :=
  fun _ _ _ h => ⟨rfl, h, rfl⟩

/-- The native that gives the identity of the process. -/
theorem ignoresPace_self : self.IgnoresPace := by
  intro arguments w w' h
  have hself : w.calm.self = w'.calm.self := by rw [h]
  refine ⟨?_, h, rfl⟩
  show Except.ok (Term.pid w.calm.self) = Except.ok (Term.pid w'.calm.self)
  rw [hself]

/-- The native that sends. -/
theorem ignoresPace_send : send.IgnoresPace := by
  intro arguments w w' h
  unfold send
  split
  · rename_i receiver message
    have hsend :
        (w.send receiver message).map World.calm = (w'.send receiver message).map World.calm := by
      rw [← World.calm_send, h, World.calm_send]
    cases hw : w.send receiver message with
    | ok sent =>
      cases hw' : w'.send receiver message with
      | ok sent' =>
        rw [hw, hw'] at hsend
        exact ⟨rfl, Except.ok.inj hsend, World.pace_send hw⟩
      | error fault' =>
        rw [hw, hw'] at hsend
        cases hsend
    | error fault =>
      cases hw' : w'.send receiver message with
      | ok sent' =>
        rw [hw, hw'] at hsend
        cases hsend
      | error fault' =>
        rw [hw, hw'] at hsend
        cases hsend
        exact ⟨rfl, h, rfl⟩
  · exact ⟨rfl, h, rfl⟩

/-- A native that checks the number of its arguments first. -/
theorem IgnoresPace.ofArity {f : Native} (hf : f.IgnoresPace) (arity : Nat) :
    (f.ofArity arity).IgnoresPace := by
  intro arguments w w' h
  unfold Native.ofArity
  split
  · exact hf arguments w w' h
  · exact ⟨rfl, h, rfl⟩

/-- All natives of `erlang`. -/
theorem IsErlang.ignoresPace {id : FunctionId} {f : Native} (hf : IsErlang id f) :
    f.IgnoresPace := by
  obtain ⟨g, rfl⟩ | rfl | rfl := hf.kinds
  · exact ignoresPace_ofPure g
  · exact ignoresPace_self
  · exact ignoresPace_send

end Native

namespace Machine

/-! ## States at two paces -/

/-- States that differ only in their pace and their marks, where the first is never preempted. -/
def unhurried : Coupling where
  leaf _ := True
  entry _ _ := True
  handler _ := True
  offset _ := True
  module _ := True
  stack _ _ := True
  pace p _ := p.1 = none
  yields stop _ := stop = false
  abroad _ := True
  native := Native.IgnoresPace
  error _ := True
  constant _ := True
  valueTable _ := True
  arityTable _ := True

namespace unhurried

/-- Every term is allowed. -/
theorem good (t : Term) : unhurried.Good t := Term.every_of_forall (fun _ => trivial) t

/-- Worlds belong together if they differ in their pace only and the first never preempts. -/
theorem worlds {w w' : World} (hcalm : w.calm = w'.calm) (hinterval : w.interval = none) :
    unhurried.Worlds w w' :=
  ⟨hcalm, hinterval, fun t _ => good t, fun _ _ => ⟨trivial, trivial⟩, fun _ _ => trivial⟩

/-- Hosts belong together if their worlds do. -/
theorem hosts {host host' : Host} (hworld : unhurried.Worlds host.world host'.world) :
    unhurried.Hosts host host' where
  world := hworld
  process := ⟨fun t _ => good t, fun _ _ => trivial, fun _ _ t _ => good t⟩
  slots := fun t _ => good t

/-- States belong together if nothing but the pace and the mark tells them apart. -/
theorem related {s s' : State} (hprocess : s.process = s'.process)
    (hframe : s.frame.calm = s'.frame.calm) (hworld : unhurried.Worlds s.world s'.world) :
    unhurried.Related s s' where
  process := hprocess
  frame := hframe
  world := hworld
  goodProcess := (hosts hworld).process
  stack := trivial
  goodFrame := ⟨trivial, trivial, fun _ _ => trivial, fun _ _ t _ => good t, good _, good _⟩

/-- Every command is allowed. -/
theorem fits (command : Command) : unhurried.Fits command :=
  Coupling.fits_of_forall (fun _ => trivial) (fun _ => trivial) (fun _ => trivial)
    (fun _ => trivial) command

/-- A check for preemption makes no difference to worlds apart from their pace. -/
theorem calm_checkYield (w : World) : w.checkYield.2.calm = w.calm := by
  unfold World.checkYield
  cases w.interval with
  | none => rfl
  | some interval =>
    dsimp only
    split
    · rfl
    · rfl

/-- A world that never preempts does not preempt now. -/
theorem checkYield_of_none {w : World} (h : w.interval = none) : w.checkYield = (false, w) := by
  unfold World.checkYield
  rw [h]

/-- Worlds that belong together do so after each has been asked whether it preempts. -/
theorem worlds_checkYield {w w' : World} (hw : unhurried.Worlds w w') :
    w.checkYield.1 = false ∧ unhurried.Worlds w.checkYield.2 w'.checkYield.2 := by
  have hnone : w.interval = none := hw.pace
  have hcalm : w.calm = w'.checkYield.2.calm := by rw [calm_checkYield, hw.calm]
  rw [checkYield_of_none hnone]
  exact ⟨rfl, worlds hcalm hnone⟩

/-- The coupling asks the same everywhere. -/
theorem uniform : unhurried.Uniform where
  leaf _ _ := trivial
  floats := ⟨fun _ _ => trivial, fun _ _ => trivial, fun _ _ => trivial, fun _ => trivial⟩
  abroad _ _ := trivial
  entry _ _ := trivial
  handler _ := trivial
  offset _ := trivial
  module _ := trivial
  error _ := trivial
  stack _ _ := iff_of_true trivial fun t _ => good t
  yields _ h := by cases h
  native f arguments w w' hf _ hw := by
    obtain ⟨hresult, hcalm, hpace⟩ := hf arguments w w' hw.calm
    refine ⟨hresult, ?_, worlds hcalm ?_⟩
    · cases (f arguments w).1 with
      | ok t => exact good t
      | error fault => exact fun t _ => good t
    · exact (congrArg Prod.fst hpace).trans hw.pace
  checkYield w w' hw := worlds_checkYield hw

end unhurried

/-- What a name stands for may be called, if all natives of the linker are those of `erlang`. -/
theorem unhurried.goodCallable {linker : Linker} {module : Module → Prop}
    (hlinker : linker.Built Native.IsErlang module) {id : FunctionId} {target : Callable}
    (h : linker.resolve? id = some target) : unhurried.GoodCallable target := by
  cases target with
  | native id' f =>
    obtain ⟨g, hg, rfl⟩ := hlinker.resolve?_native h
    exact hg.ignoresPace.ofArity id.arity
  | code ref entry arity captured => exact ⟨trivial, fun t _ => unhurried.good t⟩

/-- Every module of a linker obeys the laws of the coupling, if all its natives are those of
`erlang`. -/
theorem unhurried.laws_of_built {linker : Linker} {module : Module → Prop}
    (hlinker : linker.Built Native.IsErlang module) {ref : ModuleRef} {code : LoadedModule}
    (hcode : linker.get? ref = some code) : unhurried.Laws linker code := by
  refine unhurried.uniform.laws (fun t _ => unhurried.good t) (fun i target h => ?_)
    fun id target => unhurried.goodCallable hlinker
  obtain ⟨l₀, id₀, hl₀, -, h₀⟩ := hlinker.binding hcode h
  exact unhurried.goodCallable hl₀ h₀

end Machine

end ErlangMachine
