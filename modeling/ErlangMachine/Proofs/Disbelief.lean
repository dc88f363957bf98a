import ErlangMachine.Proofs.Constancy
import ErlangMachine.Proofs.FailLabels
import ErlangMachine.Proofs.Linking
import ErlangMachine.Proofs.UtfReaders

/-!
# Tests branch on disbelief

A command that tests something, or needs something to fit, ends in one of three ways unless the
machine gives up: what it tests holds, and the command behind it is next; it does not hold and there
is a fail label, and the code goes on there; or it does not hold and there is none, and a fault is
raised. If it does not hold then nothing has changed but the program counter and the sources that
were prefetched for the command (`State.Untouched`), although a command that reads from a cursor has
then put it back to its place.

`Command.refusal?` says what each command tests. The proof has a rule for each action that commands
end with (`Verdict`), and what has to be shown of a command is that it comes to one of these actions
with the state untouched.
-/

namespace ErlangMachine.Machine

open BitString (Cursor)

variable {place : Place} {c : Cursor} {label : Option Nat}

/-! ## What is tested -/

/-- The cursor that stands at a place. -/
def State.cursor? (s : State) (place : Place) : Option Cursor :=
  match s.at? place with
  | some (.cursor c) => some c
  | _ => none

/-- A constant that is a bit string. -/
def literal? (code : LoadedModule) (index : Nat) : Option BitString :=
  code.module.constants[index]?.bind Term.bits?

/-- A term that a match can start on. -/
def canMatch : Term → Bool
  | .bits _ | .cursor _ => true
  | _ => false

/-- Whether what a matching command tests holds. -/
def MatchCommand.holds (code : LoadedModule) (s : State) : MatchCommand → Bool
  | start .. => canMatch s.frame.fetched.1
  | get type place unit encoding _ _ =>
    ((SegmentSize.of? s.frame.fetched.1 unit).bind fun size =>
      (s.cursor? place).bind fun c => (takeSegment type c size unit encoding).1).isSome
  | skip place unit _ =>
    ((SegmentSize.of? s.frame.fetched.1 unit).bind fun size =>
      (s.cursor? place).bind (·.skip? size.bits? unit)).isSome
  | testTail place size _ => (s.cursor? place).any (·.testTail size)
  | testUnit place unit _ => (s.cursor? place).any (·.testUnit unit)
  | literal place index _ =>
    ((literal? code index).bind fun b => (s.cursor? place).bind (·.literal? b)).isSome
  | getUtf form place encoding _ _ | skipUtf form place encoding _ =>
    ((s.cursor? place).bind fun c => (form.take c encoding).1).isSome
  | save .. | restore .. | toBits _ => true

/-- Whether what a building command needs holds. -/
def BuildCommand.holds (code : LoadedModule) (s : State) : BuildCommand → Bool
  | init unit _ _ => ((SegmentSize.of? s.frame.fetched.1 unit).bind SegmentSize.bits?).isSome
  | initWritable => true
  | append unit _ _ =>
    s.frame.fetched.1.size?.isSome &&
      s.frame.fetched.2.bits?.any fun b => unit ≤ 1 ∨ b.size % unit = 0
  | put type unit encoding _ =>
    ((SegmentSize.of? s.frame.fetched.1 unit).bind fun size =>
      s.frame.bits.bind fun b => writeSegment? type b.1 size s.frame.fetched.2 encoding).isSome
  | putLiteral index =>
    ((literal? code index).bind fun l => s.frame.bits.bind (·.1.putBitString? l none)).isSome
  | putUtf form encoding _ =>
    (s.frame.fetched.1.integer?.bind fun i =>
      s.frame.bits.bind fun b => writeUtf? form b.1 i.toInt encoding).isSome
  | utf8Size .. => (s.frame.fetched.1.integer?.bind fun i => Unicode.size8? i.toInt).isSome
  | utf16Size .. => (s.frame.fetched.1.integer?.bind fun i => Unicode.size16? i.toInt).isSome
  | add unit _ _ => (addSizes? s.frame.fetched.1 s.frame.fetched.2 unit).isSome

/-- The fault for what does not hold. -/
def refusalUnless (holds : Bool) : Option Fault := if holds then none else some .badarg

/-- The fault of a native that is called by its import. -/
def nativeFault? (code : LoadedModule) (w : World) (index : Nat) (arguments : List Term) :
    Option Fault :=
  match code.binding? index with
  | some (.native _ native) =>
    match (native arguments w).1 with
    | .ok _ => none
    | .error fault => some fault
  | _ => some .undefined

/-- The fault with which a command fails, if it fails. -/
def Command.refusal? (code : LoadedModule) (s : State) : Command → Option Fault
  | typeTest test _ => refusalUnless (test.holds s.frame.fetched.1)
  | testArity _ arity =>
    refusalUnless (s.frame.fetched.1.tuple?.any fun elements => elements.length = arity)
  | testFunctionArity _ =>
    refusalUnless (s.frame.fetched.1.functionArity?.any fun n => s.frame.fetched.2.size? = some n)
  | compare comparison _ => refusalUnless (comparison.holds s.frame.fetched.1 s.frame.fetched.2)
  | native count index _ _ =>
    nativeFault? code s.world index ([s.frame.fetched.1, s.frame.fetched.2].take count)
  | matching command => refusalUnless (command.holds code s)
  | building command => refusalUnless (command.holds code s)
  | _ => none

/-! ## How it goes on -/

/-- How a command that may fail ends in a state, given the offset behind it, its fail label and the
fault for what does not hold. -/
inductive Verdict (s : State) (next : Nat) (label : Option Nat) (refusal : Option Fault) :
    EStateM.Result Stop State Flow → Prop where
  /-- What it tests holds, and the command behind it is next. -/
  | believed {t : State} (h : refusal = none) (hpc : t.frame.pc = next) :
    Verdict s next label refusal (.ok .next t)
  /-- It does not hold, and the code goes on at the fail label. -/
  | branched {t : State} {target : Nat} (h : refusal ≠ none) (hlabel : label = some target)
    (hpc : t.frame.pc = target) (hsame : s.Untouched t) :
    Verdict s next label refusal (.ok .next t)
  /-- It does not hold, and a fault is raised. -/
  | raised {t : State} {fault : Fault} (h : refusal = some fault) (hlabel : label = none)
    (hsame : s.Untouched t) : Verdict s next label refusal (.error (.fault fault) t)
  /-- The machine gives up. -/
  | broken {t : State} {error : Error} : Verdict s next label refusal (.error (.broken error) t)

section Verdicts

variable {α β : Type} {s u : State} {next : Nat} {label : Option Nat} {refusal : Option Fault}

/-- What was done before to an untouched state does not matter. -/
theorem Verdict.after {r : EStateM.Result Stop State Flow} (hsame : s.Untouched u)
    (h : Verdict u next label refusal r) : Verdict s next label refusal r := by
  cases h with
  | believed h hpc => exact .believed h hpc
  | branched h hlabel hpc hsame' => exact .branched h hlabel hpc (hsame.trans hsame')
  | raised h hlabel hsame' => exact .raised h hlabel (hsame.trans hsame')
  | broken => exact .broken

/-- An action that gives a value with some property and leaves the program counter alone, or gives
up. -/
def Exec.Steady (action : Exec α) (Q : α → Prop) : Prop :=
  ∀ s : State, (∃ a t, action.run s = .ok a t ∧ Q a ∧ t.frame.pc = s.frame.pc) ∨
    ∃ e t, action.run s = .error (.broken e) t

/-- One steady action after another. -/
theorem Exec.Steady.bind {action : Exec α} {k : α → Exec β} {Q : α → Prop} {R : β → Prop}
    (h : action.Steady Q) (hk : ∀ a, Q a → (k a).Steady R) : (action >>= k).Steady R := by
  intro s
  rcases h s with ⟨a, t, hrun, ha, hpc⟩ | ⟨e, t, hrun⟩
  · rw [EStateM.run_bind, hrun]
    rcases hk a ha t with ⟨b, t', hrun', hb, hpc'⟩ | hrun'
    · exact .inl ⟨b, t', hrun', hb, hpc'.trans hpc⟩
    · exact .inr hrun'
  · rw [EStateM.run_bind, hrun]
    exact .inr ⟨e, t, rfl⟩

theorem steady_next : (pure Flow.next : Exec Flow).Steady (· = .next) :=
  fun s => .inl ⟨.next, s, rfl, rfl, rfl⟩

theorem steady_get : (get : Exec State).Steady fun _ => True :=
  fun s => .inl ⟨s, s, rfl, trivial, rfl⟩

/-- A change of the frame, but not of the program counter. -/
theorem steady_modifyFrame {f : Frame → Frame} (h : ∀ g, (f g).pc = g.pc) :
    (Exec.modifyFrame f).Steady fun _ => True :=
  fun s => .inl ⟨(), _, rfl, trivial, h s.frame⟩

/-- Writing. -/
theorem steady_write (place : Place) (t : Term) : (Exec.write place t).Steady fun _ => True := by
  intro s
  by_cases hslot : (s.at? place).isSome
  · exact .inl ⟨(), _, write_run hslot, trivial, by rw [frame_put]⟩
  · obtain ⟨e, hrun⟩ := Exec.write_run_none hslot t
    exact .inr ⟨e, s, hrun⟩

theorem steady_writeLast (place : Place) (t : Term) :
    (Exec.write place t >>= fun _ => pure Flow.next).Steady (· = .next) :=
  (steady_write place t).bind fun _ _ => steady_next

/-- A bit string that goes to its place. -/
theorem steady_writeBits (dest : Place) (b : BitString) :
    (Exec.writeBits dest b).Steady fun _ => True := by
  intro s
  exact steady_write dest (.bits (b.inBuffer s.world.nextBuffer))
    { s with world := { s.world with nextBuffer := s.world.nextBuffer + 1 } }

/-- A builder that is complete or goes on. -/
theorem steady_publish (b : BitString.Builder) (dest : Place) :
    (Exec.publish b dest).Steady (· = .next) := by
  unfold Exec.publish
  split
  · exact Exec.Steady.bind (steady_modifyFrame fun _ => rfl) fun _ _ =>
      (steady_writeBits dest _).bind fun _ _ => steady_next
  · exact Exec.Steady.bind (steady_modifyFrame fun _ => rfl) fun _ _ => steady_next

theorem steady_openBuilder (b : BitString.Builder) (dest : Place) :
    (Exec.openBuilder b dest).Steady (· = .next) :=
  (steady_writeBits dest _).bind fun _ _ => steady_publish b dest

/-- What holds, and an action that goes on with the next command. -/
theorem verdict_steady {action : Exec Flow} (h : action.Steady (· = .next))
    (hrefusal : refusal = none) (hpc : u.frame.pc = next) :
    Verdict s next label refusal (action.run u) := by
  rcases h u with ⟨flow, t, hrun, rfl, hpc'⟩ | ⟨e, t, hrun⟩
  · rw [hrun]
    exact .believed hrefusal (hpc'.trans hpc)
  · rw [hrun]
    exact .broken

/-- What does not hold, where there is a fail label. -/
theorem verdict_goto (fault : Fault) (target : Nat) :
    Verdict s next (some target) (some fault) ((Exec.goto target).run s) :=
  .branched (Option.some_ne_none fault) rfl rfl ⟨rfl, target, _, _, rfl⟩

/-- What does not hold, where there is none. -/
theorem verdict_raise (fault : Fault) :
    Verdict s next none (some fault) ((Exec.raise fault).run s) :=
  .raised rfl rfl (.refl s)

/-- What does not hold. -/
theorem verdict_fail (hrefusal : refusal = some .badarg) :
    Verdict s next label refusal ((Exec.fail label).run s) := by
  rw [hrefusal]
  cases label with
  | some target => exact verdict_goto .badarg target
  | none => exact verdict_raise .badarg

/-- A test. -/
theorem verdict_branch (passed : Bool) :
    Verdict s s.frame.pc label (refusalUnless passed) ((Exec.branch passed label).run s) := by
  cases passed with
  | true => exact .believed rfl rfl
  | false => exact verdict_fail rfl

/-- What was found, or a failure. -/
theorem verdict_found {found : Option α} {k : Option α → Exec Flow}
    (hfound : ∀ a, (k (some a)).Steady (· = .next)) (hnothing : k none = Exec.fail label)
    (hrefusal : refusal = refusalUnless found.isSome) :
    Verdict s s.frame.pc label refusal ((k found).run s) := by
  cases found with
  | some a => exact verdict_steady (hfound a) hrefusal rfl
  | none =>
    rw [hnothing]
    exact verdict_fail hrefusal

/-- The first prefetched source. -/
theorem verdict_takeFirst {k : Term → Exec Flow}
    (h : Verdict (s.fetching (.nil, s.frame.fetched.2)) next label refusal
      ((k s.frame.fetched.1).run (s.fetching (.nil, s.frame.fetched.2)))) :
    Verdict s next label refusal ((Exec.takeFirst >>= k).run s) :=
  .after (.fetching s _) h

/-- The second prefetched source. -/
theorem verdict_takeSecond {k : Term → Exec Flow}
    (h : Verdict (s.fetching (s.frame.fetched.1, .nil)) next label refusal
      ((k s.frame.fetched.2).run (s.fetching (s.frame.fetched.1, .nil)))) :
    Verdict s next label refusal ((Exec.takeSecond >>= k).run s) :=
  .after (.fetching s _) h

/-- A register that holds something is there. -/
theorem lt_of_x_ne_nil {p : Process} {n : Nat} (h : p.x n ≠ .nil) : n < p.registers.size := by
  refine Decidable.byContradiction fun hn => h ?_
  unfold Process.x
  rw [Array.getD_eq_getD_getElem?, Array.getElem?_eq_none (Nat.le_of_not_lt hn)]
  rfl

/-- Registers that are there are not made again. -/
theorem ensureRegisters_eq {p : Process} {n : Nat} (h : n ≤ p.registers.size) :
    p.ensureRegisters n = p := by
  unfold Process.ensureRegisters
  rw [Nat.sub_eq_zero_of_le h, Array.replicate_zero, Array.append_empty]

/-- A cursor that is put back to where it came from changes nothing. -/
theorem put_cursor (hat : s.at? place = some (.cursor c)) : s.put place (.cursor c) = s := by
  cases place with
  | x n =>
    have hx : s.process.x n = .cursor c := Option.some.inj hat
    have hn : n < s.process.registers.size := lt_of_x_ne_nil (by rw [hx]; exact Term.noConfusion)
    have hregister : s.process.registers[n] = .cursor c := by
      unfold Process.x at hx
      rwa [Array.getD_eq_getD_getElem?, Array.getElem?_eq_getElem hn] at hx
    have hset : s.process.setX n (.cursor c) = s.process := by
      unfold Process.setX
      dsimp only
      rw [ensureRegisters_eq hn, Array.setIfInBounds_def, dif_pos hn, ← hregister,
        Array.set_getElem_self]
    unfold State.put
    dsimp only
    rw [hset]
  | y n =>
    unfold State.at? at hat
    dsimp only at hat
    have hslot : s.process.stack[n]? = some (.cursor c) := by
      split at hat
      · exact hat
      · cases hat
    have hset : s.process.stack.set n (.cursor c) = s.process.stack := by
      obtain ⟨hn, hget⟩ := List.getElem?_eq_some_iff.1 hslot
      rw [← hget, List.set_getElem_self]
    unfold State.put
    dsimp only
    rw [hset]

/-- New registers hold what missing ones stand for. -/
theorem x_ensureRegisters (p : Process) (m n : Nat) : (p.ensureRegisters m).x n = p.x n := by
  unfold Process.x Process.ensureRegisters
  rw [Array.getD_eq_getD_getElem?, Array.getD_eq_getD_getElem?, Array.getElem?_append]
  split
  · rfl
  · rename_i hn
    rw [Array.getElem?_eq_none (Nat.le_of_not_lt hn), Array.getElem?_replicate]
    split
    · rfl
    · rfl

/-- What stands at a place is read and nothing changes, or nothing stands there and the machine
gives up. -/
theorem read_run (place : Place) (s : State) :
    (∃ t, s.at? place = some t ∧ (Exec.read place).run s = .ok t s) ∨
      ∃ e, (Exec.read place).run s = .error (.broken e) s := by
  cases hat : s.at? place with
  | some t =>
    have hrun : (Exec.source default (.place place)).run s = .ok t s := source_run hat
    exact .inl ⟨t, rfl, hrun⟩
  | none =>
    refine .inr ?_
    cases place with
    | x n => cases hat
    | y n =>
      have hn : s.process.depth - s.frame.base ≤ n := by
        refine Nat.le_of_not_lt fun hlt => ?_
        have hsome := isSome_at?_y.2 hlt
        rw [hat] at hsome
        cases hsome
      refine ⟨.badStackSlot n (s.process.depth - s.frame.base), ?_⟩
      unfold Exec.read Exec.checkSlot
      simp only [EStateM.run_bind, EStateM.run_get, if_pos hn]
      rfl

/-- The state in which the register of a place is there. -/
def State.reserve (s : State) : Place → State
  | .x n => { s with process := s.process.ensureRegisters (n + 1) }
  | .y _ => s

/-- A register holds the same before it is there. -/
theorem at?_reserve (s : State) (place : Place) : (s.reserve place).at? place = s.at? place := by
  cases place with
  | x n => exact congrArg some (x_ensureRegisters s.process (n + 1) n)
  | y n => rfl

/-- The register of a cursor is there. -/
theorem reserve_eq (h : s.at? place = some (.cursor c)) : s.reserve place = s := by
  cases place with
  | x n =>
    have hx : s.process.x n = .cursor c := Option.some.inj h
    have hn : n < s.process.registers.size := lt_of_x_ne_nil (by rw [hx]; exact Term.noConfusion)
    unfold State.reserve
    dsimp only
    rw [ensureRegisters_eq hn]
  | y n => rfl

/-- The cursor at a place is found there and nothing changes, or there is none and the machine gives
up. -/
theorem cursor_run (place : Place) (operation : String) (s : State) :
    (∃ c, s.at? place = some (.cursor c) ∧ (Exec.cursor place operation).run s = .ok c s) ∨
      ∃ e t, (Exec.cursor place operation).run s = .error (.broken e) t := by
  -- A register is read after it has been made, and what is read has to be a cursor.
  obtain ⟨k, hrun, hk⟩ : ∃ k : Term → Exec Cursor,
      (Exec.cursor place operation).run s = (Exec.read place >>= k).run (s.reserve place) ∧
      ∀ t u, (∃ c, t = .cursor c ∧ (k t).run u = .ok c u) ∨
        ∃ e, (k t).run u = .error (.broken e) u := by
    cases place with
    | x n =>
      refine ⟨_, run_bind_ok (t := s.reserve (.x n)) rfl, fun t u => ?_⟩
      split
      · exact .inl ⟨_, rfl, rfl⟩
      · exact .inr ⟨_, rfl⟩
    | y n =>
      refine ⟨_, rfl, fun t u => ?_⟩
      split
      · exact .inl ⟨_, rfl, rfl⟩
      · exact .inr ⟨_, rfl⟩
  rcases read_run place (s.reserve place) with ⟨t, hat, hread⟩ | ⟨e, hread⟩
  · rw [at?_reserve] at hat
    rw [hrun, run_bind_ok hread]
    rcases hk t (s.reserve place) with ⟨c, rfl, hcursor⟩ | ⟨e, hbroken⟩
    · rw [hcursor, reserve_eq hat]
      exact .inl ⟨c, hat, rfl⟩
    · exact .inr ⟨e, _, hbroken⟩
  · rw [hrun, EStateM.run_bind, hread]
    exact .inr ⟨e, _, rfl⟩

/-- What a command does with the cursor at a place. -/
theorem verdict_cursor {operation : String} {k : Cursor → Exec Flow}
    (h : ∀ c, s.at? place = some (.cursor c) → Verdict s next label refusal ((k c).run s)) :
    Verdict s next label refusal ((Exec.cursor place operation >>= k).run s) := by
  rcases cursor_run place operation s with ⟨c, hat, hrun⟩ | ⟨e, t, hrun⟩
  · rw [run_bind_ok hrun]
    exact h c hat
  · rw [EStateM.run_bind, hrun]
    exact .broken

/-- What a command does with what it has read from the cursor at a place. A cursor that has found
nothing stands where it stood, so that putting it back changes nothing. -/
theorem verdict_read {read : Option α × Cursor} {k : Option α → Exec Flow}
    (hat : s.at? place = some (.cursor c)) (htakes : Cursor.Takes c read)
    (hfound : ∀ a, (k (some a)).Steady (· = .next)) (hnothing : k none = Exec.fail label)
    (hrefusal : refusal = refusalUnless read.1.isSome) :
    Verdict s s.frame.pc label refusal
      ((Exec.putCursor place read.2 >>= fun _ => k read.1).run s) := by
  cases htakes with
  | found a hn =>
    exact verdict_steady ((steady_write place _).bind fun _ _ => hfound a) hrefusal rfl
  | nothing =>
    have hwrite : (Exec.putCursor place c).run s = .ok () (s.put place (.cursor c)) :=
      write_run (by rw [hat]; rfl)
    rw [run_bind_ok hwrite, put_cursor hat, hnothing]
    exact verdict_fail hrefusal

/-- What was found, or a failure. -/
theorem verdict_deliverRead {read : Option Term × Cursor} (hat : s.at? place = some (.cursor c))
    (htakes : Cursor.Takes c read) (dest : Place)
    (hrefusal : refusal = refusalUnless read.1.isSome) :
    Verdict s s.frame.pc label refusal ((Exec.deliverRead place dest label read).run s) :=
  verdict_read hat htakes (steady_writeLast dest) rfl hrefusal

/-- A constant that has to be a bit string. -/
theorem verdict_literalBits {code : LoadedModule} {index : Nat} {k : BitString → Exec Flow}
    (h : ∀ b, literal? code index = some b → Verdict s next label refusal ((k b).run s)) :
    Verdict s next label refusal ((Exec.literalBits code index >>= k).run s) := by
  unfold literal? at h
  unfold Exec.literalBits
  rw [EStateM.run_bind, EStateM.run_bind]
  cases hconstant : code.module.constants[index]? with
  | none =>
    have hrun : (Exec.source code (.constant index)).run s =
        .error (.broken (.missingEntry "constant" index)) s := by
      unfold Exec.source
      dsimp only
      rw [hconstant]
      rfl
    rw [hrun]
    exact .broken
  | some t =>
    have hrun : (Exec.source code (.constant index)).run s = .ok t s := source_run hconstant
    rw [hrun]
    rw [hconstant] at h
    cases t with
    | bits b => exact h b rfl
    | _ => exact .broken

/-- The bit string under construction. -/
theorem verdict_builder {operation : String} {k : BitString.Builder × Place → Exec Flow}
    (h : ∀ b, s.frame.bits = some b → Verdict s next label refusal ((k b).run s)) :
    Verdict s next label refusal ((Exec.builder operation >>= k).run s) := by
  cases hbits : s.frame.bits with
  | none =>
    have hrun : (Exec.builder operation).run s = .error (.broken (.noBinary operation)) s := by
      unfold Exec.builder
      simp only [Exec.frame, EStateM.run_bind, EStateM.run_get, EStateM.run_pure, hbits]
      rfl
    rw [EStateM.run_bind, hrun]
    exact .broken
  | some b =>
    have hrun : (Exec.builder operation).run s = .ok b s := by
      unfold Exec.builder
      simp only [Exec.frame, EStateM.run_bind, EStateM.run_get, EStateM.run_pure, hbits]
    rw [run_bind_ok hrun]
    exact h b hbits

end Verdicts

section Commands

open Exec

variable (s : State)

/-- What is read is a term in the end. -/
theorem takes_termRead {α : Type} {read : Option α × Cursor} (h : Cursor.Takes c read)
    (term : α → Term) : Cursor.Takes c (termRead term read) := by
  cases h with
  | found a hn => exact .found (term a) hn
  | nothing => exact .nothing

/-- Reading a segment moves the cursor on or leaves it where it is. -/
theorem takes_segment (type : SegmentType) (c : Cursor) (size : SegmentSize) (unit : Nat)
    (encoding : Encoding) : Cursor.Takes c (takeSegment type c size unit encoding) := by
  unfold takeSegment
  split
  · exact takes_termRead (Cursor.takes_integer c _ encoding) _
  · exact takes_termRead (Cursor.takes_float c _ encoding) _
  · exact takes_termRead (Cursor.takes_bits c _ unit) _
  · exact .nothing

theorem cursor?_eq {s : State} (h : s.at? place = some (.cursor c)) : s.cursor? place = some c := by
  unfold State.cursor?
  rw [h]

/-- A matching command ends as what it tests says. -/
theorem verdict_matching (code : LoadedModule) {command : MatchCommand}
    (hlabel : (Command.matching command).failLabel? = some label) :
    Verdict s s.frame.pc label (refusalUnless (command.holds code s))
      ((command.run code).run s) := by
  cases command with
  | start label' slots dest =>
    cases hlabel
    refine verdict_takeFirst
      (verdict_found (k := deliver dest label) (steady_writeLast dest) rfl ?_)
    show refusalUnless (canMatch s.frame.fetched.1) = _
    cases s.frame.fetched.1 <;> rfl
  | get type place unit encoding dest label' =>
    cases hlabel
    refine verdict_takeFirst ?_
    unfold MatchCommand.holds
    dsimp only
    cases SegmentSize.of? s.frame.fetched.1 unit with
    | none => exact verdict_fail rfl
    | some size =>
      refine verdict_cursor fun c hat =>
        verdict_deliverRead hat (takes_segment type c size unit encoding) dest ?_
      have hc : s.cursor? place = some c := cursor?_eq hat
      rw [hc]
      rfl
  | skip place unit label' =>
    cases hlabel
    refine verdict_takeFirst ?_
    unfold MatchCommand.holds
    dsimp only
    cases SegmentSize.of? s.frame.fetched.1 unit with
    | none => exact verdict_fail rfl
    | some size =>
      refine verdict_cursor fun c hat => verdict_found (fun _ => steady_writeLast place _) rfl ?_
      have hc : s.cursor? place = some c := cursor?_eq hat
      rw [hc]
      rfl
  | testTail place size label' | testUnit place unit label' =>
    cases hlabel
    refine verdict_cursor fun c hat => ?_
    unfold MatchCommand.holds
    dsimp only
    rw [cursor?_eq hat]
    exact verdict_branch _
  | literal place index label' =>
    cases hlabel
    refine verdict_literalBits fun b hb => verdict_cursor fun c hat =>
      verdict_found (fun _ => steady_writeLast place _) rfl ?_
    unfold MatchCommand.holds
    dsimp only
    rw [hb, cursor?_eq hat]
    rfl
  | getUtf form place encoding dest label' =>
    cases hlabel
    refine verdict_cursor fun c hat =>
      verdict_deliverRead hat (takes_termRead (form.takes_take c encoding) _) dest ?_
    unfold MatchCommand.holds termRead
    dsimp only
    rw [cursor?_eq hat, Option.isSome_map]
    rfl
  | skipUtf form place encoding label' =>
    obtain rfl := Option.some.inj hlabel
    refine verdict_cursor fun c hat => ?_
    unfold MatchCommand.holds
    dsimp only
    rw [cursor?_eq hat]
    exact verdict_read (k := fun char => branch char.isSome label') hat (form.takes_take c encoding)
      (fun _ => steady_next) rfl rfl
  | save _ _ | restore _ _ | toBits _ => cases hlabel

/-- A building command ends as what it needs says. -/
theorem verdict_building (code : LoadedModule) (callers : List Caller) {command : BuildCommand}
    (hlabel : (Command.building command).failLabel? = some label) :
    Verdict s s.frame.pc label (refusalUnless (command.holds code s))
      ((command.run code callers).run s) := by
  cases command with
  | init unit dest label' =>
    cases hlabel
    refine verdict_takeFirst ?_
    unfold BuildCommand.holds
    dsimp only
    cases SegmentSize.of? s.frame.fetched.1 unit with
    | none => exact verdict_fail rfl
    | some size =>
      cases size with
      | bits n => exact verdict_steady (steady_openBuilder _ dest) rfl rfl
      | all => exact verdict_fail rfl
  | initWritable =>
    exact verdict_steady ((steady_writeBits (.x 0) .empty).bind fun _ _ => steady_next) rfl rfl
  | append unit dest label' =>
    cases hlabel
    refine verdict_takeFirst (verdict_takeSecond ?_)
    unfold BuildCommand.holds
    dsimp only
    split
    · -- Both operands are of the right kind, so the unit decides.
      rename_i existing extra hsecond hextra
      have hbits : s.frame.fetched.2 = .bits existing := hsecond
      have hsize : s.frame.fetched.1.size? = some extra := hextra
      have hholds : (s.frame.fetched.1.size?.isSome && s.frame.fetched.2.bits?.any fun b =>
          decide (unit ≤ 1 ∨ b.size % unit = 0)) =
            decide (unit ≤ 1 ∨ existing.size % unit = 0) := by
        rw [hbits, hsize]
        rfl
      rw [hholds]
      split
      · rename_i hunit
        rw [decide_eq_true hunit]
        exact verdict_steady (steady_get.bind fun _ _ => steady_openBuilder _ dest) rfl rfl
      · rename_i hunit
        rw [decide_eq_false hunit]
        exact verdict_fail rfl
    · -- One of the operands is not, and which one does not matter.
      rename_i hneither
      cases hsize : s.frame.fetched.1.size? with
      | none => exact verdict_fail rfl
      | some extra =>
        cases hbits : s.frame.fetched.2 with
        | bits existing => exact absurd hsize (hneither existing extra hbits)
        | _ => exact verdict_fail rfl
  | put type unit encoding label' =>
    cases hlabel
    refine verdict_takeFirst (verdict_takeSecond ?_)
    unfold BuildCommand.holds
    dsimp only
    cases SegmentSize.of? s.frame.fetched.1 unit with
    | none => exact verdict_fail rfl
    | some size =>
      refine verdict_builder fun b hb => verdict_found (steady_publish · b.2) rfl ?_
      have hbits : s.frame.bits = some b := hb
      rw [hbits]
      rfl
  | putLiteral index =>
    cases hlabel
    refine verdict_literalBits fun l hl => verdict_builder fun b hb =>
      verdict_found (k := extend b.2 none) (steady_publish · b.2) rfl ?_
    unfold BuildCommand.holds
    dsimp only
    rw [hl, hb]
    rfl
  | putUtf form encoding label' =>
    cases hlabel
    refine verdict_takeFirst ?_
    unfold BuildCommand.holds
    dsimp only
    cases s.frame.fetched.1.integer? with
    | none => exact verdict_fail rfl
    | some i =>
      refine verdict_builder fun b hb => verdict_found (steady_publish · b.2) rfl ?_
      have hbits : s.frame.bits = some b := hb
      rw [hbits]
      rfl
  | utf8Size dest label' | utf16Size dest label' =>
    cases hlabel
    refine verdict_takeFirst
      (verdict_found (k := deliver dest label) (steady_writeLast dest) rfl ?_)
    unfold BuildCommand.holds
    dsimp only
    rw [Option.isSome_map]
  | add unit dest label' =>
    cases hlabel
    exact verdict_takeFirst (verdict_takeSecond (verdict_found (steady_writeLast dest) rfl rfl))

/-- A native of `erlang` that fails leaves the world alone. -/
theorem world_of_fault {id : FunctionId} {f : Native} (hf : Native.IsErlang id f)
    {arguments : List Term} {w : World} {fault : Fault}
    (h : (f.ofArity id.arity arguments w).1 = .error fault) :
    (f.ofArity id.arity arguments w).2 = w := by
  unfold Native.ofArity at h ⊢
  split
  · rename_i harity
    rw [if_pos harity] at h
    rcases hf.kinds with ⟨g, rfl⟩ | rfl | rfl
    · rfl
    · rfl
    · unfold Native.send at h ⊢
      split
      · dsimp only at h
        split at h
        · cases h
        · rfl
      · rfl
  · rfl

/-- What a command does with the result of a native of `erlang` that it calls. -/
theorem verdict_callNative {s : State} {code : LoadedModule} {index : Nat} {id : FunctionId}
    {f : Native} {k : Except Fault Term → Exec Flow} (hf : Native.IsErlang id f)
    (hbinding : code.binding? index = some (.native id (f.ofArity id.arity)))
    (arguments : List Term) (hok : ∀ v, (k (.ok v)).Steady (· = .next))
    (herror : ∀ fault u, Verdict u u.frame.pc label (some fault) ((k (.error fault)).run u)) :
    Verdict s s.frame.pc label (nativeFault? code s.world index arguments)
      ((callNative code index arguments >>= k).run s) := by
  have hrun : (callNative code index arguments).run s =
      .ok (f.ofArity id.arity arguments s.world).1
        { s with world := (f.ofArity id.arity arguments s.world).2 } := by
    unfold callNative
    rw [hbinding]
    rfl
  rw [run_bind_ok hrun]
  unfold nativeFault?
  rw [hbinding]
  dsimp only
  cases hresult : (f.ofArity id.arity arguments s.world).1 with
  | ok v => exact verdict_steady (hok v) rfl rfl
  | error fault =>
    rw [world_of_fault hf hresult]
    exact herror fault s

/-- A command that may fail ends as what it tests says. -/
theorem verdict_run (linker : Linker) (code : LoadedModule) (callers : List Caller)
    {command : Command} (hlabel : command.failLabel? = some label)
    (hnative : ∀ count index label dest, command = .native count index label dest →
      ∃ id f, Native.IsErlang id f ∧
        code.binding? index = some (.native id (f.ofArity id.arity))) :
    Verdict s s.frame.pc label (command.refusal? code s)
      ((command.run linker code callers).run s) := by
  cases command with
  | typeTest test label' | testArity label' arity =>
    cases hlabel
    exact verdict_takeFirst (verdict_branch _)
  | testFunctionArity label' | compare comparison label' =>
    cases hlabel
    exact verdict_takeFirst (verdict_takeSecond (verdict_branch _))
  | native count index label' dest =>
    obtain rfl := Option.some.inj hlabel
    obtain ⟨id, f, hf, hbinding⟩ := hnative count index label' dest rfl
    unfold Command.run Command.refusal?
    -- The prefetched sources are the arguments, as many as there are.
    rcases count with _ | _ | n
    case' zero => refine verdict_callNative hf hbinding [] (steady_writeLast dest) ?_
    case' succ.zero =>
      refine verdict_takeFirst ?_
      refine verdict_callNative hf hbinding [s.frame.fetched.1] (steady_writeLast dest) ?_
    case' succ.succ =>
      simp only [pure_bind]
      refine verdict_takeFirst (verdict_takeSecond ?_)
      rw [List.take_of_length_le (Nat.le_add_left 2 n)]
      refine verdict_callNative hf hbinding [s.frame.fetched.1, s.frame.fetched.2]
        (steady_writeLast dest) ?_
    all_goals
      intro fault u
      cases label' with
      | some target => exact verdict_goto fault target
      | none => exact verdict_raise fault
  | matching command => exact verdict_matching s code hlabel
  | building command => exact verdict_building s code callers hlabel
  | _ => cases hlabel

/-- Tests branch on disbelief. If what a command of a fallible family tests holds, the code goes on
behind the words of the command. If it does not hold, the code goes on at the fail label or, without
one, the fault for what does not hold is raised, and in both cases the state is untouched. Unless
the machine gives up there is no other way to end. A native that is called has to be one of
`erlang`: others may have changed the world before they fail. -/
theorem tests_branch_on_disbelief (linker : Linker) (code : LoadedModule) (callers : List Caller)
    {word : UInt16} {opcode : Opcode} (hword : code.module.code[s.frame.pc]? = some word)
    (hopcode : Opcode.ofWord? word = some opcode) (hfallible : opcode.family.isFallible = true)
    (hnative : ∀ count index label dest,
      code.commandAt? s.frame.pc = some (.native count index label dest) →
        ∃ id f, Native.IsErlang id f ∧
          code.binding? index = some (.native id (f.ofArity id.arity))) :
    Verdict s (s.frame.pc + 1 + opcode.family.layout.length)
      (opcode.family.failLabel? code s.frame.pc)
      ((code.commandAt? s.frame.pc).bind (·.refusal? code s))
      ((execute linker code callers).run s) := by
  cases hdecode : Command.decode opcode.family (code.operandsAt s.frame.pc opcode) with
  | ok decoded =>
    obtain ⟨command, rest⟩ := decoded
    have hcommand := LoadedModule.commandAt?_eq hword hopcode hdecode
    have hlabel := failLabel?_of_decode hfallible hdecode
    have hcall : command.isCall = false := by
      cases command with
      | call _ _ => cases hlabel
      | _ => rfl
    obtain ⟨next, hholds, hrun⟩ :=
      execute_of_holds (.cons hword hopcode hdecode .nil) hcall linker callers
    cases hholds
    have hsame : command.refusal? code (s.advance (s.frame.pc + 1 + opcode.family.layout.length)) =
        command.refusal? code s := by
      rfl
    rw [hrun, hcommand, Option.bind_some, ← hsame]
    exact .after (.advance s _) (verdict_run (s.advance _) linker code callers hlabel
      fun count index label dest heq => hnative count index label dest (by rw [hcommand, heq]))
  | error e =>
    have hstill : mayYield opcode.family = false := by
      generalize opcode.family = family at hfallible
      cases family <;> first | rfl | cases hfallible
    rw [execute_opcode linker callers hword hopcode]
    unfold State.prepare runOpcode
    unfold LoadedModule.operandsAt at hdecode
    rw [hstill, hdecode]
    cases e with
    | missingWord | missingLabel => exact .broken

end Commands

/-! ## A segment that is too long -/

/-- Whether the machine gives up. -/
def gaveUp : EStateM.Result Stop State Flow → Bool
  | .error (.broken _) _ => true
  | _ => false

/-- A command that is not believed branches or raises, unless the machine gives up. -/
theorem Verdict.disbelieved {s : State} {next : Nat} {fault : Fault}
    {r : EStateM.Result Stop State Flow} (h : Verdict s next label (some fault) r)
    (hgoes : gaveUp r = false) :
    (∃ target t, label = some target ∧ r = .ok .next t ∧ t.frame.pc = target ∧ s.Untouched t) ∨
      label = none ∧ ∃ t, r = .error (.fault fault) t ∧ s.Untouched t := by
  cases h with
  | believed h _ => cases h
  | branched _ hlabel hpc hsame => exact .inl ⟨_, _, hlabel, rfl, hpc, hsame⟩
  | raised h hlabel hsame =>
    cases h
    exact .inr ⟨hlabel, _, rfl, hsame⟩
  | broken => cases hgoes

/-- Code that reads an integer of as many bytes as the source says, first with a fail label and then
without one. -/
def reader : LoadedModule := .ofModule {
  name := "m"
  code := #[79, 0, 8, 0, 1, 20, 79, 0, 8, 0, 1, 65535]
  functions := .empty
  exports := []
  imports := #[] }

/-- A state in which two bytes are asked for and only one is there. -/
def short (pc : Nat) : State where
  process := { registers := #[.cursor (.ofBitString (.ofBytes #[7]) 0)] }
  frame := { code := ⟨"m", 0⟩, pc, lastPc := 0, base := 0, fetched := (.integer 2, .nil) }

/-- Reading too much goes on at the fail label, or raises a fault, and the cursor stays. -/
theorem tests_branch_on_disbelief_short :
    (∃ t, (execute {} reader []).run (short 0) = .ok .next t ∧ t.frame.pc = 20 ∧
      (short 0).Untouched t) ∧
    ∃ t, (execute {} reader []).run (short 6) = .error (.fault .badarg) t ∧
      (short 6).Untouched t := by
  have hopcode : Opcode.ofWord? 79 = some ⟨.bsGetInteger, [.x, .x]⟩ := by decide +kernel
  have hfirst : reader.commandAt? 0 =
      some (.matching (.get .integer (.x 0) 8 (.ofFlags 0) (.x 1) (some 20))) := by cbv
  have hsecond : reader.commandAt? 6 =
      some (.matching (.get .integer (.x 0) 8 (.ofFlags 0) (.x 1) none)) := by cbv
  have hrefusal : ∀ pc label, (Command.matching
      (.get .integer (.x 0) 8 (.ofFlags 0) (.x 1) label)).refusal? reader (short pc) =
        some .badarg := fun _ _ => by cbv
  have hverdict : ∀ pc label, reader.module.code[pc]? = some 79 → reader.commandAt? pc =
      some (.matching (.get .integer (.x 0) 8 (.ofFlags 0) (.x 1) label)) →
      Verdict (short pc) (pc + 6) (Family.bsGetInteger.failLabel? reader pc) (some .badarg)
        ((execute {} reader []).run (short pc)) := by
    intro pc label hword hcommand
    have h := tests_branch_on_disbelief (short pc) {} reader [] hword hopcode rfl
      fun _ _ _ _ hnative => by cases hcommand.symm.trans hnative
    rwa [show reader.commandAt? (short pc).frame.pc = _ from hcommand, Option.bind_some,
      hrefusal pc label] at h
  constructor
  · have hlabel : Family.bsGetInteger.failLabel? reader 0 = some 20 := by decide +kernel
    have h := hverdict 0 _ (by decide +kernel) hfirst
    rcases h.disbelieved (by decide +kernel) with
      ⟨target, t, htarget, hrun, hpc, hsame⟩ | ⟨hnone, -⟩
    · cases htarget
      exact ⟨t, hrun, hpc, hsame⟩
    · cases hnone
  · have hlabel : Family.bsGetInteger.failLabel? reader 6 = none := by decide +kernel
    have h := hverdict 6 _ (by decide +kernel) hsecond
    rcases h.disbelieved (by decide +kernel) with ⟨target, t, htarget, -⟩ | ⟨-, t, hrun, hsame⟩
    · cases htarget
    · exact ⟨t, hrun, hsame⟩

end ErlangMachine.Machine
