import ErlangMachine.Listing.Basic
import ErlangMachine.Proofs.BuiltSegments
import ErlangMachine.Proofs.Equality
import ErlangMachine.Proofs.Sessions
import ErlangMachine.Proofs.StraightCode

/-!
# Building bit strings in code

Code builds a bit string with an opening command, which declares how many bits are to come, and then
with commands that put one segment each. If the segments have as many bits as were declared, then
the place that the opening names holds their bits in the end, after those of the bit string that was
extended, if there was one.

There is one exception. The bit string is finished as soon as the declared size has been written,
and a segment without bits that comes after that finds nothing under construction: the machine gives
up. So what `opening_builds_segments` says depends on the last segment. The call of `joiningListing`
is an example.
-/

namespace ErlangMachine.Machine

open BitString (Builder Segment Writer)

variable {code : LoadedModule} {s : State} {b : Builder} {next : Nat} {bits : List Bool}

/-! ## Openings and puts -/

/-- A command that opens a bit string, with its sources. -/
inductive Opening where
  /-- A new bit string, whose size is given in some unit. -/
  | init (size : Source) (unit : Nat) (dest : Place) (fail : Option Nat)
  /-- A bit string that begins with another one, by how many bits it is longer. -/
  | append (extra existing : Source) (unit : Nat) (dest : Place) (fail : Option Nat)

/-- A command that puts a segment, with its sources. -/
inductive Put where
  /-- A value of some type, with a size in some unit. -/
  | sized (type : SegmentType) (size value : Source) (unit : Nat) (flags : UInt16)
    (fail : Option Nat)
  /-- A constant. -/
  | literal (constant : Nat)
  /-- A code point. -/
  | utf (form : Utf) (value : Source) (flags : UInt16) (fail : Option Nat)

namespace Opening

/-- Where the bit string goes. -/
def dest : Opening → Place
  | init _ _ dest _ | append _ _ _ dest _ => dest

/-- The commands of an opening. -/
def commands : Opening → List Command
  | init size unit dest fail => [.fetch size none, .building (.init unit dest fail)]
  | append extra existing unit dest fail =>
    [.fetch extra (some existing), .building (.append unit dest fail)]

/-- In a state, an opening begins with some bits and declares how many are to come. A bit string can
be extended if it consists of whole units. Constants are not in buffers that code could extend. -/
inductive Opens (code : LoadedModule) (s : State) : Opening → List Bool → Nat → Prop where
  /-- A new bit string begins with no bits. -/
  | init {size : Source} {unit : Nat} {dest : Place} {fail : Option Nat} {t : Term} {n : Nat} :
    s.term? code size = some t → SegmentSize.of? t unit = some (.bits n) →
    Opens code s (.init size unit dest fail) [] n
  /-- A bit string that extends another one begins with the bits of that one. -/
  | append {extra existing : Source} {unit : Nat} {dest : Place} {fail : Option Nat} {t : Term}
    {n : Nat} {b : BitString} :
    s.term? code extra = some t → t.size? = some n → s.term? code existing = some (.bits b) →
    (∀ i, existing = .constant i → b.buffer = none) → unit ≤ 1 ∨ b.size % unit = 0 →
    Opens code s (.append extra existing unit dest fail) b.toList n

end Opening

namespace Put

/-- The commands of a put. -/
def commands : Put → List Command
  | sized type size value unit flags fail =>
    [.fetch size (some value), .building (.put type unit (.ofFlags flags) fail)]
  | literal constant => [.building (.putLiteral constant)]
  | utf form value flags fail =>
    [.fetch value none, .building (.putUtf form (.ofFlags flags) fail)]

/-- In a state, a put finds a value that it accepts: it adds this segment. -/
inductive Denotes (code : LoadedModule) (s : State) : Put → Segment → Prop where
  /-- An integer. -/
  | integer {size value : Source} {unit : Nat} {flags : UInt16} {fail : Option Nat} {t : Term}
    {n : Nat} {v : Int64} :
    s.term? code size = some t → SegmentSize.of? t unit = some (.bits n) →
    s.term? code value = some (.integer v) →
    Denotes code s (.sized .integer size value unit flags fail) (.integer v n flags)
  /-- A bit string that is at least as long as the size says, if it is a number. -/
  | bits {size value : Source} {unit : Nat} {flags : UInt16} {fail : Option Nat} {t : Term}
    {n : SegmentSize} {b : BitString} :
    s.term? code size = some t → SegmentSize.of? t unit = some n →
    s.term? code value = some (.bits b) → (∀ k ∈ n.bits?, k ≤ b.size) →
    Denotes code s (.sized .bits size value unit flags fail) (.bits b n.bits? unit)
  /-- A constant. -/
  | literal {i : Nat} {b : BitString} : code.module.constants[i]? = some (.bits b) →
    Denotes code s (.literal i) (.bits b none 1)
  /-- A code point in UTF-8. -/
  | utf8 {value : Source} {flags : UInt16} {fail : Option Nat} {v : Int64} {c : Char} :
    s.term? code value = some (.integer v) → v.toInt = c.toNat →
    Denotes code s (.utf .utf8 value flags fail) (.utf8 c)
  /-- A code point in UTF-16. -/
  | utf16 {value : Source} {flags : UInt16} {fail : Option Nat} {v : Int64} {c : Char} :
    s.term? code value = some (.integer v) → v.toInt = c.toNat →
    Denotes code s (.utf .utf16 value flags fail) (.utf16 c flags)
  /-- A code point in UTF-32. -/
  | utf32 {value : Source} {flags : UInt16} {fail : Option Nat} {v : Int64} {c : Char} :
    s.term? code value = some (.integer v) → v.toInt = c.toNat →
    Denotes code s (.utf .utf32 value flags fail) (.utf32 c flags)

/-- In a state, a put finds its operands. What it adds to a builder is then settled, but the builder
may still refuse it. -/
inductive Finds (code : LoadedModule) (s : State) : Put → (Builder → Option Builder) → Prop where
  /-- A size and a value. -/
  | sized {type : SegmentType} {size value : Source} {unit : Nat} {flags : UInt16}
    {fail : Option Nat} {t v : Term} {n : SegmentSize} :
    s.term? code size = some t → SegmentSize.of? t unit = some n → s.term? code value = some v →
    Finds code s (.sized type size value unit flags fail)
      fun b => writeSegment? type b n v (.ofFlags flags)
  /-- A constant. -/
  | literal {i : Nat} {v : BitString} : code.module.constants[i]? = some (.bits v) →
    Finds code s (.literal i) fun b => b.putBitString? v none
  /-- An integer for a code point. -/
  | utf {form : Utf} {value : Source} {flags : UInt16} {fail : Option Nat} {v : Int64} :
    s.term? code value = some (.integer v) →
    Finds code s (.utf form value flags fail) fun b => writeUtf? form b v.toInt (.ofFlags flags)

/-- A put that adds a segment finds its operands. -/
theorem Denotes.finds {code : LoadedModule} {s : State} {put : Put} {segment : Segment}
    (h : put.Denotes code s segment) : put.Finds code s segment.put? := by
  cases h with
  | integer hsize hn hv => exact .sized hsize hn hv
  | @bits _ _ _ _ _ _ n _ hsize hn hv =>
    cases n with
    | bits n => exact .sized hsize hn hv
    | all => exact .sized hsize hn hv
  | literal hi => exact .literal hi
  | @utf8 value flags fail v c hv hc =>
    have hadd : Segment.put? (.utf8 c) = fun b => writeUtf? .utf8 b v.toInt (.ofFlags flags) := by
      rw [hc]
      rfl
    exact hadd ▸ .utf hv
  | @utf16 value flags fail v c hv hc =>
    have hadd : Segment.put? (.utf16 c flags) =
        fun b => writeUtf? .utf16 b v.toInt (.ofFlags flags) := by
      rw [hc]
      rfl
    exact hadd ▸ .utf hv
  | @utf32 value flags fail v c hv hc =>
    have hadd : Segment.put? (.utf32 c flags) =
        fun b => writeUtf? .utf32 b v.toInt (.ofFlags flags) := by
      rw [hc]
      rfl
    exact hadd ▸ .utf hv

/-- A put adds only what a builder takes. -/
theorem Denotes.accepted {code : LoadedModule} {s : State} {put : Put} {segment : Segment}
    (h : put.Denotes code s segment) : segment.Accepted := by
  cases h with
  | bits _ _ _ hsize => exact hsize
  | literal _ => exact fun k hk => by cases hk
  | _ => trivial

end Put

/-! ## States while building -/

/-- What the operands of commands stand for is the same in both states, and so is the bit string
under construction. -/
structure State.Resembles (s t : State) : Prop where
  /-- The module is the same. -/
  code : t.frame.code = s.frame.code
  /-- The depth at which the activation began is the same. -/
  base : t.frame.base = s.frame.base
  /-- The process is the same. -/
  process : t.process = s.process
  /-- The bit string under construction is the same. -/
  bits : t.frame.bits = s.frame.bits

/-- A put adds the same segment in states in which its sources stand for the same. -/
theorem Put.Denotes.congr {t : State} {put : Put} {segment : Segment}
    (h : put.Denotes code s segment) (hterm : t.term? code = s.term? code) :
    put.Denotes code t segment := by
  cases h with
  | integer hsize hn hv => exact .integer (hterm ▸ hsize) hn (hterm ▸ hv)
  | bits hsize hn hv hle => exact .bits (hterm ▸ hsize) hn (hterm ▸ hv) hle
  | literal hi => exact .literal hi
  | utf8 hv hc => exact .utf8 (hterm ▸ hv) hc
  | utf16 hv hc => exact .utf16 (hterm ▸ hv) hc
  | utf32 hv hc => exact .utf32 (hterm ▸ hv) hc

/-- The state when a bit string has gone to its place, in a buffer of its own. -/
def State.putBits (s : State) (dest : Place) (b : BitString) : State :=
  { s with world := { s.world with nextBuffer := s.world.nextBuffer + 1 } }.put dest
    (.bits (b.inBuffer s.world.nextBuffer))

/-- A bit string goes to a place of the activation. -/
theorem writeBits_run {dest : Place} (b : BitString) (h : (s.at? dest).isSome) :
    (Exec.writeBits dest b).run s = .ok () (s.putBits dest b) := by
  unfold Exec.writeBits Exec.modifyWorld
  refine write_run ?_
  exact h

/-- The state with a bit string under construction, or with none. -/
def State.building (s : State) (bits : Option (Builder × Place)) : State :=
  { s with frame := { s.frame with bits } }

/-- A builder that is not complete stays under construction. -/
theorem publish_run_incomplete (s : State) (dest : Place) (h : b.isComplete = false) :
    (Exec.publish b dest).run s = .ok .next (s.building (some (b, dest))) := by
  unfold Exec.publish
  rw [h]
  rfl

/-- What a complete builder has written goes to its place. -/
theorem publish_run_complete {dest : Place} (h : b.isComplete = true)
    (hdest : (s.at? dest).isSome) : (Exec.publish b dest).run s =
      .ok .next ((s.building none).putBits dest b.bitString) := by
  have hclear : (Exec.modifyFrame fun f => { f with bits := none }).run s =
      .ok () (s.building none) := rfl
  have hwrite : (Exec.writeBits dest b.bitString).run (s.building none) =
      .ok () ((s.building none).putBits dest b.bitString) := writeBits_run b.bitString hdest
  unfold Exec.publish
  rw [if_pos h, run_bind_ok hclear, run_bind_ok hwrite]
  rfl

/-! ## Commands with their sources -/

/-- After some commands, the next one does what an action does in a state like the first one, with
which the machine is behind that command. -/
def Leads (linker : Linker) (code : LoadedModule) (callers : List Caller) (recent : Nat) (s : State)
    (n next : Nat) (action : Exec Flow) : Prop :=
  ∃ s' t, Chain.Proceeds linker n ⟨s, callers, recent⟩ ⟨s', callers, recent⟩ ∧ s.Resembles s' ∧
    (execute linker code callers).run s' = action.run t ∧ s.Resembles t ∧ t.frame.pc = next

section Commands

variable (linker : Linker) {code : LoadedModule} (callers : List Caller) (recent : Nat) {s : State}

/-- A building command that does what an action does. -/
theorem leads_building {command : BuildCommand} {action : Exec Flow}
    (hholds : code.Holds s.frame.pc [.building command] next)
    (haction : ∀ t, s.Resembles t → t.frame.fetched = s.frame.fetched →
      ∃ fetched, (command.run code callers).run t = action.run (t.fetching fetched)) :
    Leads linker code callers recent s 0 next action := by
  obtain ⟨middle, hrest, hrun⟩ := execute_of_holds hholds rfl linker callers
  cases hrest
  obtain ⟨fetched, hcommand⟩ := haction (s.advance next) ⟨rfl, rfl, rfl, rfl⟩ rfl
  exact ⟨s, _, .refl, ⟨rfl, rfl, rfl, rfl⟩, hrun.trans hcommand, ⟨rfl, rfl, rfl, rfl⟩, rfl⟩

/-- A building command that does what an action does on the sources that were read for it. -/
theorem leads_fetched {first : Source} {second : Option Source} {t u : Term}
    {command : BuildCommand} {action : Exec Flow} (hget : linker.get? s.frame.code = some code)
    (hholds : code.Holds s.frame.pc [.fetch first second, .building command] next)
    (hfirst : s.term? code first = some t)
    (hsecond : ∀ source ∈ second, s.term? code source = some u)
    (haction : ∀ s', s.Resembles s' → s'.frame.fetched.1 = t →
      (second.isSome → s'.frame.fetched.2 = u) →
      ∃ fetched, (command.run code callers).run s' = action.run (s'.fetching fetched)) :
    Leads linker code callers recent s 1 next action := by
  obtain ⟨middle, hrest, hrun⟩ := execute_of_holds hholds rfl linker callers
  -- The command that reads the sources sees the same terms at them.
  have hterm : (s.advance middle).term? code = s.term? code := term?_congr rfl rfl code
  rw [← hterm] at hfirst hsecond
  obtain ⟨fetched, hfetch, hone, htwo⟩ := fetch_run linker callers hfirst hsecond
  rw [hfetch] at hrun
  obtain ⟨s', t', hproceeds, hsame, hlast, hsame', hpc⟩ :=
    leads_building linker callers recent (s := (s.advance middle).fetching fetched) hrest
      fun s' hs' hfetched => haction s' ⟨hs'.code, hs'.base, hs'.process, hs'.bits⟩
        (by rw [hfetched]; exact hone) (by rw [hfetched]; exact htwo)
  exact ⟨s', t', .step hget hrun hproceeds, ⟨hsame.code, hsame.base, hsame.process, hsame.bits⟩,
    hlast, ⟨hsame'.code, hsame'.base, hsame'.process, hsame'.bits⟩, hpc⟩

end Commands

/-! ## Puts -/

/-- Adds something to the bit string under construction. -/
def addTo (operation : String) (fail : Option Nat) (add : Builder → Option Builder) :
    Exec Flow := do
  let (b, dest) ← Exec.builder operation
  Exec.extend dest fail (add b)

/-- What a builder takes is added. -/
theorem addTo_run {add : Builder → Option Builder} {b' : Builder} {dest : Place}
    (hbits : s.frame.bits = some (b, dest)) (hadd : add b = some b') (operation : String)
    (fail : Option Nat) : (addTo operation fail add).run s = (Exec.publish b' dest).run s := by
  have hbuilder : (Exec.builder operation).run s = .ok (b, dest) s := by
    unfold Exec.builder Exec.frame
    simp only [EStateM.run_bind, EStateM.run_get, EStateM.run_pure, hbits]
  unfold addTo
  rw [run_bind_ok hbuilder]
  dsimp only
  rw [hadd]
  rfl

/-- Nothing can be added when there is nothing under construction. -/
theorem addTo_run_none (hbits : s.frame.bits = none) (operation : String) (fail : Option Nat)
    (add : Builder → Option Builder) :
    (addTo operation fail add).run s = .error (.broken (.noBinary operation)) s := by
  unfold addTo Exec.builder Exec.frame
  simp only [EStateM.run_bind, EStateM.run_get, EStateM.run_pure, hbits]
  rfl

section Puts

variable {code : LoadedModule} (callers : List Caller) {s : State} (fail : Option Nat)

/-- The command that puts a value of some size. -/
theorem put_run {type : SegmentType} {unit : Nat} {encoding : Encoding} {n : SegmentSize}
    (hn : SegmentSize.of? s.frame.fetched.1 unit = some n) :
    ((BuildCommand.put type unit encoding fail).run code callers).run s =
      (addTo "bs_put" fail fun b => writeSegment? type b n s.frame.fetched.2 encoding).run
        (s.fetching (.nil, .nil)) := by
  have hfirst : Exec.takeFirst.run s =
      .ok s.frame.fetched.1 (s.fetching (.nil, s.frame.fetched.2)) := rfl
  have hsecond : Exec.takeSecond.run (s.fetching (.nil, s.frame.fetched.2)) =
      .ok s.frame.fetched.2 (s.fetching (.nil, .nil)) := rfl
  unfold BuildCommand.run addTo
  rw [run_bind_ok hfirst, run_bind_ok hsecond, hn]

/-- The command that puts a code point. -/
theorem putUtf_run {form : Utf} {encoding : Encoding} {v : Int64}
    (hv : s.frame.fetched.1 = .integer v) :
    ((BuildCommand.putUtf form encoding fail).run code callers).run s =
      (addTo "bs_put_utf" fail fun b => writeUtf? form b v.toInt encoding).run
        (s.fetching (.nil, s.frame.fetched.2)) := by
  have hfirst : Exec.takeFirst.run s =
      .ok s.frame.fetched.1 (s.fetching (.nil, s.frame.fetched.2)) := rfl
  unfold BuildCommand.run addTo
  rw [run_bind_ok hfirst, hv]
  rfl

/-- The command that puts a constant. -/
theorem putLiteral_run {i : Nat} {v : BitString} (hi : code.module.constants[i]? = some (.bits v)) :
    ((BuildCommand.putLiteral i).run code callers).run s =
      (addTo "bs_put_string" none fun b => b.putBitString? v none).run s := by
  have hconstant : (Exec.source code (.constant i)).run s = .ok (.bits v) s := source_run hi
  have hliteral : (Exec.literalBits code i).run s = .ok v s := by
    unfold Exec.literalBits
    rw [run_bind_ok hconstant]
    rfl
  unfold BuildCommand.run addTo
  rw [run_bind_ok hliteral]

end Puts

/-- The commands of a put that finds its operands come to adding what it adds. -/
theorem Put.Finds.leads {linker : Linker} {put : Put} {add : Builder → Option Builder}
    (h : put.Finds code s add) (hget : linker.get? s.frame.code = some code)
    (hholds : code.Holds s.frame.pc put.commands next) (callers : List Caller) (recent : Nat) :
    ∃ n operation fail, n + 1 = put.commands.length ∧
      Leads linker code callers recent s n next (addTo operation fail add) := by
  cases h with
  | @sized _ _ value _ _ fail t v n hsize hn hvalue =>
    have hsecond : ∀ source ∈ some value, s.term? code source = some v := by
      rintro _ ⟨⟩
      exact hvalue
    refine ⟨1, "bs_put", fail, rfl, leads_fetched linker callers recent hget hholds hsize hsecond
      fun s' _ hone htwo => ⟨(.nil, .nil), ?_⟩⟩
    rw [← hone] at hn
    rw [← htwo rfl]
    exact put_run callers fail hn
  | literal hi =>
    exact ⟨0, "bs_put_string", none, rfl, leads_building linker callers recent hholds fun t _ _ =>
      ⟨t.frame.fetched, putLiteral_run callers hi⟩⟩
  | @utf _ _ _ fail v hvalue =>
    exact ⟨1, "bs_put_utf", fail, rfl, leads_fetched (u := .nil) linker callers recent hget hholds
      hvalue nofun fun _ _ hone _ => ⟨_, putUtf_run callers fail hone⟩⟩

/-! ## Openings -/

/-- The bits that a builder has, when it has been used as it should. -/
structure Holding (b : Builder) (bits : List Bool) (target : Nat) : Prop where
  /-- Nothing is set behind what has been written. -/
  sound : b.writer.Sound
  /-- What has been written. -/
  toList : b.bitString.toList = bits
  /-- The declared size. -/
  target : b.target = target

namespace Holding

variable {b : Builder} {bits : List Bool} {target : Nat} (h : Holding b bits target)

include h

/-- More bits are added behind. -/
theorem put (more : List Bool) : Holding (b.put more) (bits ++ more) target where
  sound := h.sound.pushBits more
  toList := by
    have hbits : b.writer.toBitString.toList = bits := h.toList
    rw [← hbits]
    exact Writer.toList_pushBits h.sound more
  target := h.target

/-- A builder is complete when it has as many bits as declared. -/
theorem isComplete_eq : b.isComplete = decide (target ≤ bits.length) := by
  have hlength : bits.length = b.writer.size := by
    have hwritten := congrArg List.length (Writer.toList_toBitString h.sound.size_eq)
    rw [List.length_map, List.length_range] at hwritten
    rw [← hwritten, ← h.toList]
    rfl
  rw [Builder.isComplete, h.target, hlength]

end Holding

/-- A new builder has no bits. -/
theorem holding_ofSize (n : Nat) : Holding (.ofSize n) [] n where
  sound := Writer.sound_empty
  toList := rfl
  target := rfl

/-- A builder that extends a copy has the bits of the copy. -/
theorem holding_append (b : BitString) (n : Nat) :
    Holding (.append b n .shared) b.toList (b.toList.length + n) := by
  have hcopy : Builder.append b n .shared = (Builder.ofSize (b.size + n)).put b.toList := by
    simp [Builder.append, Builder.ofSize, Builder.put, Writer.copy_eq]
  rw [hcopy, BitString.length_toList]
  exact (holding_ofSize _).put b.toList

/-- A term at a place is one of the terms of the process, if it is not the empty list. -/
theorem mem_terms_of_at? {place : Place} {t : Term} (h : s.at? place = some t) (hnil : t ≠ .nil) :
    t ∈ s.process.terms := by
  unfold Process.terms
  cases place with
  | x n =>
    have hx : s.process.registers.getD n .nil = t := Option.some.inj h
    rw [Array.getD_eq_getD_getElem?] at hx
    cases hget : s.process.registers[n]? with
    | none =>
      rw [hget] at hx
      exact absurd hx.symm hnil
    | some u =>
      rw [hget] at hx
      obtain rfl : u = t := hx
      have hmem : u ∈ s.process.registers.toList :=
        Array.mem_toList_iff.2 (Array.mem_of_getElem? hget)
      simp [hmem]
  | y n =>
    obtain ⟨-, hslot⟩ := Option.ite_none_right_eq_some.1 h
    simp [List.mem_of_getElem? hslot]

/-- A bit string that a source stands for is used by that source too, so it is not extended in
place. -/
theorem ownership_eq_shared {source : Source} {b : BitString}
    (h : s.term? code source = some (.bits b))
    (hconstant : ∀ i, source = .constant i → b.buffer = none) (callers : List Caller) :
    s.ownership callers b = .shared := by
  unfold State.ownership
  cases hbuffer : b.buffer with
  | none => rfl
  | some n =>
    -- A buffer with a number belongs to no constant, so the source is a place.
    have hmem : (.bits b) ∈ s.process.terms := by
      cases source with
      | place slot => exact mem_terms_of_at? h nofun
      | constant i =>
        rw [hconstant i rfl] at hbuffer
        cases hbuffer
      | float n => cases h
    have hany : (s.terms callers).any (·.uses n) = true := by
      refine List.any_eq_true.2 ⟨.bits b, ?_, ?_⟩
      · simp [State.terms, hmem]
      · simp [Term.uses, hbuffer]
    dsimp only
    rw [if_pos hany]

/-- The commands of an opening come to opening a builder with the bits that it begins with. -/
theorem Opening.Opens.leads {linker : Linker} {opening : Opening} {old : List Bool}
    {declared : Nat} (h : opening.Opens code s old declared)
    (hget : linker.get? s.frame.code = some code)
    (hholds : code.Holds s.frame.pc opening.commands next) (callers : List Caller) (recent : Nat) :
    ∃ b, Holding b old (old.length + declared) ∧
      Leads linker code callers recent s 1 next (Exec.openBuilder b opening.dest) := by
  cases h with
  | init hsize hn =>
    refine ⟨.ofSize declared, by simpa using holding_ofSize declared,
      leads_fetched (u := .nil) linker callers recent hget hholds hsize nofun
        fun s' _ hone _ => ⟨(.nil, s'.frame.fetched.2), ?_⟩⟩
    have hfirst : Exec.takeFirst.run s' =
        .ok s'.frame.fetched.1 (s'.fetching (.nil, s'.frame.fetched.2)) := rfl
    unfold BuildCommand.run
    rw [run_bind_ok hfirst, hone, hn]
    rfl
  | @append _ existing _ _ _ _ _ b hextra hn hb hconstant hunit =>
    have hsecond : ∀ source ∈ some existing, s.term? code source = some (.bits b) := by
      rintro _ ⟨⟩
      exact hb
    refine ⟨.append b declared .shared, holding_append b declared,
      leads_fetched linker callers recent hget hholds hextra hsecond
        fun s' hs' hone htwo => ⟨(.nil, .nil), ?_⟩⟩
    have hfirst : Exec.takeFirst.run s' =
        .ok s'.frame.fetched.1 (s'.fetching (.nil, s'.frame.fetched.2)) := rfl
    have hsecond : Exec.takeSecond.run (s'.fetching (.nil, s'.frame.fetched.2)) =
        .ok s'.frame.fetched.2 (s'.fetching (.nil, .nil)) := rfl
    have hget : (get : Exec State).run (s'.fetching (.nil, .nil)) =
        .ok (s'.fetching (.nil, .nil)) (s'.fetching (.nil, .nil)) := rfl
    -- The source still has the bit string when the command asks who uses its buffer.
    have hshared : (s'.fetching (.nil, .nil)).ownership callers b = .shared :=
      ownership_eq_shared (term?_congr hs'.process hs'.base code ▸ hb) hconstant callers
    unfold BuildCommand.run
    rw [run_bind_ok hfirst, run_bind_ok hsecond, hone, htwo rfl, hn]
    dsimp only
    rw [if_pos hunit, run_bind_ok hget, hshared]
    rfl

/-! ## Building step by step -/

/-- Since the opening nothing has changed but the bit string under construction, which has some bits
so far. -/
structure State.Underway (s opened : State) (dest : Place) (bits : List Bool) (target : Nat) :
    Prop where
  /-- The module is the same. -/
  code : s.frame.code = opened.frame.code
  /-- The depth at which the activation began is the same. -/
  base : s.frame.base = opened.frame.base
  /-- The process is the same. -/
  process : s.process = opened.process
  /-- The bit string under construction. -/
  builder : ∃ b, s.frame.bits = some (b, dest) ∧ Holding b bits target

/-- The bit string has gone to its place. -/
structure State.Finished (s opened : State) (dest : Place) (bits : List Bool) : Prop where
  /-- The module is the same. -/
  code : s.frame.code = opened.frame.code
  /-- Nothing is under construction. -/
  still : s.frame.bits = none
  /-- Nothing but the place has changed. -/
  others : ∀ code source, source ≠ .place dest → s.term? code source = opened.term? code source
  /-- The place has the bits. -/
  held : ∃ b, s.at? dest = some (.bits b) ∧ b.toList = bits

/-- A bit string is finished when it has as many bits as declared, and not before. -/
def State.Built (s opened : State) (dest : Place) (bits : List Bool) (target : Nat) : Prop :=
  bits.length < target ∧ s.Underway opened dest bits target ∨
    target ≤ bits.length ∧ s.Finished opened dest bits

/-- Going on with a builder. -/
theorem publish_built {target : Nat} (hb : Holding b bits target) {opened : State} {dest : Place}
    (hcode : s.frame.code = opened.frame.code) (hbase : s.frame.base = opened.frame.base)
    (hprocess : s.process = opened.process) (hdest : (opened.at? dest).isSome) :
    ∃ s', (Exec.publish b dest).run s = .ok .next s' ∧ s'.frame.pc = s.frame.pc ∧
      s'.Built opened dest bits target := by
  have hcomplete := hb.isComplete_eq
  have hdest' : (s.at? dest).isSome := by rwa [at?_congr hprocess hbase]
  by_cases hlt : bits.length < target
  · rw [decide_eq_false (Nat.not_le.2 hlt)] at hcomplete
    exact ⟨_, publish_run_incomplete s dest hcomplete, rfl,
      .inl ⟨hlt, hcode, hbase, hprocess, b, rfl, hb⟩⟩
  · rw [decide_eq_true (Nat.not_lt.1 hlt)] at hcomplete
    have hframe : ((s.building none).putBits dest b.bitString).frame = (s.building none).frame :=
      frame_put _ _ _
    refine ⟨_, publish_run_complete hcomplete hdest', by rw [hframe]; rfl,
      .inr ⟨Nat.not_lt.1 hlt, by rw [hframe]; exact hcode, by rw [hframe]; rfl, ?_, ?_⟩⟩
    · intro code source hsource
      have hkept := term?_congr (s := opened) (t := s.building none) hprocess hbase code
      rw [← hkept]
      exact term?_put_of_ne hsource
    · exact ⟨_, at?_put hdest', hb.toList⟩

/-- Beginning with a builder. The place holds a bit string from then on. -/
theorem openBuilder_built {target : Nat} (hb : Holding b bits target) {dest : Place}
    (hdest : (s.at? dest).isSome) :
    ∃ opened, (Exec.openBuilder b dest).run s = .ok .next opened ∧
      opened.frame.pc = s.frame.pc ∧ opened.frame.code = s.frame.code ∧
      (∀ code source, source ≠ .place dest → opened.term? code source = s.term? code source) ∧
      (∃ v, opened.at? dest = some (.bits v)) ∧ opened.Built opened dest bits target := by
  have hframe : (s.putBits dest b.bitString).frame = s.frame := frame_put _ _ _
  have hput : (s.putBits dest b.bitString).at? dest = some _ := at?_put hdest
  have hothers : ∀ code source, source ≠ .place dest →
      (s.putBits dest b.bitString).term? code source = s.term? code source :=
    fun _ _ hsource => term?_put_of_ne hsource
  obtain ⟨opened, hrun, hpc, hbuilt⟩ := publish_built hb rfl rfl rfl (Option.isSome_of_eq_some hput)
  refine ⟨opened, ?_, by rw [hpc, hframe], ?_⟩
  · unfold Exec.openBuilder
    rw [run_bind_ok (writeBits_run b.bitString hdest), hrun]
  · rcases hbuilt with ⟨hlt, hunderway⟩ | ⟨hle, hfinished⟩
    · refine ⟨by rw [hunderway.code, hframe], fun code source hsource => ?_, ?_,
        .inl ⟨hlt, rfl, rfl, rfl, hunderway.builder⟩⟩
      · rw [term?_congr hunderway.process hunderway.base, hothers code source hsource]
      · rw [at?_congr hunderway.process hunderway.base, hput]
        exact ⟨_, rfl⟩
    · obtain ⟨v, hv, -⟩ := hfinished.held
      refine ⟨by rw [hfinished.code, hframe], fun code source hsource => ?_, ⟨v, hv⟩,
        .inr ⟨hle, rfl, hfinished.still, fun _ _ _ => rfl, hfinished.held⟩⟩
      rw [hfinished.others code source hsource, hothers code source hsource]

/-- A put that adds a segment still finds its operands when the bit string is finished: none of
those that it needs is the place of the bit string. -/
theorem finds_of_finished {opened : State} {dest : Place} {put : Put} {segment : Segment}
    (hs : s.Finished opened dest bits) (hput : put.Denotes code opened segment)
    (hdest : ∃ v, opened.at? dest = some (.bits v)) : ∃ add, put.Finds code s add := by
  obtain ⟨v, hv⟩ := hdest
  obtain ⟨b, hb, -⟩ := hs.held
  -- What is no bit string is still there.
  have hkept : ∀ source t, opened.term? code source = some t → (∀ v, t ≠ .bits v) →
      s.term? code source = some t := by
    intro source t ht hne
    rw [hs.others code source, ht]
    rintro rfl
    have hheld : opened.at? dest = some t := ht
    rw [hv] at hheld
    exact hne v (Option.some.inj hheld).symm
  -- What is one is there or has been replaced by the one that was built.
  have hthere : ∀ source t, opened.term? code source = some t →
      ∃ t, s.term? code source = some t := by
    intro source t ht
    by_cases hsource : source = .place dest
    · exact ⟨.bits b, hsource ▸ hb⟩
    · exact ⟨t, (hs.others code source hsource).trans ht⟩
  have hsize : ∀ t unit n, SegmentSize.of? t unit = some n → ∀ v, t ≠ .bits v := by
    rintro _ unit n hn v rfl
    cases hn
  cases hput with
  | integer ht hn hvalue | bits ht hn hvalue _ =>
    obtain ⟨t, hvalue'⟩ := hthere _ _ hvalue
    exact ⟨_, .sized (hkept _ _ ht (hsize _ _ _ hn)) hn hvalue'⟩
  | literal hi => exact ⟨_, .literal hi⟩
  | utf8 hvalue | utf16 hvalue | utf32 hvalue => exact ⟨_, .utf (hkept _ _ hvalue nofun)⟩

section Steps

variable {linker : Linker} {code : LoadedModule} {s opened : State} {dest : Place}
  {bits : List Bool} {target next : Nat} {put : Put} {segment : Segment}
  (hget : linker.get? opened.frame.code = some code) (hput : put.Denotes code opened segment)
  (hholds : code.Holds s.frame.pc put.commands next) (callers : List Caller) (recent : Nat)

include hget hput hholds

/-- A put while the bit string is under construction adds its segment. -/
theorem put_built (hs : s.Underway opened dest bits target) (hdest : (opened.at? dest).isSome) :
    ∃ s', Chain.Proceeds linker put.commands.length ⟨s, callers, recent⟩ ⟨s', callers, recent⟩ ∧
      s'.frame.pc = next ∧ s'.Built opened dest (bits ++ segment.toBits) target := by
  have hfinds := (hput.congr (term?_congr hs.process hs.base code)).finds
  obtain ⟨n, operation, fail, hlength, s₁, t, hproceeds, hsame, hrun, hsame', hpc⟩ :=
    hfinds.leads (by rw [hs.code]; exact hget) hholds callers recent
  obtain ⟨b, hbits, hb⟩ := hs.builder
  have hadd : segment.put? b = some (b.put segment.toBits) := segment.put?_eq hput.accepted b
  obtain ⟨s', hpublish, hpc', hbuilt⟩ := publish_built (hb.put segment.toBits)
    (hsame'.code.trans hs.code) (hsame'.base.trans hs.base) (hsame'.process.trans hs.process) hdest
  rw [addTo_run (hsame'.bits.trans hbits) hadd, hpublish] at hrun
  have hlast : Chain.Proceeds linker 1 ⟨s₁, callers, recent⟩ ⟨s', callers, recent⟩ :=
    .step (by rw [hsame.code, hs.code]; exact hget) hrun .refl
  rw [← hlength]
  exact ⟨s', hproceeds.trans hlast, hpc'.trans hpc, hbuilt⟩

/-- A put when the bit string is finished breaks down, whatever it adds. -/
theorem put_broken (hs : s.Finished opened dest bits)
    (hdest : ∃ v, opened.at? dest = some (.bits v)) :
    ∃ n s' host operation, n < put.commands.length ∧
      Chain.Proceeds linker n ⟨s, callers, recent⟩ ⟨s', callers, recent⟩ ∧
      Chain.step linker ⟨s', callers, recent⟩ = .halted ⟨host, .broken (.noBinary operation)⟩ := by
  obtain ⟨add, hfinds⟩ := finds_of_finished hs hput hdest
  obtain ⟨n, operation, fail, hlength, s₁, t, hproceeds, hsame, hrun, hsame', -⟩ :=
    hfinds.leads (by rw [hs.code]; exact hget) hholds callers recent
  rw [addTo_run_none (hsame'.bits.trans hs.still)] at hrun
  have hget₁ : linker.get? s₁.frame.code = some code := by rw [hsame.code, hs.code]; exact hget
  have hstep : Chain.step linker ⟨s₁, callers, recent⟩ =
      Chain.abort (.noBinary operation) ⟨t, callers, recent⟩ := by
    rw [Chain.step_eq_settle hget₁, hrun]
    rfl
  obtain ⟨registers, -, habort⟩ := Chain.abort_eq (.noBinary operation) ⟨t, callers, recent⟩
  exact ⟨n, s₁, _, operation, by omega, hproceeds, hstep.trans habort⟩

end Steps

/-! ## All segments -/

/-- What becomes of a chain that is about to run the commands that put some segments, as many as
there are commands to run, and in the end should have all the bits at a place. -/
structure Chain.Builds (linker : Linker) (c : Chain) (n last : Nat) (dest : Place)
    (bits : List Bool) (segments : List Segment) : Prop where
  /-- If the last segment has bits, or there is none, then all commands are run, and the bits are
  there. -/
  completes : (∀ segment ∈ segments.getLast?, segment.size ≠ 0) →
    ∃ built b, c.Proceeds linker n built ∧ built.state.frame.pc = last ∧
      built.callers = c.callers ∧ built.state.at? dest = some (.bits b) ∧ b.toList = bits
  /-- If the last segment has no bits, then the machine gives up before the commands have been
  run. -/
  breaks : (∃ segment ∈ segments.getLast?, segment.size = 0) →
    ∃ m stuck host operation, m < n ∧ c.Proceeds linker m stuck ∧
      stuck.step linker = .halted ⟨host, .broken (.noBinary operation)⟩

/-- Segments that have no bits together have none each. -/
theorem size_eq_zero_of_sum {segments : List Segment} (h : (segments.map Segment.size).sum = 0) :
    ∀ segment ∈ segments, segment.size = 0 :=
  fun _ hmem => List.sum_eq_zero_iff.1 h _ (List.mem_map_of_mem hmem)

/-- Puts of the segments that are still to come. -/
theorem puts_build {linker : Linker} {opened : State} {dest : Place} {target last : Nat}
    {puts : List Put} {segments : List Segment} (hget : linker.get? opened.frame.code = some code)
    (hdest : ∃ v, opened.at? dest = some (.bits v))
    (hputs : List.Forall₂ (Put.Denotes code opened) puts segments) (callers : List Caller)
    (recent : Nat) (hs : s.Built opened dest bits target)
    (hholds : code.Holds s.frame.pc (puts.flatMap Put.commands) last)
    (hsum : bits.length + (segments.map Segment.size).sum = target) :
    Chain.Builds linker ⟨s, callers, recent⟩ (puts.flatMap Put.commands).length last dest
      (bits ++ segments.flatMap Segment.toBits) segments := by
  -- Along the puts. What has been built so far carries the induction.
  induction hputs generalizing s bits with
  | nil =>
    have hfinished : s.Finished opened dest bits := by
      rcases hs with ⟨hlt, -⟩ | ⟨-, hfinished⟩
      · simp at hsum
        omega
      · exact hfinished
    obtain ⟨b, hb, hbits⟩ := hfinished.held
    refine ⟨fun _ => ⟨⟨s, callers, recent⟩, b, .refl, ?_, rfl, hb, by simpa using hbits⟩, ?_⟩
    · cases hholds
      rfl
    · rintro ⟨segment, hsegment, -⟩
      cases hsegment
  | @cons put segment puts segments hput _ ih =>
    obtain ⟨next, hfirst, hrest⟩ := hholds.of_append
    have hsize := Segment.length_toBits hput.accepted
    rw [List.map_cons, List.sum_cons] at hsum
    rw [List.flatMap_cons, List.flatMap_cons, List.length_append]
    rcases hs with ⟨hlt, hunderway⟩ | ⟨hle, hfinished⟩
    · -- The segment is added, and the others are put behind it.
      obtain ⟨v, hv⟩ := hdest
      obtain ⟨s', hproceeds, hpc, hbuilt⟩ := put_built hget hput hfirst callers recent hunderway
        (Option.isSome_of_eq_some hv)
      rw [← hpc] at hrest
      have hbuilds := ih hbuilt hrest (by rw [List.length_append]; omega)
      rw [List.append_assoc] at hbuilds
      constructor
      · intro hlast
        obtain ⟨built, b, hbuild, hdone⟩ := hbuilds.completes fun last hmem =>
          hlast last (by rw [List.getLast?_cons, Option.mem_def.1 hmem]; rfl)
        exact ⟨built, b, hproceeds.trans hbuild, hdone⟩
      · rintro ⟨last, hmem, hzero⟩
        -- The segment is not the last one: it would have the bits that are missing.
        have hmem' : last ∈ segments.getLast? := by
          cases segments with
          | nil =>
            obtain rfl : segment = last := by simpa using hmem
            simp at hsum
            omega
          | cons other others => simpa [List.getLast?_cons] using hmem
        obtain ⟨m, stuck, host, operation, hm, hbuild, hstep⟩ := hbuilds.breaks ⟨last, hmem', hzero⟩
        exact ⟨_, stuck, host, operation, by omega, hproceeds.trans hbuild, hstep⟩
    · -- No bits are missing, so no segment that is left has any.
      have hzero : ∀ left ∈ segment :: segments, left.size = 0 :=
        size_eq_zero_of_sum (by rw [List.map_cons, List.sum_cons]; omega)
      constructor
      · intro hlast
        obtain ⟨last, hmem⟩ : ∃ last, last ∈ (segment :: segments).getLast? :=
          ⟨_, List.getLast?_eq_some_getLast (List.cons_ne_nil _ _)⟩
        exact absurd (hzero last (List.mem_of_getLast? hmem)) (hlast last hmem)
      · intro _
        obtain ⟨m, stuck, host, operation, hm, hproceeds, hstep⟩ :=
          put_broken hget hput hfirst callers recent hfinished hdest
        exact ⟨m, _, host, operation, by omega, hproceeds, hstep⟩

/-- Building a bit string in code. An opening at a place of the activation is run, and it changes
nothing that code can read but that place. Whatever segments are put after that, each of a value
that its put accepts when it reads its sources: if they have as many bits as the opening declared,
then they are built, which is to say that the place holds their bits in the end, after those that
the opening began with. Only a last segment without bits makes the machine give up. -/
theorem opening_builds_segments (linker : Linker) (code : LoadedModule) (c : Chain)
    (opening : Opening) (puts : List Put) (old : List Bool) (declared last : Nat)
    (hget : linker.get? c.state.frame.code = some code)
    (hholds : code.Holds c.state.frame.pc (opening.commands ++ puts.flatMap Put.commands) last)
    (hopens : opening.Opens code c.state old declared)
    (hdest : (c.state.at? opening.dest).isSome) :
    ∃ opened, c.Proceeds linker opening.commands.length opened ∧ opened.callers = c.callers ∧
      (∀ source, source ≠ .place opening.dest →
        opened.state.term? code source = c.state.term? code source) ∧
      ∀ segments, List.Forall₂ (Put.Denotes code opened.state) puts segments →
        (segments.map Segment.size).sum = declared →
        opened.Builds linker (puts.flatMap Put.commands).length last opening.dest
          (old ++ segments.flatMap Segment.toBits) segments := by
  obtain ⟨middle, hopening, hrest⟩ := hholds.of_append
  have hlength : opening.commands.length = 1 + 1 := by cases opening <;> rfl
  -- The size is fetched, then the builder is opened.
  obtain ⟨b, hb, s, t, hproceeds, hsame, hrun, hsame', hpc⟩ :=
    hopens.leads hget hopening c.callers c.recent
  have hdest' : (t.at? opening.dest).isSome := by
    rwa [at?_congr hsame'.process hsame'.base]
  obtain ⟨opened, hopen, hpc', hcode, hothers, hheld, hbuilt⟩ := openBuilder_built hb hdest'
  rw [hopen] at hrun
  have hget' : linker.get? s.frame.code = some code := by rw [hsame.code]; exact hget
  have hopened : linker.get? opened.frame.code = some code := by
    rw [hcode, hsame'.code]
    exact hget
  refine ⟨⟨opened, c.callers, c.recent⟩, ?_, rfl, fun source hsource => ?_,
    fun segments hputs hsum => ?_⟩
  · rw [hlength]
    exact hproceeds.trans (.step hget' hrun .refl)
  · rw [hothers code source hsource, term?_congr hsame'.process hsame'.base]
  · rw [← hpc, ← hpc'] at hrest
    exact puts_build hopened hheld hputs c.callers c.recent hbuilt hrest (by rw [hsum])

/-! ## Joining two bit strings -/

/-- A function that joins two bit strings, of one byte together. -/
def joiningListing : Listing where
  name := "m"
  exports := #[⟨"join", 2⟩]
  functions := #[⟨⟨"join", 2⟩, 2, #[
    ⟨.label, [.int 1]⟩,
    ⟨.funcInfo, [.atom "m", .atom "join", .int 2]⟩,
    ⟨.label, [.int 2]⟩,
    ⟨.bsInit, [.label 0, .int 1, .int 0, .int 2, .int 0, .x 2]⟩,
    ⟨.bsPutBinary, [.label 0, .atom "all", .int 8, .int 0, .x 0]⟩,
    ⟨.bsPutBinary, [.label 0, .atom "all", .int 8, .int 0, .x 1]⟩,
    ⟨.move, [.x 2, .x 0]⟩,
    ⟨.ret, []⟩]⟩]

/-- The module of the listing. -/
def joiningModule : Module where
  name := "m"
  code := #[5, 0, 1, 2, 192, 3, 182, 2, 123, 0, 2, 65535, 189, 3, 0, 129, 8, 0, 65535, 189, 3, 1,
    129, 8, 0, 65535, 180, 2, 16, 0, 0]
  constants := #[.atom "m", .atom "join", .integer 1, .atom "all"]
  functions := ⟨⟨[(⟨"join", 2⟩, 4)]⟩, #[(0, ⟨"join", 2⟩)]⟩
  exports := [⟨⟨"join", 2⟩, 4⟩]

/-- A linker with that module. -/
def joiningLinker : Linker := Linker.withErlang.load joiningModule

/-- The opening of the function. -/
def joiningOpening : Opening := .init (.constant 2) 8 (.x 2) none

/-- The puts of the function. -/
def joiningPuts : List Put :=
  [.sized .bits (.constant 3) (.place (.x 0)) 8 0 none,
    .sized .bits (.constant 3) (.place (.x 1)) 8 0 none]

/-- Where the commands of the function stand. -/
theorem holds_joining : (LoadedModule.ofModule joiningModule).Holds 6
    (joiningOpening.commands ++ joiningPuts.flatMap Put.commands) 26 := by
  refine LoadedModule.holds_of_commandsFrom? (n := 6) ?_
  cbv

/-- With nothing and a byte, the function comes to the end of its puts, and the byte is at its
place. -/
theorem opening_builds_segments_joining :
    ∃ opened built b, (Chain.start ⟨"m", 0⟩ 6 [.bits .empty, .bits (.ofBytes #[0x41])] {}).Proceeds
        joiningLinker 2 opened ∧
      opened.Proceeds joiningLinker 4 built ∧ built.state.frame.pc = 26 ∧
      built.state.at? (.x 2) = some (.bits b) ∧
      b.toList = [false, true, false, false, false, false, false, true] := by
  obtain ⟨opened, hopened, -, hothers, hbuilds⟩ := opening_builds_segments joiningLinker
    (.ofModule joiningModule) (.start ⟨"m", 0⟩ 6 [.bits .empty, .bits (.ofBytes #[0x41])] {})
    joiningOpening joiningPuts [] 8 26 rfl holds_joining (.init rfl rfl) rfl
  have hfirst : Put.Denotes (.ofModule joiningModule) opened.state
      (.sized .bits (.constant 3) (.place (.x 0)) 8 0 none) (.bits .empty none 8) :=
    .bits (n := .all) rfl rfl (hothers _ (by decide)) nofun
  have hsecond : Put.Denotes (.ofModule joiningModule) opened.state
      (.sized .bits (.constant 3) (.place (.x 1)) 8 0 none) (.bits (.ofBytes #[0x41]) none 8) :=
    .bits (n := .all) rfl rfl (hothers _ (by decide)) nofun
  obtain ⟨built, b, hbuilt, hpc, -, hb, hbits⟩ :=
    (hbuilds _ (.cons hfirst (.cons hsecond .nil)) rfl).completes
      (by simp [Segment.size, BitString.ofBytes])
  refine ⟨opened, built, b, hopened, hbuilt, hpc, hb, hbits.trans ?_⟩
  decide

/-- With a byte and nothing, eight bits have been declared and eight are put, but the second put
finds nothing under construction. -/
theorem joining_breaks_on_empty_last :
    joiningListing.toModule = .ok joiningModule ∧
      (callExport joiningLinker 20 "m" "join" [.bits (.ofBytes #[0x41]), .bits .empty] {}).map
        Halt.outcome = some (.broken (.noBinary "bs_put")) := by
  constructor
  · exact eq_ok_of_toOption (by decide +kernel)
  · decide +kernel

end ErlangMachine.Machine
