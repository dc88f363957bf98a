import ErlangMachine.Proofs.Anchoring
import ErlangMachine.Proofs.Boundaries
import ErlangMachine.Proofs.Decoding

/-!
# Control flow

Code that an assembler has made never loses its way. Whatever a run goes through, calls within a
module and into others, tail calls, closures, faults and handlers, suspensions and resumptions, each
command that it runs begins where an instruction of the running module begins, or the code has come
to its end. So the machine never meets a word that is no opcode, and every place of the pool of
constants and of the jump tables that a command names is one that the module has. This holds also of
modules from an assembler that has refused some functions on the way, since what it keeps of a
refused function is a number of complete instructions.

An offset at which code goes on comes from an operand, a jump table, an export, a closure, a handler
or the frame of an activation that waits. `Policy.confined` asks for a boundary in all these places.
That the code of a loaded module keeps to it is `Module.Sound` together with
`Coupling.fits_of_decode`, and that runs do is `Policy.anchored_of_visits`. As everywhere there, no
source operand may read a catch tag: a tag that stands where another activation ends its protected
region would bring the handlers of one module into another. For the same reason nothing may bring a
catch tag in from outside, nor a closure of an offset inside an instruction: not the arguments, the
constants, the messages, the last fault or the results of natives. `callExport_inBounds` states the
result, and `callExport_derails` has runs that show what it needs.
-/

namespace ErlangMachine

namespace Machine

/-! ## The indices of a command -/

/-- The constant that a source reads, if it reads one. -/
def Source.constants : Source → List Nat
  | .constant i => [i]
  | _ => []

namespace Command

/-- The places in the pool of constants that a command reads. -/
def constants : Command → List Nat
  | .fetch first second => first.constants ++ second.elim [] Source.constants
  | .floatMove source _ | .floatConvert source _ => source.constants
  | .matching (.literal _ i _) => [i]
  | .building (.putLiteral i) => [i]
  | _ => []

/-- The value tables that a command reads. -/
def valueTables : Command → List Nat
  | .selectValue _ i => [i]
  | _ => []

/-- The arity tables that a command reads. -/
def arityTables : Command → List Nat
  | .selectArity _ i => [i]
  | _ => []

end Command

namespace Coupling

variable {C : Coupling}

/-- An allowed source reads an allowed constant. -/
theorem FitsSource.constants {source : Source} (h : C.FitsSource source) :
    ∀ i ∈ source.constants, C.constant i := by
  cases source with
  | constant index =>
    intro i hi
    exact h i (congrArg Source.constant (List.mem_singleton.1 hi).symm)
  | place slot => intro i hi; cases hi
  | float n => intro i hi; cases hi

/-- An allowed command reads allowed constants. -/
theorem Fits.constants {command : Command} (h : C.Fits command) :
    ∀ i ∈ command.constants, C.constant i := by
  intro i hi
  unfold Command.constants at hi
  split at hi
  · rename_i first second
    rcases List.mem_append.1 hi with hi | hi
    · exact h.1.constants i hi
    · cases second with
      | none => cases hi
      | some source => exact (h.2 source rfl).constants i hi
  · exact FitsSource.constants h i hi
  · exact FitsSource.constants h i hi
  · obtain rfl := List.mem_singleton.1 hi
    exact h.1
  · obtain rfl := List.mem_singleton.1 hi
    exact h
  · cases hi

/-- An allowed command reads allowed value tables. -/
theorem Fits.valueTables {command : Command} (h : C.Fits command) :
    ∀ i ∈ command.valueTables, C.valueTable i := by
  intro i hi
  unfold Command.valueTables at hi
  split at hi
  · obtain rfl := List.mem_singleton.1 hi
    exact h.2
  · cases hi

/-- An allowed command reads allowed arity tables. -/
theorem Fits.arityTables {command : Command} (h : C.Fits command) :
    ∀ i ∈ command.arityTables, C.arityTable i := by
  intro i hi
  unfold Command.arityTables at hi
  split at hi
  · obtain rfl := List.mem_singleton.1 hi
    exact h.2
  · cases hi

end Coupling

/-! ## The policy -/

/-- The policy that lets code go on only at boundaries and name only entries that its module has. -/
def Policy.confined (linker : Linker) : Policy where
  entry ref pc := ∃ code, linker.get? ref = some code ∧ code.module.Boundary pc
  constant ref i := ∀ code, linker.get? ref = some code → i < code.module.constants.size
  valueTable ref i := ∀ code, linker.get? ref = some code → i < code.module.valueTables.size
  arityTable ref i := ∀ code, linker.get? ref = some code → i < code.module.arityTables.size
  error := Error.IsOrdinary

end Machine

namespace Module.Sound

variable {m : Module} (h : m.Sound) {pc : Nat} (hpc : m.Boundary pc)

include h hpc

/-- A word at a boundary is an opcode, and the words after it fit its layout. -/
theorem line_of_word {word : UInt16} (hword : m.code[pc]? = some word) :
    ∃ opcode, Opcode.ofWord? word = some opcode ∧
      WordsFit m.bounds opcode.family.layout opcode.variants
        (m.code.extract (pc + 1) (pc + 1 + opcode.family.layout.length)).toList := by
  rcases h.line pc hpc with rfl | ⟨word', opcode, hword', hopcode, hfit⟩
  · rw [Array.getElem?_eq_none (Nat.le_refl _)] at hword
    cases hword
  · obtain rfl := Option.some.inj (hword.symm.trans hword')
    exact ⟨opcode, hopcode, hfit⟩

/-- Where an instruction begins, all of its words are there. -/
theorem complete :
    pc = m.code.size ∨ ∃ word opcode, m.code[pc]? = some word ∧ Opcode.ofWord? word = some opcode ∧
      pc + 1 + opcode.family.layout.length ≤ m.code.size := by
  refine (h.line pc hpc).imp_right ?_
  rintro ⟨word, opcode, hword, hopcode, hfit⟩
  refine ⟨word, opcode, hword, hopcode, ?_⟩
  have hlt : pc < m.code.size := (Array.getElem?_eq_some_iff.1 hword).1
  have hlength := hfit.length_eq
  rw [Array.length_toList, Array.size_extract] at hlength
  omega

end Module.Sound

namespace Machine

namespace Policy

variable {linker : Linker} {ref : ModuleRef} {code : LoadedModule}

/-- In a loaded module, code may go on at the boundaries and nowhere else. -/
theorem entry_confined (hcode : linker.get? ref = some code) {pc : Nat} :
    (confined linker).entry ref pc ↔ code.module.Boundary pc := by
  constructor
  · rintro ⟨code', hcode', hpc⟩
    obtain rfl := Option.some.inj (hcode.symm.trans hcode')
    exact hpc
  · exact fun hpc => ⟨code, hcode, hpc⟩

/-- Words of a loaded module that lead to boundaries and to entries that there are make allowed
operands. -/
theorem covers_bounds (hcode : linker.get? ref = some code) (below : List Term) :
    ((confined linker).anchored ref below).Covers code.module.bounds where
  number _ _ h := h
  label w _ h := h.imp_right fun hw => (entry_confined hcode).2 hw
  constant _ _ h code' hcode' := by
    obtain rfl := Option.some.inj (hcode.symm.trans hcode')
    exact h
  values _ _ h code' hcode' := by
    obtain rfl := Option.some.inj (hcode.symm.trans hcode')
    exact h
  arities _ _ h code' hcode' := by
    obtain rfl := Option.some.inj (hcode.symm.trans hcode')
    exact h

variable {module : Module → Prop}

/-- The confined policy keeps its promises for all linkers whose modules are sound and have clean
constants, and whose natives keep terms clean. -/
theorem laws_confined
    (hlinker : linker.Built (fun _ f => f.Keeps (confined linker).leaf) module)
    (hsound : ∀ m, module m → m.Sound)
    (hconstants : ∀ m, module m → ∀ t ∈ m.constants, (confined linker).Clean t) :
    (confined linker).Laws linker := by
  have hloaded {ref : ModuleRef} {code : LoadedModule} (hcode : linker.get? ref = some code) :
      code.module.Sound := hsound _ (hlinker.loaded hcode)
  -- An export enters at a boundary.
  have hexport : ∀ ref code name entry, linker.get? ref = some code →
      code.module.exportEntry? name = some entry → (confined linker).entry ref entry :=
    fun ref code name entry hcode hentry =>
      (entry_confined hcode).2 ((hloaded hcode).exports name entry hentry)
  refine
    { ordinary := fun _ he => he
      noModule := ?_
      constant := fun ref code i t hcode _ ht =>
        hconstants _ (hlinker.loaded hcode) t (Array.mem_of_getElem? ht)
      noConstant := ?_
      valueTable := ?_
      noValueTable := ?_
      arityTable := ?_
      noArityTable := ?_
      binding := fun _ _ _ _ hcode h => cleanCallable_of_binding hlinker hexport hcode h
      resolve := fun _ _ h => cleanCallable_of_resolve hlinker hexport h
      unknown := ?_
      next := ?_
      fits := ?_ }
  · rintro ref entry ⟨code, hcode, -⟩ hnone
    rw [hcode] at hnone
    cases hnone
  · intro ref code i hcode hi hnone
    exact absurd (hi code hcode) (Nat.not_lt.2 (Array.getElem?_eq_none_iff.1 hnone))
  · intro ref code i table value target hcode _ htable hlookup
    exact (entry_confined hcode).2 ((hloaded hcode).valueTables i table value target htable hlookup)
  · intro ref code i hcode hi hnone
    exact absurd (hi code hcode) (Nat.not_lt.2 (Array.getElem?_eq_none_iff.1 hnone))
  · intro ref code i table arity target hcode _ htable hlookup
    exact (entry_confined hcode).2 ((hloaded hcode).arityTables i table arity target htable hlookup)
  · intro ref code i hcode hi hnone
    exact absurd (hi code hcode) (Nat.not_lt.2 (Array.getElem?_eq_none_iff.1 hnone))
  · -- At a boundary stands an opcode, with operands that fit.
    intro ref code pc word hcode hpc hword hopcode
    obtain ⟨opcode, hopcode', -⟩ :=
      (hloaded hcode).line_of_word ((entry_confined hcode).1 hpc) hword
    rw [hopcode] at hopcode'
    cases hopcode'
  · intro ref code pc word opcode hcode hpc hword hopcode
    exact (entry_confined hcode).2 (.next ((entry_confined hcode).1 hpc) hword hopcode)
  · intro ref code pc word opcode command rest below hcode hpc hword hopcode hdecode
    obtain ⟨opcode', hopcode', hfit⟩ :=
      (hloaded hcode).line_of_word ((entry_confined hcode).1 hpc) hword
    obtain rfl := Option.some.inj (hopcode.symm.trans hopcode')
    exact Coupling.fits_of_decode (covers_bounds hcode below) (Operands.extract_prefix _ _) hfit
      hdecode

end Policy

/-! ## Runs -/

/-- A chain is in the code of a loaded module, and its step keeps to that module's tables. -/
structure Chain.InBounds (linker : Linker) (code : LoadedModule) (c : Chain) : Prop where
  /-- The module is the one that runs. -/
  loaded : linker.get? c.state.frame.code = some code
  /-- The chain is where an instruction begins or the code ends. -/
  boundary : code.module.Boundary c.state.frame.pc
  /-- If the code does not end there, then there is an opcode with all its operands. -/
  complete : c.state.frame.pc = code.module.code.size ∨ ∃ word opcode,
    code.module.code[c.state.frame.pc]? = some word ∧ Opcode.ofWord? word = some opcode ∧
      c.state.frame.pc + 1 + opcode.family.layout.length ≤ code.module.code.size
  /-- The constants that the command reads are there. -/
  constants : ∀ command, code.commandAt? c.state.frame.pc = some command →
    ∀ i ∈ command.constants, i < code.module.constants.size
  /-- The value tables that it names are there. -/
  valueTables : ∀ command, code.commandAt? c.state.frame.pc = some command →
    ∀ i ∈ command.valueTables, i < code.module.valueTables.size
  /-- The arity tables that it names are there. -/
  arityTables : ∀ command, code.commandAt? c.state.frame.pc = some command →
    ∀ i ∈ command.arityTables, i < code.module.arityTables.size
  /-- The step does not come upon a word that is no opcode. -/
  implemented : ∀ host word pc,
    c.step linker ≠ .halted ⟨host, .broken (.unimplementedOpcode word pc)⟩
  /-- The step does not look for an entry that a table does not have. -/
  entries : ∀ host table i, c.step linker ≠ .halted ⟨host, .broken (.missingEntry table i)⟩

namespace Policy

variable {linker : Linker}

/-- A step of an anchored chain never fails but in an ordinary way. -/
theorem Anchored.isOrdinary (laws : (confined linker).Laws linker) {bottom : List Term} {c : Chain}
    (h : (confined linker).Anchored bottom c) (htag : ¬ c.state.ReadsTag linker) {host : Host}
    {e : Error} (hstep : c.step linker = .halted ⟨host, .broken e⟩) : e.IsOrdinary := by
  obtain ⟨below, hs, hwaiting⟩ := h
  have hsettled := step_settled laws hs hwaiting htag
  rw [hstep] at hsettled
  cases hsettled with
  | broken he _ => exact he

/-- A chain that is anchored under the confined policy is in bounds. -/
theorem Anchored.inBounds (laws : (confined linker).Laws linker)
    (hsound : ∀ ref code, linker.get? ref = some code → code.module.Sound) {bottom : List Term}
    {c : Chain} (h : (confined linker).Anchored bottom c) (htag : ¬ c.state.ReadsTag linker) :
    ∃ code, c.InBounds linker code := by
  have ⟨below, hs, _⟩ := h
  obtain ⟨code, hcode, hpc⟩ : (confined linker).entry c.state.frame.code c.state.frame.pc :=
    hs.goodFrame.pc
  have hfits : ∀ command, code.commandAt? c.state.frame.pc = some command →
      ((confined linker).anchored c.state.frame.code below).Fits command := by
    intro command hcommand
    obtain ⟨word, opcode, rest, hword, hopcode, hdecode⟩ := LoadedModule.of_commandAt? hcommand
    exact laws.fits _ _ _ _ _ _ _ _ hcode ⟨code, hcode, hpc⟩ hword hopcode hdecode
  exact ⟨code,
    { loaded := hcode
      boundary := hpc
      complete := (hsound _ _ hcode).complete hpc
      constants := fun command h i hi => (hfits command h).constants i hi code hcode
      valueTables := fun command h i hi => (hfits command h).valueTables i hi code hcode
      arityTables := fun command h i hi => (hfits command h).arityTables i hi code hcode
      implemented := fun _ _ _ hstep => h.isOrdinary laws htag hstep
      entries := fun _ _ _ hstep => h.isOrdinary laws htag hstep }⟩

end Policy

/-- In every run of a function of modules that assemblers have made, called by its name, each chain
is in bounds, and the run never stops because of a word that is no opcode or an entry that a table
does not have. -/
theorem callExport_inBounds {linker : Linker}
    (hlinker : linker.Built (fun _ f => f.Keeps (Policy.confined linker).leaf) fun m =>
      (∃ a, Assembler.Reached a ∧ a.finish = .ok m) ∧
        ∀ t ∈ m.constants, (Policy.confined linker).Clean t)
    (module function : Atom) (arguments : List Term)
    (harguments : ∀ t ∈ arguments, (Policy.confined linker).Clean t) (target : Callable)
    (htarget : linker.resolve? ⟨module, function, arguments.length⟩ = some target) (host : Host)
    (hhost : (Policy.confined linker).Fit host) :
    (∀ c, Visits linker (Policy.confined linker).Fit target arguments host c →
      ∃ code, c.InBounds linker code) ∧
    ∀ halt, Stops linker (Policy.confined linker).Fit target arguments host halt →
      (∀ word pc, halt.outcome ≠ .broken (.unimplementedOpcode word pc)) ∧
      ∀ table i, halt.outcome ≠ .broken (.missingEntry table i) := by
  have hsound : ∀ m : Module, (∃ a, Assembler.Reached a ∧ a.finish = .ok m) → m.Sound := by
    rintro m ⟨a, ha, hfinish⟩
    exact Assembler.sound_of_finish ha.inLines hfinish
  have laws := Policy.laws_confined hlinker (fun m hm => hsound m hm.1) fun m hm => hm.2
  -- The chain is anchored at every stage of the run.
  have hanchored {c : Chain}
      (hc : Visits linker (Policy.confined linker).Fit target arguments host c) :=
    Policy.anchored_of_visits laws (laws.resolve _ _ htarget) harguments hhost hc
  refine ⟨fun c hc => ?_, fun halt hstops => ?_⟩
  · exact (hanchored hc).inBounds laws (fun ref code hcode => hsound _ (hlinker.loaded hcode).1)
      hc.not_readsTag
  · have hordinary : ∀ e, halt.outcome = .broken e → e.IsOrdinary := by
      intro e he
      obtain ⟨stopped, outcome⟩ := halt
      obtain rfl : outcome = .broken e := he
      rcases hstops.cases with ⟨c, hc, hstep⟩ | ⟨-, hover⟩
      · exact (hanchored hc).isOrdinary laws hc.not_readsTag hstep
      · exact hover.elim
    exact ⟨fun _ _ he => hordinary _ he, fun _ _ he => hordinary _ he⟩

/-! ## A run to look at -/

end Machine

/-- The assembler after it was given a function, whether it has taken or refused it. -/
def Assembler.offer (a : Assembler) (f : FunctionListing) : Assembler :=
  match function f.function f.entry f.body.toList a with
  | .ok _ a' => a'
  | .error _ a' => a'

/-- Functions may be taken or refused. -/
theorem Assembler.Reached.offer {a : Assembler} (h : a.Reached) (f : FunctionListing) :
    (a.offer f).Reached := by
  unfold Assembler.offer
  split
  · rename_i hrun
    exact .taken h hrun
  · rename_i hrun
    exact .refused h hrun

namespace Machine

/-- A function that makes a closure and calls it in a protected region. -/
def patchedOuter : FunctionListing where
  function := ⟨"f", 1⟩
  entry := 2
  body := #[
    ⟨.label, [.int 1]⟩,
    ⟨.funcInfo, [.atom "m", .atom "f", .int 1]⟩,
    ⟨.label, [.int 2]⟩,
    ⟨.allocate, [.int 1, .int 1]⟩,
    ⟨.catchBegin, [.y 0, .label 3]⟩,
    ⟨.makeFun, [.label 5, .int 0, .int 1]⟩,
    ⟨.callFun, [.int 0]⟩,
    ⟨.label, [.int 3]⟩,
    ⟨.catchEnd, [.y 0]⟩,
    ⟨.deallocate, [.int 1]⟩,
    ⟨.ret, []⟩]

/-- A function whose second instruction has too many operands. -/
def patchedRefused : FunctionListing where
  function := ⟨"h", 0⟩
  entry := 7
  body := #[⟨.label, [.int 7]⟩, ⟨.move, [.nil, .x 3]⟩, ⟨.move, [.x 0, .x 0, .x 0]⟩]

/-- The function of the closure, which takes two slots, goes by a jump table and raises a fault
unless it is given the right atom. -/
def patchedInner : FunctionListing where
  function := ⟨"g", 1⟩
  entry := 5
  body := #[
    ⟨.label, [.int 4]⟩,
    ⟨.funcInfo, [.atom "m", .atom "g", .int 1]⟩,
    ⟨.label, [.int 5]⟩,
    ⟨.allocate, [.int 2, .int 1]⟩,
    ⟨.selectVal, [.x 0, .label 4, .list [.atom "a", .label 6]]⟩,
    ⟨.label, [.int 6]⟩,
    ⟨.deallocate, [.int 2]⟩,
    ⟨.ret, []⟩]

/-- An assembler that has taken the first function, refused the second and taken the third. -/
def patched : Assembler :=
  ((((Assembler.ofName "m").offer patchedOuter).offer patchedRefused).offer patchedInner).addExport
    ⟨"f", 1⟩

/-- The module that it makes. The six words from offset 22 on are left of the refused function. -/
def patchedModule : Module where
  name := "m"
  code := #[5, 0, 1, 1, 192, 1, 10, 1, 145, 0, 17, 65, 32, 0, 1, 64, 0, 146, 0, 12, 1, 0,
    192, 0, 182, 2, 16, 3, 5, 0, 3, 1, 192, 1, 10, 2, 180, 0, 54, 28, 0, 12, 2, 0]
  constants := #[.atom "m", .atom "f", .nil, .atom "g"]
  valueTables := #[⟨[(.atom "a", 41)], []⟩]
  functions := ⟨⟨[(⟨"g", 1⟩, 32), (⟨"f", 1⟩, 4)]⟩, #[(0, ⟨"f", 1⟩), (28, ⟨"g", 1⟩)]⟩
  exports := [⟨⟨"f", 1⟩, 4⟩]

/-- The assembler makes this module. -/
theorem finish_patched : patched.finish = .ok patchedModule :=
  eq_ok_of_toOption (by decide +kernel)

/-- A linker with that module and the natives of `erlang`. -/
def patchedLinker : Linker := Linker.withErlang.load patchedModule

/-- A process that is preempted at every check and has one slot on its stack. -/
def patchedHost : Host where
  world := { interval := some 1 }
  process := { stack := [.atom "kept"] }

/-- The process when the call of the closure has to wait for its turn. -/
def patchedWaiting : Host where
  world := { interval := some 1 }
  process := { stack := [.catchTag ⟨.catchValue, 17, 2⟩ [], .atom "kept"] }

/-- The call of the closure, while it waits for its turn. -/
def patchedHeldUp : Continuation where
  frame :=
    { code := ⟨"m", 0⟩, pc := 15, lastPc := 15, base := 1, handlers := [⟨.catchValue, 17, 2⟩] }
  registers := #[.closure ⟨"m", 0⟩ 32 0 [.integer 1]]
  wake := .yield true
  callers := []

/-- The fault of the closure, with the functions that it has left or come to. -/
def patchedFault : Fault :=
  { Fault.functionClause with
    trace :=
      [.tuple [.atom "m", .atom "g", .integer 1], .tuple [.atom "m", .atom "f", .integer 1]] }

/-- The process when the function has returned. -/
def patchedReturned : Host where
  world := { interval := some 1 }
  process :=
    { registers := #[patchedFault.catchValue]
      stack := [.atom "kept"]
      lastFault := some patchedFault }

/-- The function is called and held up before it calls the closure. -/
theorem invoke_patched : invoke patchedLinker 20 (.code ⟨"m", 0⟩ 4 1 []) [.integer 1] patchedHost =
    some ⟨patchedWaiting, .suspended patchedHeldUp⟩ := by
  decide +kernel

/-- When it has its turn, the fault of the closure is caught and the function returns it. -/
theorem resume_patched : resume patchedLinker 20 patchedHeldUp .proceed patchedWaiting =
    some ⟨patchedReturned, .returned patchedFault.catchValue⟩ := by
  decide +kernel

/-- The call reads no catch tag before it is held up. -/
theorem clear_patched :
    (Chain.start ⟨"m", 0⟩ 4 [.integer 1] patchedHost).Clear patchedLinker :=
  Chain.clear_of_runsClear 20 (by decide +kernel)

/-- The call reads no catch tag after it was held up. -/
theorem clear_patchedHeldUp : (patchedHeldUp.chain .proceed patchedWaiting).Clear patchedLinker :=
  Chain.clear_of_runsClear 20 (by decide +kernel)

section Stops

variable {fit : Host → Prop}

/-- The call stops for the first time when it is held up. -/
theorem stops_patchedHeldUp : Stops patchedLinker fit (.code ⟨"m", 0⟩ 4 1 []) [.integer 1]
    patchedHost ⟨patchedWaiting, .suspended patchedHeldUp⟩ := by
  refine .first ?_ invoke_patched
  rintro _ _ _ _ ⟨rfl⟩
  exact clear_patched

/-- The call stops for good when it has returned the fault. -/
theorem stops_patched (hwaiting : fit patchedWaiting) :
    Stops patchedLinker fit (.code ⟨"m", 0⟩ 4 1 []) [.integer 1] patchedHost
      ⟨patchedReturned, .returned patchedFault.catchValue⟩ :=
  .later stops_patchedHeldUp rfl hwaiting clear_patchedHeldUp resume_patched

end Stops

/-- The module has been made by an assembler, and its constants are harmless. -/
theorem built_patchedLinker (P : Policy) :
    patchedLinker.Built (fun _ f => f.Keeps P.leaf) fun m =>
      (∃ a, Assembler.Reached a ∧ a.finish = .ok m) ∧ ∀ t ∈ m.constants, P.Clean t := by
  have hreached : patched.Reached :=
    .addExport _ ((((Assembler.Reached.start "m").offer _).offer _).offer _)
  refine .load patchedModule ⟨⟨patched, hreached, finish_patched⟩, ?_⟩ (Policy.built_erlang _)
  simp [patchedModule, Policy.Clean, Term.Every, Policy.leaf]

/-- The chain that goes on when the call of the closure has its turn is in bounds, and the run
returns the fault. -/
theorem callExport_inBounds_patched :
    (∃ code, (patchedHeldUp.chain .proceed patchedWaiting).InBounds patchedLinker code) ∧
    ∃ halt, Stops patchedLinker (Policy.confined patchedLinker).Fit (.code ⟨"m", 0⟩ 4 1 [])
        [.integer 1] patchedHost halt ∧
      halt.outcome = .returned patchedFault.catchValue ∧
      ∀ word pc, halt.outcome ≠ .broken (.unimplementedOpcode word pc) := by
  have hclean : ∀ t ∈ [Term.integer 1], (Policy.confined patchedLinker).Clean t := by
    simp [Policy.Clean, Term.Every, Policy.leaf]
  have hwaiting : (Policy.confined patchedLinker).Fit patchedWaiting := .of_nil rfl rfl
  have hstops := stops_patched hwaiting
  obtain ⟨hvisits, hhalts⟩ := callExport_inBounds (built_patchedLinker _) "m" "f" [.integer 1]
    hclean (.code ⟨"m", 0⟩ 4 1 []) rfl patchedHost (.of_nil rfl rfl)
  refine ⟨?_, _, hstops, rfl, (hhalts _ hstops).1⟩
  rcases stops_patchedHeldUp.cases with ⟨c, hc, hstep⟩ | ⟨-, hover⟩
  · exact hvisits _ (.resume hc hstep rfl hwaiting (clear_patchedHeldUp _ .refl))
  · exact hover.elim

/-! ## A catch tag that gets away -/

/-- A function that opens a protected region and another one in it, sends the catch tag of that one
to the process that it is given, and ends both. A fault in the outer region goes on at offset 4. -/
def leakingSender : FunctionListing where
  function := ⟨"leak", 1⟩
  entry := 3
  body := #[
    ⟨.label, [.int 1]⟩,
    ⟨.funcInfo, [.atom "m", .atom "leak", .int 1]⟩,
    ⟨.label, [.int 2]⟩,
    ⟨.allocate, [.int 1, .int 0]⟩,
    ⟨.ret, []⟩,
    ⟨.label, [.int 3]⟩,
    ⟨.allocate, [.int 1, .int 1]⟩,
    ⟨.catchBegin, [.y 0, .label 2]⟩,
    ⟨.allocate, [.int 1, .int 1]⟩,
    ⟨.catchBegin, [.y 0, .label 2]⟩,
    ⟨.move, [.y 0, .x 1]⟩,
    ⟨.send, []⟩,
    ⟨.catchEnd, [.y 0]⟩,
    ⟨.deallocate, [.int 1]⟩,
    ⟨.catchEnd, [.y 0]⟩,
    ⟨.deallocate, [.int 1]⟩,
    ⟨.ret, []⟩]

/-- Code that looks at a message in a slot, ends the protected region whose catch tag it takes it
for and raises a fault. No source operand of it reads the slot. -/
def misled : List Instruction := [
  ⟨.label, [.int 4]⟩,
  ⟨.allocate, [.int 1, .int 0]⟩,
  ⟨.loopRec, [.label 4, .y 0]⟩,
  ⟨.catchEnd, [.y 0]⟩,
  ⟨.ifEnd, []⟩]

/-- An assembler with the function that sends its catch tag and with that code. -/
def leaking : Assembler :=
  ((((Assembler.ofName "m").offer leakingSender).offer
    ⟨⟨"f", 0⟩, 4, misled.toArray⟩).addExport ⟨"leak", 1⟩).addExport ⟨"f", 0⟩

/-- The module that it makes. -/
def leakingModule : Module where
  name := "m"
  code := #[5, 0, 1, 1, 10, 1, 0, 192, 2, 10, 1, 145, 0, 4, 10, 1, 145, 0, 4, 181, 0, 16, 1, 1,
    146, 0, 12, 1, 146, 0, 12, 1, 0, 192, 0, 10, 1, 73, 33, 0, 146, 0, 4]
  constants := #[.atom "m", .atom "leak"]
  functions := ⟨⟨[(⟨"f", 0⟩, 33), (⟨"leak", 1⟩, 7)]⟩, #[(0, ⟨"leak", 1⟩), (33, ⟨"f", 0⟩)]⟩
  exports := [⟨⟨"leak", 1⟩, 7⟩, ⟨⟨"f", 0⟩, 33⟩]

/-- An assembler with the same code behind an instruction of five words, the last of which is no
opcode, and with a function that calls what it is given. -/
def derailed : Assembler :=
  ((((Assembler.ofName "n").offer
    ⟨⟨"f", 0⟩, 4, (⟨.testArity, [.label 4, .x 0, .int 1000]⟩ :: misled).toArray⟩).offer
    ⟨⟨"g", 1⟩, 5, #[⟨.label, [.int 5]⟩, ⟨.callFun, [.int 0]⟩, ⟨.ret, []⟩]⟩).addExport
      ⟨"f", 0⟩).addExport ⟨"g", 1⟩

/-- The module that it makes. -/
def derailedModule : Module where
  name := "n"
  code := #[180, 0, 46, 5, 1000, 192, 1, 10, 1, 73, 5, 0, 146, 0, 4, 192, 1, 64, 0, 0]
  functions := ⟨⟨[(⟨"g", 1⟩, 15), (⟨"f", 0⟩, 5)]⟩, #[(0, ⟨"f", 0⟩), (15, ⟨"g", 1⟩)]⟩
  exports := [⟨⟨"f", 0⟩, 5⟩, ⟨⟨"g", 1⟩, 15⟩]

/-- A linker with both modules. -/
def leakingLinker : Linker := (({} : Linker).load leakingModule).load derailedModule

/-- Assemblers have made both modules. -/
theorem built_leakingLinker : leakingLinker.Built (fun _ _ => True) fun m =>
    ∃ a, Assembler.Reached a ∧ a.finish = .ok m := by
  have hleaking : leaking.Reached :=
    .addExport _ (.addExport _ (((Assembler.Reached.start "m").offer _).offer _))
  have hderailed : derailed.Reached :=
    .addExport _ (.addExport _ (((Assembler.Reached.start "n").offer _).offer _))
  refine .load _ ⟨derailed, hderailed, ?_⟩ (.load _ ⟨leaking, hleaking, ?_⟩ .empty)
  · exact eq_ok_of_toOption (by decide +kernel)
  · exact eq_ok_of_toOption (by decide +kernel)

/-- The catch tag of the inner region. -/
def leakedTag : Term := .catchTag ⟨.catchValue, 4, 2⟩ [⟨.catchValue, 4, 1⟩]

/-- The process when the tag has been sent to itself. -/
def leaked : Host where
  world := { mailbox := { messages := [leakedTag] } }
  process := { registers := #[leakedTag, leakedTag] }

/-- The process has got its message when the call has returned. -/
theorem callExport_leaking : callExport leakingLinker 20 "m" "leak" [.pid 1] {} =
    some ⟨leaked, .returned leakedTag⟩ := by
  decide +kernel

/-- A call of a function of the second module goes through a chain that is out of bounds and comes
upon the word at offset 4, which is no opcode, in a run in which no source operand reads a catch
tag. -/
def Derails (function : Atom) (arguments : List Term) (host : Host) : Prop :=
  ∃ target, leakingLinker.resolve? ⟨"n", function, arguments.length⟩ = some target ∧
    (∃ c, Visits leakingLinker (fun _ => True) target arguments host c ∧
      ∀ code, ¬ c.InBounds leakingLinker code) ∧
    ∃ stopped, Stops leakingLinker (fun _ => True) target arguments host
      ⟨stopped, .broken (.unimplementedOpcode 1000 4)⟩

/-- A call derails if it comes upon that word. -/
theorem derails_of_invoke (entry : Nat) {function : Atom} {arguments : List Term} {host : Host}
    (hresolve : leakingLinker.resolve? ⟨"n", function, arguments.length⟩ =
      some (.code ⟨"n", 1⟩ entry arguments.length []))
    (hclear : (Chain.start ⟨"n", 1⟩ entry (arguments ++ []) host).runsClear leakingLinker 20 = true)
    (hinvoke : (invoke leakingLinker 20 (.code ⟨"n", 1⟩ entry arguments.length []) arguments
      host).map Halt.outcome = some (.broken (.unimplementedOpcode 1000 4))) :
    Derails function arguments host := by
  obtain ⟨⟨stopped, _⟩, hinvoke, rfl⟩ := Option.map_eq_some_iff.1 hinvoke
  have hstops : Stops leakingLinker (fun _ => True) (.code ⟨"n", 1⟩ entry arguments.length [])
      arguments host ⟨stopped, .broken (.unimplementedOpcode 1000 4)⟩ := by
    refine .first ?_ hinvoke
    rintro _ _ _ _ ⟨rfl⟩
    exact Chain.clear_of_runsClear 20 hclear
  refine ⟨_, hresolve, ?_, stopped, hstops⟩
  rcases hstops.cases with ⟨c, hc, hstep⟩ | ⟨-, hover⟩
  · exact ⟨c, hc, fun code hbounds => hbounds.implemented _ _ _ hstep⟩
  · exact hover.elim

/-- What a call is given matters, though no source operand in it reads a catch tag. Once a process
has a catch tag of `m` in its mailbox, `n:f/0` goes on at an offset of `m` inside one of its own
instructions; and so does `n:g/1` if it is given a closure with that offset. -/
theorem callExport_derails :
    leakingLinker.Built (fun _ _ => True) (fun m => ∃ a, Assembler.Reached a ∧ a.finish = .ok m) ∧
    callExport leakingLinker 20 "m" "leak" [.pid 1] {} = some ⟨leaked, .returned leakedTag⟩ ∧
    Derails "f" [] leaked ∧ Derails "g" [.closure ⟨"n", 1⟩ 4 0 []] {} := by
  refine ⟨built_leakingLinker, callExport_leaking, ?_, ?_⟩
  · exact derails_of_invoke 5 rfl (by decide +kernel) (by decide +kernel)
  · exact derails_of_invoke 15 rfl (by decide +kernel) (by decide +kernel)

end Machine

end ErlangMachine
