import ErlangMachine.Proofs.Constancy
import ErlangMachine.Proofs.Equality
import ErlangMachine.Proofs.Linking
import ErlangMachine.Proofs.Mailboxes
import ErlangMachine.Proofs.Sessions

/-!
# What running code does to its mailbox

Code deals with the mail of its process by few commands, and by the natives that it calls.
`Chain.moves` reads off a chain what its next step will do, given what each native does, and
`Chain.mails_step` says that the step does just that. `Handles` follows a mailbox from the beginning
through everything that happens around it: calls that run, wait and go on, in any process of that
world, and whatever is done from outside while nothing runs.

`mailbox_keeps_order` is the main result. The mailbox holds what has arrived and was not taken out,
in the order of arrival.
-/

namespace ErlangMachine

/-- Moves of the mail lead from one world to another; the rest of the world may change at will. -/
def World.Mails (w : World) (moves : List Move) (w' : World) : Prop :=
  w'.mail = (w.self, w.mailbox.moveAll w.self moves)

namespace World.Mails

variable {w w₁ w₂ w₃ : World} {moves more : List Move}

/-- Who the process is does not change. -/
theorem self_eq (h : w₁.Mails moves w₂) : w₂.self = w₁.self := congrArg Prod.fst h

/-- The mailbox changes by the moves. -/
theorem mailbox_eq (h : w₁.Mails moves w₂) :
    w₂.mailbox = w₁.mailbox.moveAll w₁.self moves := congrArg Prod.snd h

theorem trans (h : w₁.Mails moves w₂) (h' : w₂.Mails more w₃) : w₁.Mails (moves ++ more) w₃ := by
  unfold World.Mails at h' ⊢
  rw [h', h.self_eq, h.mailbox_eq, Mailbox.moveAll_append]

theorem of_mail_eq (h : w₂.mail = w₁.mail) : w₁.Mails [] w₂ := h

theorem trans_mail_eq (h : w₁.Mails moves w₂) (h' : w₃.mail = w₂.mail) : w₁.Mails moves w₃ :=
  h'.trans h

end World.Mails

/-- Sending a message is a move. -/
theorem World.mails_send {w w' : World} {receiver message : Term}
    (h : w.send receiver message = .ok w') : w.Mails [.send receiver message] w' := by
  unfold World.Mails Mailbox.moveAll
  rw [List.foldl_cons, List.foldl_nil, Mailbox.move_send]
  unfold World.send at h
  cases receiver with
  | pid id =>
    dsimp only at h
    split at h
    · rename_i hid
      cases h
      simp only [Move.arrival?, if_pos hid]
      rfl
    · rename_i hid
      cases h
      simp only [Move.arrival?, if_neg hid]
      rfl
  | atom name =>
    cases h
    rfl
  | _ => cases h

/-- A message without an address does not arrive. -/
theorem World.mails_send_error {w : World} {receiver message : Term} {fault : Fault}
    (h : w.send receiver message = .error fault) : w.Mails [.send receiver message] w := by
  unfold World.Mails Mailbox.moveAll
  unfold World.send at h
  cases receiver with
  | pid id =>
    dsimp only at h
    split at h
    · cases h
    · cases h
  | atom name => cases h
  | _ => rfl

/-- What natives do to the mail, by their names. -/
abbrev NativeMoves := FunctionId → List Term → World → List Move

namespace Native

variable {id : FunctionId}

/-- A native deals with the mail by the moves that are told of it. -/
def Mails (f : Native) (moves : List Term → World → List Move) : Prop :=
  ∀ (arguments : List Term) (w : World), w.Mails (moves arguments w) (f arguments w).2

/-- What the natives of `erlang` do to the mail: two of them send. -/
def erlangMoves : NativeMoves := fun id arguments _ =>
  match arguments with
  | [receiver, message] =>
    if id = ⟨"erlang", "!", 2⟩ ∨ id = ⟨"erlang", "send", 2⟩ then [.send receiver message] else []
  | _ => []

/-- Other natives of `erlang` do nothing. -/
theorem erlangMoves_eq_nil (h : id.function ≠ "!" ∧ id.function ≠ "send") (arguments : List Term)
    (w : World) : erlangMoves id arguments w = [] := by
  have hid : ¬ (id = ⟨"erlang", "!", 2⟩ ∨ id = ⟨"erlang", "send", 2⟩) := by
    rintro (rfl | rfl)
    · exact h.1 rfl
    · exact h.2 rfl
  unfold erlangMoves
  split
  · exact if_neg hid
  · rfl

/-- A native that looks at its arguments only does nothing to the mail. -/
theorem mails_ofPure {f : List Term → Except Fault Term}
    {moves : List Term → World → List Move} (h : ∀ arguments w, moves arguments w = []) :
    (ofPure f).Mails moves := by
  intro arguments w
  rw [h]
  exact .of_mail_eq rfl

/-- What the native that sends does. -/
theorem mails_sender (h : id = ⟨"erlang", "!", 2⟩ ∨ id = ⟨"erlang", "send", 2⟩) :
    send.Mails (erlangMoves id) := by
  intro arguments w
  rcases arguments with - | ⟨receiver, - | ⟨message, - | ⟨third, rest⟩⟩⟩
  · exact .of_mail_eq rfl
  · exact .of_mail_eq rfl
  · have hmoves : erlangMoves id [receiver, message] w = [.send receiver message] := if_pos h
    rw [hmoves]
    unfold send
    dsimp only
    cases hsend : w.send receiver message with
    | ok w' => exact World.mails_send hsend
    | error fault => exact World.mails_send_error hsend
  · exact .of_mail_eq rfl

/-- A native that takes a fixed number of arguments deals with the mail as told, if that is to do
nothing for any other number. -/
theorem Mails.ofArity {f : Native} {moves : List Term → World → List Move} (h : f.Mails moves)
    {arity : Nat} (hmoves : ∀ arguments w, arguments.length ≠ arity → moves arguments w = []) :
    (f.ofArity arity).Mails moves := by
  intro arguments w
  unfold Native.ofArity
  split
  · exact h arguments w
  · rename_i hlength
    rw [hmoves arguments w hlength]
    exact .of_mail_eq rfl

/-- No other native has the name of one that sends. -/
theorem names_quiet :
    (∀ b ∈ binaries, b.1 ≠ "!" ∧ b.1 ≠ "send") ∧ ∀ u ∈ unaries, u.1 ≠ "!" ∧ u.1 ≠ "send" := by
  constructor
  · simp [binaries]
  · simp [unaries]

/-- The natives of `erlang` deal with the mail as told. -/
theorem IsErlang.mails {f : Native} (hf : IsErlang id f) :
    (f.ofArity id.arity).Mails (erlangMoves id) := by
  obtain ⟨module, function, arity⟩ := id
  obtain ⟨hmodule, hmem⟩ := hf
  subst hmodule
  -- By name, only two functions send; all others must leave the mail alone.
  have hquiet : ∀ name : String, function = name → name ≠ "!" ∧ name ≠ "send" →
      ∀ arguments w, erlangMoves ⟨"erlang", function, arity⟩ arguments w = [] := by
    rintro name rfl ⟨hbang, hsend⟩
    refine erlangMoves_eq_nil ⟨fun h => hbang ?_, fun h => hsend ?_⟩
    · exact congrArg Atom.name h
    · exact congrArg Atom.name h
  have hpure : ∀ g, (∀ arguments w, erlangMoves ⟨"erlang", function, arity⟩ arguments w = []) →
      ((ofPure g).ofArity arity).Mails (erlangMoves ⟨"erlang", function, arity⟩) :=
    fun g hmoves => (mails_ofPure hmoves).ofArity fun arguments w _ => hmoves arguments w
  have hsends : (⟨"erlang", function, arity⟩ : FunctionId) = ⟨"erlang", "!", 2⟩ ∨
      (⟨"erlang", function, arity⟩ : FunctionId) = ⟨"erlang", "send", 2⟩ → arity = 2 →
      (send.ofArity arity).Mails (erlangMoves ⟨"erlang", function, arity⟩) := by
    rintro hid rfl
    refine (mails_sender hid).ofArity fun arguments w hlength => ?_
    unfold erlangMoves
    split
    · exact absurd rfl hlength
    · rfl
  -- The table lists operators of two and of one operand, and five functions of their own.
  unfold erlang at hmem
  rw [List.mem_append, List.mem_append, List.mem_map, List.mem_map] at hmem
  rcases hmem with (⟨b, hb, heq⟩ | ⟨u, hu, heq⟩) | hmem
  · obtain ⟨hname, rfl⟩ := Prod.mk.inj heq
    exact hpure _ (hquiet b.1 (congrArg LocalName.name hname).symm (names_quiet.1 b hb))
  · obtain ⟨hname, rfl⟩ := Prod.mk.inj heq
    exact hpure _ (hquiet u.1 (congrArg LocalName.name hname).symm (names_quiet.2 u hu))
  · simp only [List.mem_cons, Prod.mk.injEq, LocalName.mk.injEq, List.not_mem_nil,
      or_false] at hmem
    rcases hmem with ⟨⟨rfl, rfl⟩, rfl⟩ | ⟨⟨rfl, rfl⟩, rfl⟩ | ⟨⟨rfl, rfl⟩, rfl⟩ |
      ⟨⟨rfl, rfl⟩, rfl⟩ | ⟨⟨rfl, rfl⟩, rfl⟩
    · have hmoves := hquiet "self" rfl (by decide)
      have hself : self.Mails (erlangMoves ⟨"erlang", "self", 0⟩) := by
        intro arguments w
        rw [hmoves]
        exact .of_mail_eq rfl
      exact hself.ofArity fun arguments w _ => hmoves arguments w
    · exact hpure _ (hquiet "setelement" rfl (by decide))
    · exact hpure _ (hquiet "raise" rfl (by decide))
    · exact hsends (.inl rfl) rfl
    · exact hsends (.inr rfl) rfl

end Native

namespace Machine

/-! ## What a step will do -/

/-- The operands that a native command takes from the prefetch command before it. -/
def State.operands (s : State) : Nat → List Term
  | 0 => []
  | 1 => [s.frame.fetched.1]
  | _ => [s.frame.fetched.1, s.frame.fetched.2]

/-- What a native will do to the mail that is called by its import. -/
def importMoves (natives : NativeMoves) (code : LoadedModule) (index : Nat)
    (arguments : List Term) (w : World) : List Move :=
  match code.binding? index with
  | some (.native id _) => natives id arguments w
  | _ => []

/-- What a command will do to the mail by itself. -/
def Command.moves (natives : NativeMoves) (code : LoadedModule) (s : State) : Command → List Move
  | .send => [.send (s.process.x 0) (s.process.x 1)]
  | .loopReceiveEnd _ => [.skip]
  | .removeMessage => [.remove]
  | .timeout => [.rewind]
  | .native count index _ _ => importMoves natives code index (s.operands count) s.world
  | _ => []

/-- What a native will do to the mail that is called after a command. -/
def callMoves (natives : NativeMoves) : EStateM.Result Stop State Flow → List Move
  | .ok flow s =>
    match flow.called? with
    | some (.native id _, arguments) => natives id arguments s.world
    | _ => []
  | .error .. => []

/-- What the next step of a chain will do to the mail. -/
def Chain.moves (natives : NativeMoves) (linker : Linker) (c : Chain) : List Move :=
  (linker.get? c.state.frame.code).elim [] fun code =>
    (code.commandAt? c.state.frame.pc).elim [] (Command.moves natives code c.state) ++
      callMoves natives ((execute linker code c.callers).run c.state)

section Commands

variable {natives : NativeMoves} {linker : Linker} {code : LoadedModule} {callers : List Caller}

/-- A command that does not change the mail makes no moves. -/
theorem moves_of_not_changes {command : Command} (h : .mail ∉ command.changes) (s : State) :
    command.moves natives code s = [] := by
  cases command with
  | native | send | loopReceiveEnd | removeMessage | timeout =>
    exact absurd List.mem_cons_self h
  | _ => rfl

/-- Sending. What follows once the message has gone out does not concern the mail. -/
theorem mails_sendCommand (s : State) :
    s.world.Mails [.send (s.process.x 0) (s.process.x 1)]
      ((Command.send.run linker code callers).final s).world := by
  unfold Exec.final Command.run
  cases hsend : s.world.send (s.process.x 0) (s.process.x 1) with
  | ok w =>
    have hrest : Exec.Keeps [] (do
        Exec.write (.x 0) (s.process.x 1)
        return if ← Exec.checkYield then Flow.suspend (.yield false) else .next) :=
      (Exec.keeps_write _ _).bind fun _ => Exec.keeps_checkYield.bind fun _ => Exec.keeps_pure _
    have hmail := (hrest { s with world := w }).mail List.not_mem_nil
    refine (World.mails_send hsend).trans_mail_eq (Eq.trans ?_ hmail)
    simp only [Exec.process, EStateM.run_bind, EStateM.run_get, EStateM.run_pure, hsend,
      Exec.liftFault]
    rfl
  | error fault =>
    have hmoves := World.mails_send_error hsend
    simp only [Exec.process, EStateM.run_bind, EStateM.run_get, EStateM.run_pure, hsend,
      Exec.liftFault]
    exact hmoves

/-- A native that is called by its import, and then something that does not concern the mail. -/
theorem mails_callNative {index : Nat}
    (hnatives : ∀ id f, code.binding? index = some (.native id f) → f.Mails (natives id))
    {rest : Except Fault Term → Exec Flow} (hrest : ∀ result, (rest result).Keeps [])
    (arguments : List Term) (s : State) :
    s.world.Mails (importMoves natives code index arguments s.world)
      ((Exec.callNative code index arguments >>= rest).final s).world := by
  -- If nothing is bound, or something that is no native, then no native is called.
  have hundefined : (Exec.callNative code index arguments).run s = .ok (.error .undefined) s →
      s.world.Mails [] ((Exec.callNative code index arguments >>= rest).final s).world := by
    intro hcall
    have hfinal : (Exec.callNative code index arguments >>= rest).final s =
        (rest (.error .undefined)).final s := congrArg stateOf (run_bind_ok hcall)
    rw [hfinal]
    exact .of_mail_eq ((hrest _ s).mail List.not_mem_nil)
  unfold importMoves
  cases hbinding : code.binding? index with
  | none => exact hundefined (by unfold Exec.callNative; rw [hbinding]; rfl)
  | some target =>
    cases target with
    | code module entry arity captured =>
      exact hundefined (by unfold Exec.callNative; rw [hbinding]; rfl)
    | native id f =>
      have hcall : (Exec.callNative code index arguments).run s =
          .ok (f arguments s.world).1 { s with world := (f arguments s.world).2 } := by
        unfold Exec.callNative
        rw [hbinding]
        rfl
      have hfinal : (Exec.callNative code index arguments >>= rest).final s =
          (rest (f arguments s.world).1).final { s with world := (f arguments s.world).2 } :=
        congrArg stateOf (run_bind_ok hcall)
      rw [hfinal]
      exact (hnatives id f hbinding arguments s.world).trans_mail_eq
        ((hrest _ _).mail List.not_mem_nil)

/-- A native command. Only the native that it calls concerns the mail. -/
theorem mails_nativeCommand {count index : Nat} {label : Option Nat} {dest : Place}
    (hnatives : ∀ id f, code.binding? index = some (.native id f) → f.Mails (natives id))
    (s : State) :
    s.world.Mails (importMoves natives code index (s.operands count) s.world)
      (((Command.native count index label dest).run linker code callers).final s).world := by
  rcases count with - | - | count
  case' zero =>
    refine mails_callNative hnatives (fun result => ?_) [] s
  case' succ.zero =>
    let taken : State := { s with frame := { s.frame with fetched := (.nil, s.frame.fetched.2) } }
    change s.world.Mails _
      ((Exec.callNative code index [s.frame.fetched.1] >>= _).final taken).world
    refine mails_callNative hnatives (fun result => ?_) [s.frame.fetched.1] taken
  case' succ.succ =>
    let taken : State := { s with frame := { s.frame with fetched := (.nil, .nil) } }
    change s.world.Mails _ ((Exec.callNative code index
      [s.frame.fetched.1, s.frame.fetched.2] >>= _).final taken).world
    refine mails_callNative hnatives (fun result => ?_)
      [s.frame.fetched.1, s.frame.fetched.2] taken
  -- The rest is the same for any number of operands.
  all_goals
    cases result with
    | ok value => exact (Exec.quiet_writeLast dest value).keeps
    | error fault =>
      cases label with
      | some target => exact (Exec.quiet_goto target).keeps
      | none => exact Exec.keeps_raise fault

/-- What a command does to the mail, until it is settled how it goes on. -/
theorem mails_execute
    (hnatives : ∀ index id f, code.binding? index = some (.native id f) → f.Mails (natives id))
    (s : State) :
    s.world.Mails ((code.commandAt? s.frame.pc).elim [] (Command.moves natives code s))
      ((execute linker code callers).final s).world := by
  have hkeeps := keeps_execute linker code callers s
  cases hcommand : code.commandAt? s.frame.pc with
  | none =>
    rw [hcommand] at hkeeps
    exact .of_mail_eq (hkeeps.mail List.not_mem_nil)
  | some command =>
    rw [hcommand] at hkeeps
    show s.world.Mails (command.moves natives code s) _
    -- Commands that concern the mail are no calls, so the whole command is run here.
    by_cases hchanges : .mail ∈ command.changes
    · have hcall : command.isCall = false := by
        cases command with
        | call c mode =>
          cases mode with
          | nested => cases hchanges
          | tail slots => simp [Command.changes] at hchanges
        | _ => rfl
      obtain ⟨pc, hrun⟩ := execute_command hcommand hcall linker callers
      have hfinal : (execute linker code callers).final s =
          (command.run linker code callers).final (s.advance pc) := congrArg stateOf hrun
      rw [hfinal]
      cases command with
      | native count index label dest =>
        exact mails_nativeCommand (hnatives index) (s.advance pc)
      | send => exact mails_sendCommand (s.advance pc)
      | loopReceiveEnd | removeMessage | timeout => rfl
      | call c mode => cases hcall
      | allocate | release | protect | unprotect | raise => simp [Command.changes] at hchanges
      | _ => cases hchanges
    · rw [moves_of_not_changes hchanges]
      exact .of_mail_eq (hkeeps.mail hchanges)

end Commands

/-! ## Where natives come from -/

/-- Something to call that the linker has for an import of the code or for a name. -/
def Provides (linker : Linker) (code : LoadedModule) (target : Callable) : Prop :=
  (∃ index, code.binding? index = some target) ∨ ∃ id, linker.resolve? id = some target

section Calls

variable {natives : NativeMoves} {linker : Linker} {code : LoadedModule} {callers : List Caller}
  {arguments : List Term} {target : Callable} {s t : State}

/-- A value that is required and is there. -/
theorem eq_some_of_require {α : Type} {found : Option α} {fault : Fault} {a : α}
    (h : Fault.require found fault = .ok a) : found = some a := by
  cases found with
  | none => cases h
  | some b =>
    cases h
    rfl

/-- A native that a function value stands for is the answer to a name. -/
theorem resolve?_of_functionTarget {function : Term}
    (h : functionTarget linker function arguments = .ok target) (hnative : target.isNative = true) :
    ∃ id, linker.resolve? id = some target := by
  unfold functionTarget at h
  split at h
  · split at h
    · cases h
      cases hnative
    · cases h
  · split at h
    · exact ⟨_, eq_some_of_require h⟩
    · cases h
  · cases h

/-- A native that a callee stands for comes from the linker. -/
theorem provides_of_callee {c : Callee} {r : Callable × List Term}
    (h : (Exec.callee linker code c).run s = .ok r t) (hnative : r.1.isNative = true) :
    Provides linker code r.1 := by
  have hanswer : ∀ {found : Except Fault Callable} {arguments : List Term},
      (do return (← Exec.liftFault found, arguments) : Exec (Callable × List Term)).run s =
        .ok r t → found = .ok r.1 := by
    intro found arguments hrun
    cases found with
    | error fault => cases hrun
    | ok target =>
      cases hrun
      rfl
  cases c with
  | offset arity target =>
    cases h
    cases hnative
  | imported arity index => exact .inl ⟨index, eq_some_of_require (hanswer h)⟩
  | named arity =>
    unfold Exec.callee at h
    simp only [Exec.process, EStateM.run_bind, EStateM.run_get, EStateM.run_pure] at h
    split at h
    · exact .inr ⟨_, eq_some_of_require (hanswer h)⟩
    · cases h
  | value arity => exact .inr (resolve?_of_functionTarget (hanswer h) hnative)

/-- A native that is called after a command comes from the linker. -/
theorem provides_of_run {command : Command} {flow : Flow}
    (h : (command.run linker code callers).run s = .ok flow t)
    (hcalled : flow.called? = some (target, arguments)) (hnative : target.isNative = true) :
    Provides linker code target := by
  by_cases hcall : command.isCall = true
  · -- A call takes what its callee is; whether it is the last thing done does not matter.
    cases command with
    | call c mode =>
      unfold Command.run at h
      rw [EStateM.run_bind] at h
      cases hcallee : (Exec.callee linker code c).run s with
      | error e u =>
        rw [hcallee] at h
        cases h
      | ok r u =>
        rw [hcallee] at h
        have hcalls : flow.called? = some r := by
          refine (?_ : Exec.Calls (some r) _) u flow t h
          cases mode with
          | nested => exact Exec.calls_pure (.call r.1 r.2)
          | tail slots =>
            have hleave := Exec.calls_pure (.tailCall r.1 r.2)
            cases slots with
            | none => exact Exec.calls_bind fun _ => hleave
            | some n => exact Exec.calls_bind fun _ => Exec.calls_bind fun _ => hleave
        rw [hcalled] at hcalls
        cases hcalls
        exact provides_of_callee hcallee hnative
    | _ => cases hcall
  · have hquiet := (Exec.quiet_run linker code callers (Bool.eq_false_iff.2 hcall)).calls s flow t h
    rw [hquiet] at hcalled
    cases hcalled

/-- A native that is called after what stands at an offset comes from the linker. -/
theorem provides_of_execute {flow : Flow} (h : (execute linker code callers).run s = .ok flow t)
    (hcalled : flow.called? = some (target, arguments)) (hnative : target.isNative = true) :
    Provides linker code target := by
  obtain ⟨u, -, ⟨error, hrun⟩ | hrun⟩ | ⟨command, u, -, -, hrun⟩ :=
    execute_forms linker code callers s
  · rw [hrun] at h
    cases h
  · rw [hrun] at h
    cases h
    cases hcalled
  · rw [hrun] at h
    exact provides_of_run h hcalled hnative

/-- A native that comes from the linker deals with the mail as told. -/
theorem mails_of_provides {module : Module → Prop}
    (hlinker : linker.Built (fun id f => (f.ofArity id.arity).Mails (natives id)) module)
    {ref : ModuleRef} (hcode : linker.get? ref = some code) {id : FunctionId} {f : Native}
    (h : Provides linker code (.native id f)) : f.Mails (natives id) := by
  have hanswer : ∀ {l : Linker} {name : FunctionId},
      l.Built (fun id f => (f.ofArity id.arity).Mails (natives id)) module →
      l.resolve? name = some (.native id f) → f.Mails (natives id) := by
    intro l name hl hresolve
    obtain rfl := Linker.resolve?_id hresolve
    obtain ⟨g, hg, rfl⟩ := hl.resolve?_native hresolve
    exact hg
  rcases h with ⟨index, hbinding⟩ | ⟨name, hresolve⟩
  · obtain ⟨l, name, hl, -, hresolve⟩ := hlinker.binding hcode hbinding
    exact hanswer hl hresolve
  · exact hanswer hlinker hresolve

end Calls

/-! ## Steps -/

/-- The world in which a step ends. -/
def Progress.world : Progress → World
  | running c => c.state.world
  | halted halt => halt.world

namespace Chain

variable {natives : NativeMoves} {linker : Linker}

/-- A fault that comes to an activation leaves the world alone. -/
theorem world_raise (fault : Fault) (s : State) (callers : List Caller) (recent : Nat) :
    (raise linker fault s callers recent).world = s.world := by
  induction callers generalizing fault s recent with
  | nil =>
    cases hhandlers : s.frame.handlers with
    | nil => rw [raise_nil hhandlers]; rfl
    | cons handler outer => rw [raise_handled hhandlers]; rfl
  | cons caller callers ih =>
    cases hhandlers : s.frame.handlers with
    | nil => rw [raise_cons hhandlers, ih]; rfl
    | cons handler outer => rw [raise_handled hhandlers]; rfl

theorem world_raiseOutside (fault : Fault) (s : State) (callers : List Caller) (recent : Nat) :
    (raiseOutside linker fault s callers recent).world = s.world := by
  cases callers with
  | nil => rfl
  | cons caller callers => exact world_raise fault _ callers _

theorem world_leave (value : Term) (s : State) (callers : List Caller) (recent : Nat) :
    (leave value s callers recent).world = s.world := by
  cases callers with
  | nil => rfl
  | cons caller callers => rfl

theorem world_abort (error : Error) (c : Chain) : (c.abort error).world = c.state.world := by
  obtain ⟨registers, -, habort⟩ := c.abort_eq error
  rw [habort]
  rfl

/-- What follows a command changes the world only by the native that is called, if one is. -/
theorem mails_settle (c : Chain) (r : EStateM.Result Stop State Flow)
    (hnatives : ∀ flow s id f arguments, r = .ok flow s →
      flow.called? = some (.native id f, arguments) → f.Mails (natives id)) :
    (stateOf r).world.Mails (callMoves natives r) (c.settle linker r).world := by
  cases r with
  | error stop s =>
    cases stop with
    | fault fault => exact .of_mail_eq (congrArg World.mail (world_raise fault s _ _))
    | broken error => exact .of_mail_eq (congrArg World.mail (world_abort error _))
  | ok flow s =>
    cases flow with
    | next => exact .of_mail_eq rfl
    | suspend wake => exact .of_mail_eq rfl
    | leave value => exact .of_mail_eq (congrArg World.mail (world_leave value s _ _))
    | call target arguments =>
      cases target with
      | code module entry arity captured => exact .of_mail_eq rfl
      | native id f =>
        have hmoves := hnatives _ s id f arguments rfl rfl arguments s.world
        refine hmoves.trans_mail_eq (congrArg World.mail ?_)
        show (call linker (.native id f) arguments { c with state := s }).world = _
        unfold call
        dsimp only
        obtain ⟨result, w⟩ := f arguments s.world
        cases result with
        | ok value => rfl
        | error fault => exact world_raise fault _ _ _
    | tailCall target arguments =>
      cases target with
      | code module entry arity captured => exact .of_mail_eq rfl
      | native id f =>
        have hmoves := hnatives _ s id f arguments rfl rfl arguments s.world
        refine hmoves.trans_mail_eq (congrArg World.mail ?_)
        show (tailCall linker (.native id f) arguments { c with state := s }).world = _
        unfold tailCall
        dsimp only
        obtain ⟨result, w⟩ := f arguments s.world
        cases result with
        | ok value => exact world_leave value _ _ _
        | error fault => exact world_raiseOutside fault _ _ _

/-- A step does to the mail what can be read off the chain before. -/
theorem mails_step {module : Module → Prop}
    (hlinker : linker.Built (fun id f => (f.ofArity id.arity).Mails (natives id)) module)
    (c : Chain) : c.state.world.Mails (c.moves natives linker) (c.step linker).world := by
  unfold moves
  cases hcode : linker.get? c.state.frame.code with
  | none =>
    rw [step_eq_abort hcode]
    exact .of_mail_eq (congrArg World.mail (world_abort _ c))
  | some code =>
    have hnatives : ∀ index id f, code.binding? index = some (.native id f) →
        f.Mails (natives id) :=
      fun index id f hbinding => mails_of_provides hlinker hcode (.inl ⟨index, hbinding⟩)
    rw [step_eq_settle hcode]
    refine (mails_execute hnatives c.state).trans (mails_settle c _ ?_)
    intro flow s id f arguments hrun hcalled
    exact mails_of_provides hlinker hcode (provides_of_execute hrun hcalled rfl)

end Chain

/-! ## The life of a mailbox -/

/-- Where a process is. -/
inductive Stage where
  /-- Nothing runs. -/
  | resting (host : Host)
  /-- A call chain runs. -/
  | running (chain : Chain)

/-- The world at a stage. -/
def Stage.world : Stage → World
  | resting host => host.world
  | running c => c.state.world

/-- The stages that a mailbox comes to, beginning as an empty one, with the moves so far. -/
inductive Handles (natives : NativeMoves) (linker : Linker) : Stage → List Move → Prop where
  /-- A world with an empty mailbox. -/
  | begin {host : Host} : host.world.mailbox = {} → Handles natives linker (.resting host) []
  /-- Something is done from outside while nothing runs. That concerns the mail by some moves, and
  everything else in any way: another process may take the place of this one. -/
  | outside {host host' : Host} {moves more : List Move} :
    Handles natives linker (.resting host) moves → host.world.Mails more host'.world →
    Handles natives linker (.resting host') (moves ++ more)
  /-- A native is called from outside. -/
  | native {host : Host} {moves : List Move} {id : FunctionId} {f : Native}
      {arguments : List Term} :
    Handles natives linker (.resting host) moves → linker.resolve? id = some (.native id f) →
    Handles natives linker (.resting { host with world := (f arguments host.world).2 })
      (moves ++ natives id arguments host.world)
  /-- A chain begins or goes on. -/
  | run {host : Host} {c : Chain} {moves : List Move} :
    Handles natives linker (.resting host) moves → c.state.world = host.world →
    Handles natives linker (.running c) moves
  /-- The chain takes a step. -/
  | step {c next : Chain} {moves : List Move} : Handles natives linker (.running c) moves →
    c.step linker = .running next →
    Handles natives linker (.running next) (moves ++ c.moves natives linker)
  /-- The chain ends, or waits, or gives up. -/
  | halt {c : Chain} {halt : Halt} {moves : List Move} : Handles natives linker (.running c) moves →
    c.step linker = .halted halt →
    Handles natives linker (.resting halt.toHost) (moves ++ c.moves natives linker)

/-- The mailbox is what the moves have made of an empty one. -/
theorem Handles.mailbox_eq {natives : NativeMoves} {linker : Linker} {module : Module → Prop}
    (hlinker : linker.Built (fun id f => (f.ofArity id.arity).Mails (natives id)) module)
    {stage : Stage} {moves : List Move} (h : Handles natives linker stage moves) :
    stage.world.mailbox = Mailbox.after stage.world.self moves := by
  -- Moves that lead from one world to the next lead on from the moves before.
  have hon : ∀ {w w' : World} {moves more : List Move},
      w.mailbox = Mailbox.after w.self moves → w.Mails more w' →
      w'.mailbox = Mailbox.after w'.self (moves ++ more) := by
    intro w w' moves more hw hmails
    rw [hmails.mailbox_eq, hmails.self_eq, hw]
    exact (Mailbox.moveAll_append {} moves more).symm
  induction h with
  | begin hempty => exact hempty
  | outside _ hmails ih => exact hon ih hmails
  | @native host moves id f arguments _ hresolve ih =>
    obtain ⟨g, hg, rfl⟩ := hlinker.resolve?_native hresolve
    exact hon ih (hg arguments host.world)
  | @run host c moves _ hworld ih =>
    show c.state.world.mailbox = Mailbox.after c.state.world.self moves
    rw [hworld]
    exact ih
  | @step c next moves _ hstep ih =>
    have hmails := Chain.mails_step hlinker c
    rw [hstep] at hmails
    exact hon ih hmails
  | @halt c halt moves _ hstep ih =>
    have hmails := Chain.mails_step hlinker c
    rw [hstep] at hmails
    exact hon ih hmails

/-- No message is lost, doubled or overtaken. Follow a mailbox from its beginning, through whatever
calls run, wait and go on and whatever is done from outside, to any stage. Give each message that
has arrived a number. Those that are in the mailbox are there in the order of their numbers, those
that removals have returned are the others, and no number occurs twice. The cursor stands in the
mailbox. If the next thing to happen is a removal, it takes out the message that the cursor shows,
and nothing if it shows none. After a removal, or when the cursor has gone back, the cursor shows
the oldest message until it passes over one. -/
theorem mailbox_keeps_order {natives : NativeMoves} {linker : Linker} {module : Module → Prop}
    (hlinker : linker.Built (fun id f => (f.ofArity id.arity).Mails (natives id)) module)
    {stage : Stage} {moves : List Move} (h : Handles natives linker stage moves) :
    let pid := stage.world.self
    let box := stage.world.mailbox
    (∃ kept taken : List Nat, kept.Pairwise (· < ·) ∧
      (kept ++ taken).Perm (List.range (arrived pid moves).length) ∧
      box.messages.map some = kept.map ((arrived pid moves)[·]?) ∧
      (Mailbox.returned pid {} moves).map some = taken.map ((arrived pid moves)[·]?)) ∧
    box.cursor ≤ box.messages.length ∧
    (∀ w, stage.world.Mails [.remove] w →
      (∃ front t back, box.peek? = some t ∧ box.messages = front ++ t :: back ∧
        front.length = box.cursor ∧ w.mailbox.messages = front ++ back) ∨
      box.peek? = none ∧ w.mailbox.messages = box.messages) ∧
    ∀ before a rest, moves = before ++ a :: rest → (a = .remove ∨ a = .rewind) → .skip ∉ rest →
      box.peek? = box.messages.head? := by
  intro pid box
  -- The mailbox of the process is the one that the moves lead to.
  have hbox : box = Mailbox.after pid moves := h.mailbox_eq hlinker
  refine ⟨?_, ?_, ?_, ?_⟩
  · obtain ⟨kept, taken, hshares⟩ := Mailbox.exists_shares pid moves
    rw [hbox]
    exact ⟨kept, taken, hshares.ascending, hshares.partition, hshares.messages, hshares.returned⟩
  · rw [hbox]
    exact Mailbox.cursor_le_after moves
  · intro w hmails
    have hremove : w.mailbox = box.remove := hmails.mailbox_eq
    rw [hremove]
    exact box.remove_eq
  · rintro before a rest hmoves ha hrest
    rw [hbox, hmoves]
    exact Mailbox.peek?_after ha hrest

/-! ## A message that waits for its turn -/

/-- A function that sends `1` to itself and then takes the first message that is `2` out of its
mailbox. -/
def picker : Module where
  name := "m"
  -- The function header, the sending, the loop over the messages, and the wait for more.
  code := #[5, 0, 1, 0, 192, 2, 66, 0, 0, 182, 2, 16, 1, 1, 72, 26, 0, 185, 0, 3, 48, 24, 2, 0,
    74, 14, 75, 14]
  constants := #[.atom "m", .atom "f", .integer 1, .integer 2]
  functions := .empty
  exports := [⟨⟨"f", 0⟩, 4⟩]
  imports := #[⟨⟨"erlang", "self", 0⟩, false⟩]

/-- A linker with the natives of `erlang` and that module. -/
def pickerLinker : Linker := ((Linker.withErlang.load picker).link 0).2

/-- Where a chain comes to rest within so many steps, with the moves that it makes until then. -/
def Chain.rests? (natives : NativeMoves) (linker : Linker) : Nat → Chain → Option (Halt × List Move)
  | 0, _ => none
  | n + 1, c =>
    match c.step linker with
    | .running next =>
      (next.rests? natives linker n).map fun rest => (rest.1, c.moves natives linker ++ rest.2)
    | .halted halt => some (halt, c.moves natives linker)

/-- A chain that runs until it comes to rest. -/
theorem Handles.rests {natives : NativeMoves} {linker : Linker} {n : Nat} {c : Chain}
    {moves more : List Move} {halt : Halt} (h : Handles natives linker (.running c) moves)
    (hrests : c.rests? natives linker n = some (halt, more)) :
    Handles natives linker (.resting halt.toHost) (moves ++ more) := by
  induction n generalizing c moves more with
  | zero => cases hrests
  | succ n ih =>
    rw [Chain.rests?] at hrests
    cases hstep : c.step linker with
    | halted halt' =>
      rw [hstep] at hrests
      cases hrests
      exact .halt h hstep
    | running next =>
      rw [hstep] at hrests
      obtain ⟨⟨halt', rest⟩, hnext, heq⟩ := Option.map_eq_some_iff.1 hrests
      cases heq
      rw [← List.append_assoc]
      exact ih (.step h hstep) hnext

deriving instance DecidableEq for Move

/-- Where the function waits: it has passed over its own message. -/
def pickerWaits : Halt × List Move :=
  ((Chain.start ⟨"m", 0⟩ 4 [] {}).rests? Native.erlangMoves pickerLinker 20).getD default

/-- The function goes on after `2` has arrived. -/
def pickerGoesOn : Chain :=
  match pickerWaits.1.outcome with
  | .suspended k => k.chain .messageArrived (pickerWaits.1.toHost.deliver [.integer 2])
  | _ => default

/-- The message `1` arrived first and is passed over, `2` arrives while the function waits and is
taken out, and then the cursor shows `1` again. -/
theorem mailbox_keeps_order_picker :
    pickerLinker.Built (fun id f => (f.ofArity id.arity).Mails (Native.erlangMoves id))
      (fun _ => True) ∧
    ∃ host, Handles Native.erlangMoves pickerLinker (.resting host)
        [.send (.pid 1) (.integer 1), .skip, .deliver (.integer 2), .remove] ∧
      host.world.mailbox.messages = [.integer 1] ∧
      host.world.mailbox.cursor ≤ host.world.mailbox.messages.length ∧
      host.world.mailbox.peek? = some (.integer 1) := by
  have hbuilt : pickerLinker.Built
      (fun id f => (f.ofArity id.arity).Mails (Native.erlangMoves id)) (fun _ => True) :=
    .link 0 (.load picker trivial
      ((Linker.built_withErlang _).mono (fun _ _ => Native.IsErlang.mails) fun _ => id))
  have hfirst : (Chain.start ⟨"m", 0⟩ 4 [] {}).rests? Native.erlangMoves pickerLinker 20 =
      some (pickerWaits.1, [.send (.pid 1) (.integer 1), .skip]) := by decide +kernel
  obtain ⟨halt, hsecond, hmessages⟩ : ∃ halt : Halt,
      pickerGoesOn.rests? Native.erlangMoves pickerLinker 20 = some (halt, [.remove]) ∧
        halt.world.mailbox.messages = [.integer 1] :=
    ⟨((pickerGoesOn.rests? Native.erlangMoves pickerLinker 20).getD default).1,
      by decide +kernel, by decide +kernel⟩
  have hwaits := (Handles.run (.begin rfl) rfl).rests hfirst
  have harrives : ∀ host : Host, host.world.Mails [.deliver (.integer 2)]
      (host.deliver [.integer 2]).world := fun _ => rfl
  have hends := (Handles.run (.outside hwaits (harrives _)) (by decide +kernel)).rests hsecond
  obtain ⟨-, hcursor, -, holdest⟩ := mailbox_keeps_order hbuilt hends
  have hpeek := holdest [.send (.pid 1) (.integer 1), .skip, .deliver (.integer 2)] .remove [] rfl
    (.inl rfl) List.not_mem_nil
  exact ⟨hbuilt, halt.toHost, hends, hmessages, hcursor,
    hpeek.trans (congrArg List.head? hmessages)⟩

end Machine

end ErlangMachine
