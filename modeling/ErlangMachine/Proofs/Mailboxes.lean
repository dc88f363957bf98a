import Mathlib.Data.List.Induction
import Mathlib.Data.List.InsertIdx
import Mathlib.Data.List.Perm.Basic
import ErlangMachine.World

/-!
# What becomes of the messages

A mailbox changes by moves: messages arrive, the cursor passes over one or goes back, the message at
the cursor is taken out. `Mailbox.after` is the mailbox that a sequence of moves makes of an empty
one, `arrived` lists the messages that have arrived in it and `returned` those that were taken out.

`exists_shares` splits the arrivals in two by their numbers, without loss and without overlap: those
that are still in the mailbox, in the order of their arrival, and those that were taken out. The
remaining lemmas are about the cursor.
-/

namespace ErlangMachine

/-- What can happen to the mail of a process. -/
inductive Move where
  /-- A message arrives. -/
  | deliver (message : Term)
  /-- The process sends a message. -/
  | send (receiver message : Term)
  /-- The cursor passes over a message. -/
  | skip
  /-- The message at the cursor is taken out. -/
  | remove
  /-- The cursor goes back to the oldest message. -/
  | rewind

/-- The message that a move brings to a process. -/
def Move.arrival? (pid : Nat) : Move → Option Term
  | deliver message => some message
  | send (.pid id) message => if id = pid then some message else none
  | _ => none

/-- The messages that some moves bring to a process, in their order. -/
def arrived (pid : Nat) (moves : List Move) : List Term := moves.filterMap (Move.arrival? pid)

namespace Mailbox

/-- The mailbox after a move. -/
def move (pid : Nat) (m : Mailbox) : Move → Mailbox
  | .skip => m.skip
  | .remove => m.remove
  | .rewind => m.rewind
  | a => (a.arrival? pid).elim m m.deliver

/-- The mailbox after some moves. -/
def moveAll (pid : Nat) (m : Mailbox) (moves : List Move) : Mailbox := moves.foldl (move pid) m

/-- What some moves make of an empty mailbox. -/
def after (pid : Nat) (moves : List Move) : Mailbox := moveAll pid {} moves

/-- The message that a move takes out. -/
def returned? (m : Mailbox) : Move → Option Term
  | .remove => m.peek?
  | _ => none

/-- The messages that some moves take out, in their order. -/
def returned (pid : Nat) : Mailbox → List Move → List Term
  | _, [] => []
  | m, a :: moves => (m.returned? a).toList ++ returned pid (m.move pid a) moves

variable {pid : Nat}

theorem moveAll_append (m : Mailbox) (moves more : List Move) :
    m.moveAll pid (moves ++ more) = (m.moveAll pid moves).moveAll pid more :=
  List.foldl_append

theorem after_concat (moves : List Move) (a : Move) :
    after pid (moves ++ [a]) = (after pid moves).move pid a :=
  moveAll_append {} moves [a]

/-- What one more move takes out. -/
theorem returned_concat (m : Mailbox) (moves : List Move) (a : Move) :
    m.returned pid (moves ++ [a]) =
      m.returned pid moves ++ ((m.moveAll pid moves).returned? a).toList := by
  induction moves generalizing m with
  | nil => simp [returned, moveAll]
  | cons b moves ih =>
    rw [List.cons_append, returned, ih, returned, List.append_assoc]
    rfl

/-- What one more move brings. -/
theorem arrived_concat (moves : List Move) (a : Move) :
    arrived pid (moves ++ [a]) = arrived pid moves ++ (a.arrival? pid).toList := by
  unfold arrived
  cases h : a.arrival? pid <;> simp [h]

/-! ## Moves by what they do to the messages -/

/-- A message that is sent arrives if it is for the process itself. -/
theorem move_send (m : Mailbox) (receiver message : Term) :
    m.move pid (.send receiver message) =
      ((Move.send receiver message).arrival? pid).elim m m.deliver :=
  rfl

/-- A move brings a message, or takes out the one at the cursor, or leaves the messages alone. -/
theorem move_cases (m : Mailbox) (a : Move) :
    (∃ t, a.arrival? pid = some t ∧ m.returned? a = none ∧
      (m.move pid a).messages = m.messages ++ [t]) ∨
    (a.arrival? pid = none ∧ m.returned? a = none ∧ (m.move pid a).messages = m.messages) ∨
    ∃ h : m.cursor < m.messages.length, a = .remove ∧ m.returned? a = some m.messages[m.cursor] ∧
      (m.move pid a).messages = m.messages.eraseIdx m.cursor := by
  cases a with
  | deliver t => exact .inl ⟨t, rfl, rfl, rfl⟩
  | send receiver t =>
    cases harrival : (Move.send receiver t).arrival? pid with
    | none =>
      refine .inr (.inl ⟨rfl, rfl, ?_⟩)
      rw [move_send, harrival]
      rfl
    | some t' =>
      refine .inl ⟨t', rfl, rfl, ?_⟩
      rw [move_send, harrival]
      rfl
  | skip =>
    refine .inr (.inl ⟨rfl, rfl, ?_⟩)
    show m.skip.messages = m.messages
    unfold skip
    split
    · rfl
    · rfl
  | rewind => exact .inr (.inl ⟨rfl, rfl, rfl⟩)
  | remove =>
    by_cases hcursor : m.cursor < m.messages.length
    · exact .inr (.inr ⟨hcursor, rfl, List.getElem?_eq_getElem hcursor, rfl⟩)
    · have hend : m.messages.length ≤ m.cursor := Nat.le_of_not_lt hcursor
      exact .inr (.inl ⟨rfl, List.getElem?_eq_none hend, List.eraseIdx_of_length_le hend⟩)

/-- The cursor does not leave the mailbox. -/
theorem cursor_le_after (moves : List Move) :
    (after pid moves).cursor ≤ (after pid moves).messages.length := by
  induction moves using List.reverseRecOn with
  | nil => exact Nat.le_refl 0
  | append_singleton moves a ih =>
    rw [after_concat]
    generalize after pid moves = m at ih
    have hdeliver : ∀ t, (m.deliver t).cursor ≤ (m.deliver t).messages.length := by
      intro t
      have hlength : (m.messages ++ [t]).length = m.messages.length + 1 := by simp
      show m.cursor ≤ (m.messages ++ [t]).length
      omega
    cases a with
    | deliver t => exact hdeliver t
    | send receiver t =>
      rw [move_send]
      cases (Move.send receiver t).arrival? pid with
      | none => exact ih
      | some t' => exact hdeliver t'
    | skip =>
      show m.skip.cursor ≤ m.skip.messages.length
      unfold skip
      split
      · assumption
      · exact ih
    | remove => exact Nat.zero_le _
    | rewind => exact Nat.zero_le _

/-! ## The shares of the arrivals -/

/-- The numbers of the arrivals that are still there and of those that were taken out. -/
structure Shares (pid : Nat) (moves : List Move) (kept taken : List Nat) : Prop where
  /-- The former are in the order of arrival. -/
  ascending : kept.Pairwise (· < ·)
  /-- Each arrival is in one of the two, once. -/
  partition : (kept ++ taken).Perm (List.range (arrived pid moves).length)
  /-- These are the messages in the mailbox. -/
  messages : (after pid moves).messages.map some = kept.map ((arrived pid moves)[·]?)
  /-- These are the messages that were taken out. -/
  returned : (returned pid {} moves).map some = taken.map ((arrived pid moves)[·]?)

namespace Shares

variable {moves : List Move} {kept taken : List Nat}

/-- Numbers are those of arrivals. -/
theorem lt_length (h : Shares pid moves kept taken) {k : Nat} (hk : k ∈ kept ++ taken) :
    k < (arrived pid moves).length :=
  List.mem_range.1 (h.partition.mem_iff.1 hk)

/-- A message arrives: it has the next number, and is kept. -/
theorem deliver (h : Shares pid moves kept taken) {a : Move} {t : Term}
    (harrival : a.arrival? pid = some t) (hreturned : (after pid moves).returned? a = none)
    (hmessages : ((after pid moves).move pid a).messages =
      (after pid moves).messages ++ [t]) :
    Shares pid (moves ++ [a]) (kept ++ [(arrived pid moves).length]) taken := by
  have harrived : arrived pid (moves ++ [a]) = arrived pid moves ++ [t] := by
    rw [arrived_concat, harrival]
    rfl
  -- Numbers given before stand for the same messages as before.
  have hold : ∀ numbers : List Nat, (∀ k ∈ numbers, k ∈ kept ++ taken) →
      numbers.map ((arrived pid moves ++ [t])[·]?) = numbers.map ((arrived pid moves)[·]?) := by
    intro numbers hnumbers
    refine List.map_congr_left fun k hk => ?_
    exact List.getElem?_append_left (h.lt_length (hnumbers k hk))
  refine ⟨?_, ?_, ?_, ?_⟩
  · rw [List.pairwise_append]
    refine ⟨h.ascending, List.pairwise_singleton _ _, fun k hk n hn => ?_⟩
    rw [List.mem_singleton.1 hn]
    exact h.lt_length (List.mem_append_left taken hk)
  · rw [harrived, List.length_append, List.length_singleton, List.range_succ]
    have hbefore := h.partition
    generalize (arrived pid moves).length = n at hbefore ⊢
    calc List.Perm (kept ++ [n] ++ taken) (kept ++ ([n] ++ taken)) := by rw [List.append_assoc]
      List.Perm _ (kept ++ (taken ++ [n])) := List.perm_append_comm.append_left kept
      List.Perm _ (kept ++ taken ++ [n]) := by rw [List.append_assoc]
      List.Perm _ (List.range n ++ [n]) := hbefore.append_right [n]
  · rw [after_concat, hmessages, List.map_append, h.messages, harrived, List.map_append,
      hold kept fun k hk => List.mem_append_left taken hk]
    simp
  · have hnothing : ((moveAll pid {} moves).returned? a).toList = [] := by
      rw [show (moveAll pid {} moves).returned? a = none from hreturned]
      rfl
    rw [returned_concat, hnothing, List.append_nil, h.returned, harrived,
      hold taken fun k hk => List.mem_append_right kept hk]

/-- Nothing arrives and nothing is taken out. -/
theorem rest (h : Shares pid moves kept taken) {a : Move} (harrival : a.arrival? pid = none)
    (hreturned : (after pid moves).returned? a = none)
    (hmessages : ((after pid moves).move pid a).messages = (after pid moves).messages) :
    Shares pid (moves ++ [a]) kept taken := by
  have harrived : arrived pid (moves ++ [a]) = arrived pid moves := by
    rw [arrived_concat, harrival, Option.toList_none, List.append_nil]
  have hreturns : Mailbox.returned pid {} (moves ++ [a]) = Mailbox.returned pid {} moves := by
    rw [returned_concat, show (moveAll pid {} moves).returned? a = none from hreturned,
      Option.toList_none, List.append_nil]
  refine ⟨h.ascending, ?_, ?_, ?_⟩
  · rw [harrived]
    exact h.partition
  · rw [after_concat, hmessages, harrived]
    exact h.messages
  · rw [hreturns, harrived]
    exact h.returned

/-- The message at the cursor is taken out: its number goes from the one share to the other. -/
theorem remove (h : Shares pid moves kept taken)
    (hcursor : (after pid moves).cursor < (after pid moves).messages.length) :
    ∃ k, Shares pid (moves ++ [.remove]) (kept.eraseIdx (after pid moves).cursor)
      (taken ++ [k]) := by
  have hlength : (after pid moves).messages.length = kept.length := by
    have := congrArg List.length h.messages
    simpa using this
  have hkept : (after pid moves).cursor < kept.length := hlength ▸ hcursor
  have harrived : arrived pid (moves ++ [.remove]) = arrived pid moves := by
    rw [arrived_concat]
    exact List.append_nil _
  -- The message at the cursor is the one whose number stands there among those kept.
  have htaken : some (after pid moves).messages[(after pid moves).cursor] =
      (arrived pid moves)[kept[(after pid moves).cursor]]? := by
    have hat := congrArg (fun l => l[(after pid moves).cursor]?) h.messages
    simpa [List.getElem?_eq_getElem hcursor, List.getElem?_eq_getElem hkept] using hat
  refine ⟨kept[(after pid moves).cursor], ?_, ?_, ?_, ?_⟩
  · exact h.ascending.sublist (List.eraseIdx_sublist _ _)
  · rw [harrived]
    -- Taking the number out of the one share and putting it behind the other loses none.
    refine List.Perm.trans ?_ h.partition
    rw [← List.append_assoc]
    refine List.perm_append_comm.trans ?_
    exact (List.getElem_cons_eraseIdx_perm hkept).append_right taken
  · rw [after_concat, harrived]
    show ((after pid moves).messages.eraseIdx (after pid moves).cursor).map some = _
    rw [← List.eraseIdx_map, ← List.eraseIdx_map, h.messages]
  · have hreturned : (moveAll pid {} moves).returned? .remove =
        some (after pid moves).messages[(after pid moves).cursor] :=
      List.getElem?_eq_getElem hcursor
    rw [returned_concat, hreturned, harrived, List.map_append, List.map_append, h.returned]
    exact congrArg (fun t => taken.map ((arrived pid moves)[·]?) ++ [t]) htaken

end Shares

/-- After any moves, each arrival is still in the mailbox or was taken out, and not both. -/
theorem exists_shares (pid : Nat) (moves : List Move) :
    ∃ kept taken, Shares pid moves kept taken := by
  induction moves using List.reverseRecOn with
  | nil => exact ⟨[], [], .nil, .nil, rfl, rfl⟩
  | append_singleton moves a ih =>
    obtain ⟨kept, taken, h⟩ := ih
    obtain ⟨t, harrival, hreturned, hmessages⟩ | ⟨harrival, hreturned, hmessages⟩ |
      ⟨hcursor, rfl, -, -⟩ := move_cases (after pid moves) a
    · exact ⟨_, _, h.deliver harrival hreturned hmessages⟩
    · exact ⟨_, _, h.rest harrival hreturned hmessages⟩
    · obtain ⟨k, hk⟩ := h.remove hcursor
      exact ⟨_, _, hk⟩

/-! ## The cursor -/

/-- What is taken out is what the cursor shows; if it shows nothing, nothing is taken out. -/
theorem remove_eq (m : Mailbox) :
    (∃ front t back, m.peek? = some t ∧ m.messages = front ++ t :: back ∧
      front.length = m.cursor ∧ m.remove.messages = front ++ back) ∨
    m.peek? = none ∧ m.remove.messages = m.messages := by
  by_cases hcursor : m.cursor < m.messages.length
  · left
    refine ⟨m.messages.take m.cursor, m.messages[m.cursor], m.messages.drop (m.cursor + 1),
      List.getElem?_eq_getElem hcursor, ?_, ?_, ?_⟩
    · rw [← List.drop_eq_getElem_cons hcursor, List.take_append_drop]
    · rw [List.length_take]
      omega
    · exact List.eraseIdx_eq_take_drop_succ _ _
  · right
    have hend : m.messages.length ≤ m.cursor := Nat.le_of_not_lt hcursor
    exact ⟨List.getElem?_eq_none hend, List.eraseIdx_of_length_le hend⟩

/-- Only passing over a message moves the cursor away from the oldest one. -/
theorem cursor_move {m : Mailbox} (h : m.cursor = 0) {a : Move} (ha : a ≠ .skip) :
    (m.move pid a).cursor = 0 := by
  cases a with
  | skip => exact absurd rfl ha
  | deliver t => exact h
  | remove => rfl
  | rewind => rfl
  | send receiver t =>
    rw [move_send]
    cases (Move.send receiver t).arrival? pid with
    | none => exact h
    | some t' => exact h

/-- After a message was taken out, or the cursor went back, the cursor shows the oldest message
until it passes over one. -/
theorem peek?_after {before rest : List Move} {a : Move} (ha : a = .remove ∨ a = .rewind)
    (hrest : Move.skip ∉ rest) :
    (after pid (before ++ a :: rest)).peek? =
      (after pid (before ++ a :: rest)).messages.head? := by
  have hcursor : (after pid (before ++ a :: rest)).cursor = 0 := by
    induction rest using List.reverseRecOn with
    | nil =>
      rw [after_concat]
      rcases ha with rfl | rfl
      · rfl
      · rfl
    | append_singleton rest b ih =>
      rw [List.mem_append, List.mem_singleton, not_or] at hrest
      rw [← List.cons_append, ← List.append_assoc, after_concat]
      exact cursor_move (ih hrest.1) (Ne.symm hrest.2)
  unfold peek?
  rw [hcursor, List.head?_eq_getElem?]

end Mailbox

end ErlangMachine
