import ErlangMachine.Fault

/-!
# The world around the running code

A process has an identity, a mailbox with a receive cursor, and a record of what it sent to others.
The world also decides when running code has to make room for other work, and it numbers the buffers
of bit strings.
-/

namespace ErlangMachine

/-- The messages that have arrived, oldest first, and the place of the one to look at next. -/
structure Mailbox where
  /-- The messages that have arrived and were not removed, oldest first. -/
  messages : List Term := []
  /-- The number of messages already looked at. -/
  cursor : Nat := 0
  deriving Inhabited

namespace Mailbox

/-- Adds a message at the end. -/
def deliver (m : Mailbox) (message : Term) : Mailbox :=
  { m with messages := m.messages ++ [message] }

/-- The message at the cursor. -/
def peek? (m : Mailbox) : Option Term := m.messages[m.cursor]?

/-- Moves the cursor past the message that it stands at, if there is one. -/
def skip (m : Mailbox) : Mailbox :=
  if m.cursor < m.messages.length then { m with cursor := m.cursor + 1 } else m

/-- Moves the cursor back to the oldest message. -/
def rewind (m : Mailbox) : Mailbox := { m with cursor := 0 }

/-- Takes the message at the cursor out and moves the cursor back. -/
def remove (m : Mailbox) : Mailbox := ⟨m.messages.eraseIdx m.cursor, 0⟩

end Mailbox

/-- What surrounds a process. -/
structure World where
  /-- The identity of the process. -/
  self : Nat := 1
  /-- The messages for the process. -/
  mailbox : Mailbox := {}
  /-- The messages to others with their destinations, oldest first. -/
  sent : List (Term × Term) := []
  /-- The number of checks from one preemption to the next; none if code is never preempted. -/
  interval : Option Nat := none
  /-- The number of checks since the last preemption. -/
  checks : Nat := 0
  /-- The number of the next new buffer. -/
  nextBuffer : Nat := 0
  /-- The terms that something outside of the process and its mailbox holds on to. -/
  kept : List Term := []
  deriving Inhabited

namespace World

/-- The terms that are not with the process. -/
def terms (w : World) : List Term :=
  w.mailbox.messages ++ w.sent.flatMap (fun (receiver, message) => [receiver, message]) ++ w.kept

/-- Changes the mailbox. -/
def mapMailbox (w : World) (f : Mailbox → Mailbox) : World := { w with mailbox := f w.mailbox }

/-- Sends a message: to the process itself it goes into the mailbox, to another process or to a name
it goes out, and nothing else has an address. -/
def send (w : World) (receiver message : Term) : Except Fault World :=
  match receiver with
  | .pid id =>
    if id = w.self then .ok (w.mapMailbox (·.deliver message))
    else .ok { w with sent := w.sent ++ [(receiver, message)] }
  | .atom _ => .ok { w with sent := w.sent ++ [(receiver, message)] }
  | _ => .error .badarg

/-- A world in which every `interval`-th check preempts. -/
def preempting (w : World) (interval : Nat) : World := { w with interval := some (max interval 1) }

/-- Whether the running code has to stop now. -/
def checkYield (w : World) : Bool × World :=
  match w.interval with
  | none => (false, w)
  | some interval =>
    if interval ≤ w.checks + 1 then (true, { w with checks := 0 })
    else (false, { w with checks := w.checks + 1 })

end World

end ErlangMachine
