import ErlangMachine.Term.Basic

/-!
# The buffers of a term

Bit strings in different terms may share a buffer. `Term.uses` tells whether a term refers to a
buffer, and `Term.inOwnBuffers` gives a term that comes from outside buffers that no other term has.
-/

namespace ErlangMachine.Term

mutual

/-- Whether some bit string in a term lies in a buffer. -/
def uses (n : Nat) : Term → Bool
  | bits b => b.buffer == some n
  | cursor c => c.subject.buffer == some n
  | cons head tail => head.uses n || tail.uses n
  | tuple elements => anyUses n elements
  | closure _ _ _ environment => anyUses n environment
  | _ => false

/-- Whether some bit string in some terms lies in a buffer. -/
def anyUses (n : Nat) : List Term → Bool
  | [] => false
  | t :: ts => t.uses n || anyUses n ts

end

mutual

/-- The term with each of its bit strings in a buffer of its own, numbered from `n` on, and the
first number that is left. -/
def inOwnBuffers (t : Term) (n : Nat) : Term × Nat :=
  match t with
  | bits b => (bits (b.inBuffer n), n + 1)
  | cursor c => (cursor { c with subject := c.subject.inBuffer n }, n + 1)
  | cons head tail =>
    let (head, n) := head.inOwnBuffers n
    let (tail, n) := tail.inOwnBuffers n
    (cons head tail, n)
  | tuple elements =>
    let (elements, n) := allInOwnBuffers elements n
    (tuple elements, n)
  | closure code entry arity environment =>
    let (environment, n) := allInOwnBuffers environment n
    (closure code entry arity environment, n)
  | t => (t, n)

/-- The terms with each of their bit strings in a buffer of its own. -/
def allInOwnBuffers (ts : List Term) (n : Nat) : List Term × Nat :=
  match ts with
  | [] => ([], n)
  | t :: ts =>
    let (t, n) := t.inOwnBuffers n
    let (ts, n) := allInOwnBuffers ts n
    (t :: ts, n)

end

end ErlangMachine.Term
