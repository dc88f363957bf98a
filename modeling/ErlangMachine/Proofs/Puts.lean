import ErlangMachine.Proofs.BuiltSegments

/-!
# Putting values into a builder

A builder may be asked to add values of six kinds, and it either adds all bits of a value or refuses
it. `Put.perform?_eq` says so for one request: whether it is refused and which bits it adds depend
on the request alone, neither on what was built before nor on where in a byte it ended.
`performAll?_eq` says the same of requests one after the other.
-/

namespace ErlangMachine

/-- The bits of a float, which are 32 or 64. -/
def Encoding.ofFloat? (e : Encoding) (x : Binary64) (n : Nat) : Option (List Bool) :=
  if n = 32 then some (e.ofInt 32 x.toSingleBits)
  else if n = 64 then some (e.ofInt 64 x.bits.toNat)
  else none

namespace BitString

/-- A float is put as its bits. -/
theorem Builder.putFloat?_eq (b : Builder) (x : Binary64) (n : Nat) (e : Encoding) :
    b.putFloat? x n e = (e.ofFloat? x n).map b.put := by
  unfold putFloat? Encoding.ofFloat?
  simp only [putInteger_eq]
  split
  · rfl
  · rfl
  · rename_i h32 h64
    rw [if_neg h32, if_neg h64, Option.map_none]

/-- A request to add a value. -/
inductive Put where
  /-- The low `n` bits of an integer. -/
  | integer (v : Int64) (n : Nat) (flags : UInt16)
  /-- A float of `n` bits. -/
  | float (x : Binary64) (n : Nat) (flags : UInt16)
  /-- The first `n` bits of a bit string, or all of it. -/
  | bits (b : BitString) (n : Option Nat)
  /-- A code point in UTF-8. -/
  | utf8 (v : Int64)
  /-- A code point in UTF-16. -/
  | utf16 (v : Int64) (flags : UInt16)
  /-- A code point in UTF-32. -/
  | utf32 (v : Int64) (flags : UInt16)

namespace Put

/-- Performs a request, unless the builder refuses it. -/
def perform? : Put → Builder → Option Builder
  | integer v n flags, b => some (b.putInteger v.toInt n (.ofFlags flags))
  | float x n flags, b => b.putFloat? x n (.ofFlags flags)
  | bits value n, b => b.putBitString? value n
  | utf8 v, b => b.putUtf8? v.toInt
  | utf16 v flags, b => b.putUtf16? v.toInt (.ofFlags flags)
  | utf32 v flags, b => b.putUtf32? v.toInt (.ofFlags flags)

/-- The bits that a request adds, unless it is refused. A bit string cannot give more bits than it
has, and a code point must be a Unicode scalar value. -/
def toBits? : Put → Option (List Bool)
  | integer v n flags => some ((Encoding.ofFlags flags).ofInt n v.toInt)
  | float x n flags => (Encoding.ofFlags flags).ofFloat? x n
  | bits value n =>
    if ∀ k ∈ n, k ≤ value.size then some (value.toList.take (n.getD value.size)) else none
  | utf8 v => (Unicode.scalar? v.toInt).map fun c => (Unicode.encode8 c).flatMap bitsOfByte
  | utf16 v flags => (Unicode.scalar? v.toInt).map fun c =>
      (Unicode.encode16 c).flatMap fun (unit : Nat) => (Encoding.ofFlags flags).ofInt 16 unit
  | utf32 v flags => (Unicode.scalar? v.toInt).map fun c =>
      (Encoding.ofFlags flags).ofInt 32 c.toNat

/-- A request adds its bits at the end or is refused. -/
theorem perform?_eq (p : Put) (b : Builder) : p.perform? b = p.toBits?.map b.put := by
  cases p with
  | integer v n flags => rw [perform?, Builder.putInteger_eq, toBits?, Option.map_some]
  | float x n flags => exact b.putFloat?_eq x n _
  | bits value n =>
    rw [perform?, Builder.putBitString?_eq, toBits?]
    split
    · rfl
    · rfl
  | utf8 v =>
    rw [perform?, Builder.putUtf8?_eq, toBits?, Option.map_map]
    rfl
  | utf16 v flags =>
    unfold perform? Builder.putUtf16? toBits?
    rw [Option.map_map]
    refine congrFun (congrArg Option.map (funext fun c => ?_)) _
    exact b.foldl_putInteger (fun unit : Nat => (unit : Int)) 16 _ (Unicode.encode16 c)
  | utf32 v flags =>
    unfold perform? Builder.putUtf32? toBits?
    simp only [Builder.putInteger_eq, Option.map_map]
    rfl

end Put

/-- Performs requests one after the other, unless one is refused. -/
def performAll? (puts : List Put) (b : Builder) : Option Builder :=
  puts.foldlM (fun b p => p.perform? b) b

/-- The bits that requests add, unless one is refused. -/
def bitsOfPuts? (puts : List Put) : Option (List Bool) := (puts.mapM Put.toBits?).map List.flatten

/-- The bits that a request and others after it add. -/
theorem bitsOfPuts?_cons (p : Put) (puts : List Put) : bitsOfPuts? (p :: puts) =
    p.toBits?.bind fun bits => (bitsOfPuts? puts).map (bits ++ ·) := by
  unfold bitsOfPuts?
  rw [List.mapM_cons]
  cases p.toBits? with
  | none => rfl
  | some bits => cases puts.mapM Put.toBits? <;> rfl

/-- Requests add their bits at the end, in order, or one is refused. -/
theorem performAll?_eq (puts : List Put) (b : Builder) :
    performAll? puts b = (bitsOfPuts? puts).map b.put := by
  induction puts generalizing b with
  | nil => rfl
  | cons p puts ih =>
    have hfirst : performAll? (p :: puts) b = (p.perform? b).bind (performAll? puts) := rfl
    rw [hfirst, p.perform?_eq, bitsOfPuts?_cons]
    cases p.toBits? with
    | none => rfl
    | some bits =>
      rw [Option.map_some, Option.bind_some, Option.bind_some, ih, Option.map_map]
      exact congrFun (congrArg Option.map (funext fun rest => b.put_put bits rest)) _

/-- Requests that are not refused have bits, and these are added. -/
theorem bitsOfPuts?_of_performAll? {puts : List Put} {b built : Builder}
    (h : performAll? puts b = some built) :
    ∃ bits, bitsOfPuts? puts = some bits ∧ built = b.put bits := by
  rw [performAll?_eq] at h
  obtain ⟨bits, hbits, hput⟩ := Option.map_eq_some_iff.1 h
  exact ⟨bits, hbits, hput.symm⟩

end BitString

end ErlangMachine
