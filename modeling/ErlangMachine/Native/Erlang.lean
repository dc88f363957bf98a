import ErlangMachine.Native.Data
import ErlangMachine.Native.Number

/-!
# The natives of the module `erlang`
-/

namespace ErlangMachine.Native

/-- The natives of two arguments. -/
def binaries : List (String × (Term → Term → Except Fault Term)) :=
  [("+", add), ("-", subtract), ("*", multiply), ("/", divide),
    ("div", onIntegers Integer.div?), ("rem", onIntegers Integer.rem?),
    ("band", onIntegers fun x y => some (x &&& y)), ("bor", onIntegers fun x y => some (x ||| y)),
    ("bxor", onIntegers fun x y => some (x ^^^ y)),
    ("bsl", onIntegers Integer.shift?), ("bsr", onIntegers Integer.shiftRight?),
    ("==", ordered (· == .eq)), ("/=", ordered (· != .eq)),
    ("=:=", fun a b => .ok (.bool (a.exactEq b))),
    ("=/=", fun a b => .ok (.bool !(a.exactEq b))),
    ("<", ordered (· == .lt)), ("=<", ordered (· != .gt)),
    (">", ordered (· == .gt)), (">=", ordered (· != .lt)),
    ("and", logic (· && ·)), ("or", logic (· || ·)), ("xor", logic (· != ·)),
    ("element", element), ("max", maximum), ("min", minimum)]

/-- The natives of one argument. -/
def unaries : List (String × (Term → Except Fault Term)) :=
  [("-", negate), ("+", plus), ("not", negation), ("bnot", complement), ("abs", absolute),
    ("float", toFloat), ("trunc", toInteger Binary64.truncate),
    ("round", toInteger Binary64.nearest),
    ("byte_size", fun a => return ofSize (((← argument a.bits?).size + 7) / 8)),
    ("bit_size", fun a => return ofSize (← argument a.bits?).size),
    ("length", fun a => return ofSize (← argument a.list?).length),
    ("hd", head), ("tl", tail),
    ("tuple_size", fun a => return ofSize (← argument a.tuple?).length),
    ("tuple_to_list", fun a => return .list (← argument a.tuple?)),
    ("list_to_tuple", fun a => return .tuple (← argument a.list?)),
    ("throw", fun a => .error (.throw a)), ("error", fun a => .error (.error a)),
    ("exit", fun a => .error (.exit a))]

/-- The natives of `erlang` by name and arity. -/
def erlang : List (LocalName × Native) :=
  binaries.map (fun (name, f) => (⟨name, 2⟩, binary f)) ++
  unaries.map (fun (name, f) => (⟨name, 1⟩, unary f)) ++
  [(⟨"self", 0⟩, self), (⟨"setelement", 3⟩, ternary setElement), (⟨"raise", 3⟩, ternary raise),
    (⟨"!", 2⟩, send), (⟨"send", 2⟩, send)]

end ErlangMachine.Native
