import ErlangMachine.Proofs.Puts
import ErlangMachine.Proofs.Rounding

/-!
# Matching floats that were put

A float is put as the pattern of a double or of the nearest single, and it is matched by reading
that pattern as an integer without a sign. Integers have 64 bits with a sign, so the pattern of a
negative double is read as none at all. A single gets its pattern back with either sign, but a
double may be too large for one. Then infinity is put, which no match accepts.

`Cursor.float?_putFloat?` says that nothing else can go wrong, wherever the float stands and
whatever order its bytes have.
-/

namespace ErlangMachine

/-- A finite double that can be put into a segment of `n` bits and matched again: a double must not
be negative and a single not be too large. -/
def Binary64.Readable (x : Binary64) (n : Nat) : Prop :=
  (n = 64 → x.isNegative = false) ∧ (n = 32 → x.magnitude < singleLimit)

/-- A double is not negative if its pattern is a positive integer. -/
theorem Binary64.isNegative_eq_false_iff (x : Binary64) :
    x.isNegative = false ↔ x.bits.toNat < 2 ^ 63 := by
  unfold isNegative
  rw [decide_eq_false_iff_not, Nat.not_le]
  rfl

namespace BitString

namespace Builder

/-- What has been added to a builder since it was in an earlier state. -/
def since (old new : Builder) : List Bool := new.bitString.toList.drop old.writer.size

/-- Bits that are put are added, if the builder was opened for a size. -/
theorem since_put {puts : List Put} {size : Nat} {b : Builder}
    (h : performAll? puts (.ofSize size) = some b) (bits : List Bool) :
    b.since (b.put bits) = bits := by
  obtain ⟨old, -, hb⟩ := bitsOfPuts?_of_performAll? h
  have hsound : b.writer.Sound := by
    rw [hb]
    exact Writer.sound_empty.pushBits old
  have hlength : b.bitString.toList.length = b.writer.size := by
    rw [bitString, Writer.toList_toBitString hsound.size_eq, List.length_map, List.length_range]
  have hadded : (b.put bits).bitString.toList = b.bitString.toList ++ bits :=
    Writer.toList_pushBits hsound bits
  rw [since, hadded, ← hlength, List.drop_left]

end Builder

namespace Cursor

/-- A single is read from its pattern if it is finite. -/
theorem float?_single {c : Cursor} {e : Encoding} {m : Nat} {rest : List Bool} (hm : m < 2 ^ 32)
    (h : c.ahead = e.ofInt 32 m ++ rest) : c.float? 32 e =
      if (Binary64.ofSingleBits m).isFinite then some (.ofSingleBits m, c.advance 32)
      else none := by
  obtain ⟨v, hv⟩ := Integer.exists_toInt_eq (hm.trans (by decide))
  unfold float? takeFloat takeInteger
  rw [if_pos (.inl rfl), integer?_unsigned hm h, Integer.ofInt?_of_toInt hv, Option.map_some]
  dsimp only [orStay]
  rw [if_pos rfl, hv, Int.toNat_natCast, apply_ite settle]
  rfl

/-- A finite double is read from its pattern unless it is negative. -/
theorem float?_double {c : Cursor} {e : Encoding} {x : Binary64} {rest : List Bool}
    (hx : x.isFinite = true) (h : c.ahead = e.ofInt 64 x.bits.toNat ++ rest) :
    c.float? 64 e = if x.isNegative then none else some (x, c.advance 64) := by
  unfold float? takeFloat takeInteger
  rw [if_pos (.inr rfl), integer?_unsigned x.bits.toNat_lt h]
  cases hsign : x.isNegative with
  | true =>
    -- The pattern of a negative double is too large for an integer with a sign.
    have hlarge : ¬ x.bits.toNat < 2 ^ 63 := by
      rw [← x.isNegative_eq_false_iff, hsign]
      decide
    rw [Integer.ofInt?_eq_none (by omega)]
    rfl
  | false =>
    obtain ⟨v, hv⟩ := Integer.exists_toInt_eq (x.isNegative_eq_false_iff.1 hsign)
    have hpattern : (⟨UInt64.ofNat v.toInt.toNat⟩ : Binary64) = x := by
      rw [hv, Int.toNat_natCast, UInt64.ofNat_toNat]
    rw [Integer.ofInt?_of_toInt hv, Option.map_some]
    dsimp only [orStay]
    rw [if_neg (show ¬ (64 : Nat) = 32 by decide), hpattern, if_pos hx]
    rfl

/-- A finite float that was put is matched again, finite and, as a double, the same, if and only if
it is readable; and otherwise it is not matched at all. The float may have been put after any other
values into a builder that was opened for a size, and the cursor may stand anywhere in any bit
string, as long as what was put stands ahead of it. -/
theorem float?_putFloat? (x : Binary64) (n size : Nat) (flags : UInt16) (before : List Put)
    (b b' : Builder) (c : Cursor) (rest : List Bool) (hx : x.isFinite = true)
    (hbefore : performAll? before (.ofSize size) = some b)
    (hput : b.putFloat? x n (.ofFlags flags) = some b') (hc : c.ahead = b.since b' ++ rest) :
    ((∃ y, c.float? n (.ofFlags flags) = some (y, c.advance n) ∧ y.isFinite = true ∧
        (n = 64 → y = x) ∧ (n = 32 → y = .ofSingleBits x.toSingleBits)) ↔ x.Readable n) ∧
      (c.float? n (.ofFlags flags) = none ↔ ¬ x.Readable n) := by
  rw [b.putFloat?_eq] at hput
  obtain ⟨bits, hbits, rfl⟩ := Option.map_eq_some_iff.1 hput
  rw [Builder.since_put hbefore] at hc
  unfold Encoding.ofFloat? at hbits
  split at hbits
  case isTrue h32 =>
    obtain rfl := h32
    cases hbits
    have hreadable : x.Readable 32 ↔ (Binary64.ofSingleBits x.toSingleBits).isFinite = true := by
      rw [Binary64.isFinite_ofSingleBits_toSingleBits hx]
      exact ⟨fun h => h.2 rfl, fun h => ⟨nofun, fun _ => h⟩⟩
    rw [float?_single (Binary64.toSingleBits_lt hx) hc, hreadable]
    by_cases hfinite : (Binary64.ofSingleBits x.toSingleBits).isFinite = true
    · simp [hfinite]
    · simp [hfinite]
  case isFalse =>
    split at hbits
    case isTrue h64 =>
      obtain rfl := h64
      cases hbits
      have hreadable : x.Readable 64 ↔ x.isNegative = false :=
        ⟨fun h => h.1 rfl, fun h => ⟨fun _ => h, nofun⟩⟩
      rw [float?_double hx hc, hreadable]
      cases hsign : x.isNegative with
      | true => simp
      | false => simp [hx]
    case isFalse => cases hbits

/-- One and a half, put as a double with its bytes reversed after three other bits. -/
theorem float?_putFloat?_unaligned :
    ∃ b b' : Builder, performAll? [.integer 5 3 0] (.ofSize 67) = some b ∧
      b.putFloat? ⟨0x3FF8000000000000⟩ 64 (.ofFlags 2) = some b' ∧
      ∃ y, ((ofBitString b'.bitString 0).advance 3).float? 64 (.ofFlags 2) =
          some (y, ((ofBitString b'.bitString 0).advance 3).advance 64) ∧
        y.isFinite = true ∧ y = ⟨0x3FF8000000000000⟩ := by
  refine ⟨_, _, rfl, rfl, ?_⟩
  have hread := float?_putFloat? ⟨0x3FF8000000000000⟩ 64 67 2 [.integer 5 3 0] _ _
    ((ofBitString _ 0).advance 3) [] (by decide) rfl rfl (by rw [List.append_nil]; rfl)
  obtain ⟨y, hy, hfinite, hsame, -⟩ := hread.1.2 ⟨fun _ => by decide, nofun⟩
  exact ⟨y, hy, hfinite, hsame rfl⟩

/-- Minus one and a half is put as a double and `10 ^ 300` as a single. Neither is matched again. -/
theorem float?_putFloat?_refused :
    ((Builder.ofSize 64).putFloat? ⟨0xBFF8000000000000⟩ 64 (.ofFlags 0)).map
        (fun b => ((ofBitString b.bitString 0).float? 64 (.ofFlags 0)).isSome) = some false ∧
      ((Builder.ofSize 32).putFloat? ⟨0x7E37E43C8800759C⟩ 32 (.ofFlags 0)).map
        (fun b => ((ofBitString b.bitString 0).float? 32 (.ofFlags 0)).isSome) = some false := by
  decide +kernel

end Cursor

end BitString

end ErlangMachine
