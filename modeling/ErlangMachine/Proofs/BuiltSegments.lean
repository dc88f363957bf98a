import ErlangMachine.BitString.Builder
import ErlangMachine.Proofs.CodePoints
import ErlangMachine.Proofs.TermOrder

/-!
# Matching what was built

Segments that were put into a builder one after the other are found again by a cursor that reads
segments of the same formats in the same order. Integers may have any width and any flags as long as
the width holds them, bit strings may be taken whole or in part, and code points may be written in
any of the three encodings. Segments begin wherever the last one ended, inside a byte or not.

Both sides are compared through lists of bits. `Segment.toBits` says which bits a segment stands
for. Putting a segment adds these bits (`Segment.put?_eq`), and a cursor that has them ahead reads
the segment's value and moves on by as many (`Segment.read?_eq`). Everything else is induction on
the list of segments.
-/

namespace ErlangMachine

namespace BitString

/-! ## Segments -/

/-- A segment of a bit string to be built. -/
inductive Segment where
  /-- An integer of `n` bits. -/
  | integer (v : Int64) (n : Nat) (flags : UInt16)
  /-- The first `n` bits of a bit string or all of it, to be matched in units of some size. -/
  | bits (b : BitString) (n : Option Nat) (unit : Nat)
  /-- A code point in UTF-8. -/
  | utf8 (c : Char)
  /-- A code point in UTF-16. -/
  | utf16 (c : Char) (flags : UInt16)
  /-- A code point in UTF-32. -/
  | utf32 (c : Char) (flags : UInt16)

/-- What is known of a segment when it is matched. -/
inductive Format where
  /-- An integer of `n` bits. -/
  | integer (n : Nat) (flags : UInt16)
  /-- A bit string of `n` bits. -/
  | bits (n unit : Nat)
  /-- A code point in UTF-8. -/
  | utf8
  /-- A code point in UTF-16. -/
  | utf16 (flags : UInt16)
  /-- A code point in UTF-32. -/
  | utf32 (flags : UInt16)

/-- The value of a segment. -/
inductive Value where
  /-- An integer. -/
  | integer (v : Int64)
  /-- A bit string. -/
  | bits (b : BitString)
  /-- A code point. -/
  | char (c : Char)

/-- Whether values are the same. Bit strings are when they are equal as terms. -/
def Value.Same : Value → Value → Prop
  | integer v, integer w => v = w
  | bits a, bits b => (Term.bits a).exactEq (.bits b) = true
  | char c, char d => c = d
  | _, _ => False

/-- Reads a segment. -/
def Format.read? (c : Cursor) : Format → Option (Value × Cursor)
  | integer n flags => (c.integer? n (.ofFlags flags)).map fun (v, c) => (.integer v, c)
  | bits n unit => (c.bitString? (some n) unit).map fun (b, c) => (.bits b, c)
  | utf8 => c.utf8?.map fun (ch, c) => (.char ch, c)
  | utf16 flags => (c.utf16? (.ofFlags flags)).map fun (ch, c) => (.char ch, c)
  | utf32 flags => (c.utf32? (.ofFlags flags)).map fun (ch, c) => (.char ch, c)

/-- Reads segments one after the other. -/
def readAll? : List Format → Cursor → Option (List Value × Cursor)
  | [], c => some ([], c)
  | f :: fs, c => do
    let (v, c) ← f.read? c
    let (vs, c) ← readAll? fs c
    return (v :: vs, c)

namespace Segment

/-- The segment's value can be put into it. -/
def Fits : Segment → Prop
  | integer v n flags => (Encoding.ofFlags flags).Holds n v.toInt
  | bits b n _ => ∀ k ∈ n, k ≤ b.size
  | utf8 _ | utf16 _ _ | utf32 _ _ => True

instance : (s : Segment) → Decidable s.Fits
  | integer .. => inferInstanceAs (Decidable (Encoding.Holds _ _ _))
  | bits b n _ => inferInstanceAs (Decidable (∀ k ∈ n, k ≤ b.size))
  | utf8 _ | utf16 _ _ | utf32 _ _ => inferInstanceAs (Decidable True)

/-- A builder takes the segment. Of an integer it takes the low bits, however large it is. -/
def Accepted : Segment → Prop
  | bits b n _ => ∀ k ∈ n, k ≤ b.size
  | integer .. | utf8 _ | utf16 _ _ | utf32 _ _ => True

/-- A segment whose value can be put into it is accepted. -/
theorem Fits.accepted {s : Segment} (h : s.Fits) : s.Accepted := by
  cases s with
  | bits b n unit => exact h
  | _ => trivial

/-- The number of bits of a segment. -/
def size : Segment → Nat
  | integer _ n _ => n
  | bits b n _ => n.getD b.size
  | utf8 c => 8 * (Unicode.encode8 c).length
  | utf16 c _ => 16 * (Unicode.encode16 c).length
  | utf32 _ _ => 32

/-- What is known of the segment when it is matched. -/
def format : Segment → Format
  | integer _ n flags => .integer n flags
  | bits b n unit => .bits (n.getD b.size) unit
  | utf8 _ => .utf8
  | utf16 _ flags => .utf16 flags
  | utf32 _ flags => .utf32 flags

/-- The value of the segment. -/
def value : Segment → Value
  | integer v _ _ => .integer v
  | bits b none _ => .bits b
  | bits b (some n) _ => .bits (b.slice 0 n)
  | utf8 c | utf16 c _ | utf32 c _ => .char c

/-- Puts the segment into a builder, which may refuse it. -/
def put? : Segment → Builder → Option Builder
  | integer v n flags, b => some (b.putInteger v.toInt n (.ofFlags flags))
  | bits value n _, b => b.putBitString? value n
  | utf8 c, b => b.putUtf8? c.toNat
  | utf16 c flags, b => b.putUtf16? c.toNat (.ofFlags flags)
  | utf32 c flags, b => b.putUtf32? c.toNat (.ofFlags flags)

/-- The bits that the segment stands for. -/
def toBits : Segment → List Bool
  | integer v n flags => (Encoding.ofFlags flags).ofInt n v.toInt
  | bits b n _ => b.toList.take (n.getD b.size)
  | utf8 c => (Unicode.encode8 c).flatMap bitsOfByte
  | utf16 c flags =>
    (Unicode.encode16 c).flatMap fun (unit : Nat) => (Encoding.ofFlags flags).ofInt 16 unit
  | utf32 c flags => (Encoding.ofFlags flags).ofInt 32 c.toNat

end Segment

/-- Puts segments one after the other. -/
def putAll? (segments : List Segment) (b : Builder) : Option Builder :=
  segments.foldlM (fun b s => s.put? b) b

/-! ## Building -/

namespace Builder

/-- Bits may be put at once or in two goes. -/
theorem put_put (b : Builder) (xs ys : List Bool) : (b.put xs).put ys = b.put (xs ++ ys) := by
  simp [put, Writer.pushBits]

/-- The bits of a word are those of the integer that it holds. -/
theorem bitsOfWord_ofInt (v : Int) {n : Nat} (hn : n ≤ 64) (signed : Bool) :
    bitsOfWord (UInt64.ofInt v) n = Encoding.ofInt ⟨false, signed⟩ n v := by
  refine List.map_congr_left fun j hj => ?_
  have hword : ((UInt64.ofInt v).toNat : Int) = v % 2 ^ 64 := by
    rw [UInt64.ofInt, UInt64.toNat_ofNat']
    omega
  rw [Encoding.testBit_eq_shiftRight, hword,
    Encoding.emod_two_pow_shiftRight v (show n - 1 - j < 64 by omega)]
  rfl

/-- The bits of an integer are put, at once or one by one. -/
theorem putInteger_eq (b : Builder) (v : Int) (n : Nat) (e : Encoding) :
    b.putInteger v n e = b.put (e.ofInt n v) := by
  unfold putInteger put
  split
  · rename_i hword
    obtain ⟨little, signed⟩ := e
    obtain ⟨rfl, hn⟩ := hword
    rw [Writer.pushWord_eq _ _ hn, bitsOfWord_ofInt v hn]
  · rfl

/-- A bit string is put with all its bits, or with the first ones if it has so many. -/
theorem putBitString?_eq (b : Builder) (value : BitString) (n : Option Nat) :
    b.putBitString? value n =
      if ∀ k ∈ n, k ≤ value.size then some (b.put (value.toList.take (n.getD value.size)))
      else none := by
  cases n with
  | none =>
    have hall : value.toList.take value.size = value.toList := by simp
    simp [putBitString?, put, Writer.pushBitString_eq, hall]
  | some k => simp [putBitString?, put, Writer.pushBitString_eq, toList_slice]

/-- A character in UTF-8 is put with the bits of its bytes. -/
theorem putUtf8?_eq (b : Builder) (v : Int) :
    b.putUtf8? v =
      (Unicode.scalar? v).map fun c => b.put ((Unicode.encode8 c).flatMap bitsOfByte) := by
  simp only [putUtf8?, put, Writer.pushBytes_eq]

/-- Integers of one width are put as all their bits. -/
theorem foldl_putInteger {α : Type} (f : α → Int) (n : Nat) (e : Encoding) (units : List α)
    (b : Builder) : units.foldl (fun b u => b.putInteger (f u) n e) b =
      b.put (units.flatMap fun u => e.ofInt n (f u)) := by
  induction units generalizing b with
  | nil => rfl
  | cons u units ih => rw [List.foldl_cons, ih, putInteger_eq, put_put, List.flatMap_cons]

end Builder

namespace Segment

/-- A segment has as many bits as its size says. -/
theorem length_toBits {s : Segment} (h : s.Accepted) : s.toBits.length = s.size := by
  cases s with
  | integer v n flags => simp [toBits, size]
  | bits b n unit =>
    cases n with
    | none => simp [toBits, size]
    | some k =>
      have hk : k ≤ b.size := h k rfl
      simp [toBits, size, hk]
  | utf8 c => exact length_flatMap_bitsOfByte _
  | utf16 c flags => simp [toBits, size, Nat.mul_comm]
  | utf32 c flags => simp [toBits, size]

/-- A segment that is accepted is put, and its bits are added. -/
theorem put?_eq {s : Segment} (h : s.Accepted) (b : Builder) :
    s.put? b = some (b.put s.toBits) := by
  cases s with
  | integer v n flags => rw [put?, Builder.putInteger_eq, toBits]
  | bits value n unit =>
    have hfits : ∀ k ∈ n, k ≤ value.size := h
    rw [put?, Builder.putBitString?_eq, if_pos hfits, toBits]
  | utf8 c => rw [put?, Builder.putUtf8?_eq, Unicode.scalar?_toNat, Option.map_some, toBits]
  | utf16 c flags =>
    rw [put?, Builder.putUtf16?, Unicode.scalar?_toNat, Option.map_some,
      Builder.foldl_putInteger fun unit : Nat => (unit : Int)]
    rfl
  | utf32 c flags =>
    rw [put?, Builder.putUtf32?, Unicode.scalar?_toNat, Option.map_some, Builder.putInteger_eq]
    rfl

end Segment

variable {segments : List Segment}

/-- Segments that hold their values are put, and their bits are added in order. -/
theorem putAll?_eq (h : ∀ s ∈ segments, s.Fits) (b : Builder) :
    putAll? segments b = some (b.put (segments.flatMap Segment.toBits)) := by
  induction segments generalizing b with
  | nil => rfl
  | cons s segments ih =>
    have hs := Segment.put?_eq (h s List.mem_cons_self).accepted b
    have hrest := ih (fun s hs => h s (List.mem_cons_of_mem _ hs)) (b.put s.toBits)
    unfold putAll? at hrest ⊢
    rw [List.foldlM_cons, hs]
    show List.foldlM _ _ segments = _
    rw [hrest, Builder.put_put, List.flatMap_cons]

/-- The number of bits of segments. -/
theorem length_flatMap_toBits (h : ∀ s ∈ segments, s.Fits) :
    (segments.flatMap Segment.toBits).length = (segments.map Segment.size).sum := by
  rw [List.length_flatMap]
  exact congrArg List.sum (List.map_congr_left fun s hs => Segment.length_toBits (h s hs).accepted)

/-! ## Matching -/

namespace Cursor

variable {c : Cursor} {e : Encoding} {rest : List Bool} {n : Nat} {ch : Char}

theorem advance_advance (c : Cursor) (m n : Nat) : (c.advance m).advance n = c.advance (m + n) := by
  simp [advance, Nat.add_assoc]

section Ahead

variable {c : Cursor} {bits rest : List Bool} (h : c.ahead = bits ++ rest)
include h

/-- The bits ahead are there to be read. -/
theorem length_le_remaining : bits.length ≤ c.remaining := by
  rw [← length_ahead, h, List.length_append]
  omega

/-- The next bits are those that are known to be ahead. -/
theorem toList_peek_length : (c.peek bits.length).toList = bits := by
  rw [toList_peek, h, List.take_left]

/-- Behind the bits that are passed over stands the rest. -/
theorem ahead_advance_length : (c.advance bits.length).ahead = rest := by
  rw [ahead_advance, h, List.drop_left]

end Ahead

/-- An integer is read from its bits. -/
theorem integer?_eq {v : Int64} (hv : e.Holds n v.toInt) (h : c.ahead = e.ofInt n v.toInt ++ rest) :
    c.integer? n e = some (v, c.advance n) := by
  have hlength := length_le_remaining h
  have hpeek := toList_peek_length h
  rw [Encoding.length_ofInt] at hlength hpeek
  rw [integer?_eq_ofInt?, if_neg (by omega), hpeek, Encoding.toInt_ofInt hv,
    Integer.ofInt?_toInt, Option.map_some]

/-- A number that stands ahead is read without a sign, if it is an integer of the machine. -/
theorem integer?_unsigned {m : Nat} (hm : m < 2 ^ n) (h : c.ahead = e.ofInt n m ++ rest) :
    c.integer? n e.unsigned = (Integer.ofInt? m).map (·, c.advance n) := by
  have hlength := length_le_remaining h
  have hpeek := toList_peek_length h
  rw [Encoding.length_ofInt] at hlength hpeek
  have hvalue : e.unsigned.toInt (e.ofInt n m) = m := by
    have hpow : (m : Int) < 2 ^ n := by exact_mod_cast hm
    exact Encoding.toInt_ofInt (e := e.unsigned) ⟨by omega, hpow⟩
  rw [integer?_eq_ofInt?, if_neg (by omega), hpeek, hvalue]

/-- A unit of a code point is read from its bits, whatever the sign flag says. -/
theorem unit?_eq {m : Nat} (hn : n ≤ 32) (hm : m < 2 ^ n) (h : c.ahead = e.ofInt n m ++ rest) :
    ∃ v : Int64, v.toInt = m ∧ c.integer? n e.unsigned = some (v, c.advance n) := by
  have hle : 2 ^ n ≤ 2 ^ 63 := Nat.pow_le_pow_right (by omega) (by omega)
  obtain ⟨v, hv⟩ := Integer.exists_toInt_eq (hm.trans_le hle)
  exact ⟨v, hv, by rw [integer?_unsigned hm h, Integer.ofInt?_of_toInt hv, Option.map_some]⟩

/-- The bits of a byte ahead. -/
theorem bitsOfByte_byte {i : Nat} (h : 8 * (i + 1) ≤ c.remaining) :
    bitsOfByte (c.byte i) = (c.ahead.drop (8 * i)).take 8 := by
  have hinside : 8 ≤ c.subject.size - (c.offset + 8 * i) := by
    unfold remaining at h
    omega
  have hbits : (c.subject.slice (c.offset + 8 * i) 8).toList = (c.ahead.drop (8 * i)).take 8 := by
    rw [toList_slice, ahead, List.drop_drop]
  have hread := toNat_read (by omega) hinside
  rw [hbits] at hread
  have hlength : ((c.ahead.drop (8 * i)).take 8).length = 8 := by
    rw [List.length_take, List.length_drop, length_ahead]
    omega
  rw [← bitsOfByte_ofNat_toNat hlength, Encoding.toNat_eq_highFirst rfl, ← hread]
  rfl

/-- The bytes ahead have the bits ahead. -/
theorem flatMap_byte {k : Nat} (h : 8 * k ≤ c.remaining) :
    ((List.range k).map c.byte).flatMap bitsOfByte = c.ahead.take (8 * k) := by
  induction k with
  | zero => simp
  | succ k ih =>
    rw [List.range_succ, List.map_append, List.flatMap_append, ih (by omega), Nat.mul_succ,
      List.take_add]
    simp [bitsOfByte_byte h]

/-- Bytes are those ahead if their bits are. -/
theorem map_byte_eq {bytes : List UInt8} (h : c.ahead = bytes.flatMap bitsOfByte ++ rest) :
    (List.range bytes.length).map c.byte = bytes := by
  have hlength := length_le_remaining h
  rw [length_flatMap_bitsOfByte] at hlength
  refine flatMap_bitsOfByte_injective ((flatMap_byte hlength).trans ?_)
  rw [h, ← length_flatMap_bitsOfByte, List.take_left]

/-- A code point is read from its UTF-8 bytes. The first byte tells how many there are. -/
theorem utf8?_eq (h : c.ahead = (Unicode.encode8 ch).flatMap bitsOfByte ++ rest) :
    c.utf8? = some (ch, c.advance (8 * (Unicode.encode8 ch).length)) := by
  obtain ⟨lead, others, hbytes, hannounced⟩ := Unicode.length8?_encode8 ch
  have hall := length_le_remaining h
  rw [length_flatMap_bitsOfByte] at hall
  have hlength : (Unicode.encode8 ch).length = others.length + 1 := by rw [hbytes, List.length_cons]
  have hmap := map_byte_eq h
  have hlead : c.byte 0 = lead := by
    rw [hbytes, List.length_cons, List.range_succ_eq_map, List.map_cons] at hmap
    exact (List.cons.inj hmap).1
  unfold utf8?
  rw [if_neg (by omega), hlead, hannounced, Option.bind_some, ← hlength, if_neg (by omega), hmap,
    Unicode.decode8?_eq_some_iff.2 rfl, Option.map_some]

/-- A code point is read from its UTF-16 units. A second one is read if the first announces it. -/
theorem utf16?_eq
    (h : c.ahead = ((Unicode.encode16 ch).flatMap fun (unit : Nat) => e.ofInt 16 unit) ++ rest) :
    c.utf16? e = some (ch, c.advance (16 * (Unicode.encode16 ch).length)) := by
  have hdecode := Unicode.decode16?_eq_some_iff.2 (rfl : Unicode.encode16 ch = _)
  unfold utf16? takeUtf16 takeUnits16 takeInteger
  rcases Unicode.encode16_cases ch with ⟨hunits, hlt, hsingle⟩ | ⟨high, low, hunits, hhigh, hlow, -⟩
  · -- One unit, which is no surrogate.
    rw [hunits] at h hdecode ⊢
    have hunit : c.ahead = e.ofInt 16 ch.toNat ++ rest := by simpa using h
    obtain ⟨v, hv, hread⟩ := unit?_eq (by omega) (by omega) hunit
    simp [hread, orStay, hv, hsingle, hdecode, settle]
  · -- A pair. The second unit is read where the first one ends.
    have hbounds : high < 2 ^ 16 ∧ low < 2 ^ 16 := by
      simp only [Unicode.isHighSurrogate, Unicode.isLowSurrogate, Bool.and_eq_true,
        decide_eq_true_eq] at hhigh hlow
      omega
    rw [hunits] at h hdecode ⊢
    simp only [List.flatMap_cons, List.flatMap_nil, List.append_nil, List.append_assoc] at h
    obtain ⟨v, hv, hread⟩ := unit?_eq (by omega) hbounds.1 h
    have hnext := ahead_advance_length h
    rw [Encoding.length_ofInt] at hnext
    obtain ⟨w, hw, hread'⟩ := unit?_eq (by omega) hbounds.2 hnext
    simp [hread, orStay, hv, hhigh, hread', hw, hdecode, settle, advance_advance]

/-- A code point is read from its UTF-32 unit. -/
theorem utf32?_eq (h : c.ahead = e.ofInt 32 ch.toNat ++ rest) :
    c.utf32? e = some (ch, c.advance 32) := by
  have hlt := Unicode.toNat_lt ch
  obtain ⟨v, hv, hread⟩ := unit?_eq (by omega) (by omega) h
  simp [utf32?, takeUtf32, takeInteger, hread, orStay, hv, Unicode.scalar?_toNat, settle]

end Cursor

/-- A segment is read from its bits. -/
theorem Segment.read?_eq {s : Segment} (hs : s.Fits) {c : Cursor} {rest : List Bool}
    (h : c.ahead = s.toBits ++ rest) :
    ∃ v, s.format.read? c = some (v, c.advance s.size) ∧ v.Same s.value := by
  cases s with
  | integer v n flags =>
    exact ⟨.integer v, by simp [format, Format.read?, size, c.integer?_eq hs h], rfl⟩
  | bits b n unit =>
    have hlength := Cursor.length_le_remaining h
    have hpeek := Cursor.toList_peek_length h
    rw [length_toBits hs.accepted] at hlength hpeek
    -- What is read shares the bytes of what is matched, so it is equal to the value as a term only.
    refine ⟨.bits (c.peek (n.getD b.size)), ?_, ?_⟩
    · unfold size at hlength
      simp [format, Format.read?, Cursor.bitString?, Cursor.segment?, hlength, size]
    · have hall : b.toList.take b.size = b.toList := by simp
      cases n with
      | none => exact Term.exactEq_bits (by simpa [toBits, size, hall] using hpeek)
      | some k => exact Term.exactEq_bits (by simpa [toBits, size, toList_slice] using hpeek)
  | utf8 ch => exact ⟨.char ch, by simp [format, Format.read?, size, Cursor.utf8?_eq h], rfl⟩
  | utf16 ch flags =>
    exact ⟨.char ch, by simp [format, Format.read?, size, Cursor.utf16?_eq h], rfl⟩
  | utf32 ch flags =>
    exact ⟨.char ch, by simp [format, Format.read?, size, Cursor.utf32?_eq h], rfl⟩

/-- Segments are read from their bits in order. -/
theorem readAll?_eq (hs : ∀ s ∈ segments, s.Fits) {c : Cursor} {rest : List Bool}
    (h : c.ahead = segments.flatMap Segment.toBits ++ rest) :
    ∃ values, readAll? (segments.map Segment.format) c =
        some (values, c.advance (segments.map Segment.size).sum) ∧
      List.Forall₂ Value.Same values (segments.map Segment.value) := by
  induction segments generalizing c with
  | nil => exact ⟨[], rfl, .nil⟩
  | cons s segments ih =>
    have hfits := hs s List.mem_cons_self
    -- The bits of the other segments are what the first one leaves ahead.
    rw [List.flatMap_cons, List.append_assoc] at h
    obtain ⟨v, hread, hsame⟩ := s.read?_eq hfits h
    have hnext := Cursor.ahead_advance_length h
    rw [Segment.length_toBits hfits.accepted] at hnext
    obtain ⟨values, hreadAll, hsameAll⟩ :=
      ih (fun s hmem => hs s (List.mem_cons_of_mem _ hmem)) hnext
    refine ⟨v :: values, ?_, .cons hsame hsameAll⟩
    rw [Cursor.advance_advance] at hreadAll
    simp [readAll?, hread, hreadAll]

/-- Matching undoes building. Segments that hold their values are all accepted by a builder of their
total size and fill it. A cursor over the result reads each value again, in order and by the same
formats, and nothing remains. -/
theorem readAll?_putAll? (segments : List Segment) (slots : Nat) (h : ∀ s ∈ segments, s.Fits) :
    ∃ built, putAll? segments (.ofSize (segments.map Segment.size).sum) = some built ∧
      built.isComplete = true ∧
      ∃ values last,
        readAll? (segments.map Segment.format) (.ofBitString built.bitString slots) =
          some (values, last) ∧
        List.Forall₂ Value.Same values (segments.map Segment.value) ∧ last.testTail 0 = true := by
  have hlength := length_flatMap_toBits h
  refine ⟨_, putAll?_eq h _, ?_, ?_⟩
  · have hsize := Writer.size_pushBits .empty (segments.flatMap Segment.toBits)
    simp [Builder.isComplete, Builder.put, Builder.ofSize, hsize, hlength]
  · -- The cursor has all the bits that were put ahead of it, and nothing behind them.
    generalize hwritten : (Builder.put _ _).bitString = b
    have hahead : (Cursor.ofBitString b slots).ahead = segments.flatMap Segment.toBits ++ [] := by
      have hbits := Writer.toList_pushBits Writer.sound_empty (segments.flatMap Segment.toBits)
      rw [Cursor.ahead_ofBitString, ← hwritten, List.append_nil]
      exact hbits
    obtain ⟨values, hread, hsame⟩ := readAll?_eq h hahead
    have hend := Cursor.ahead_advance_length hahead
    rw [hlength] at hend
    refine ⟨values, _, hread, hsame, ?_⟩
    simp [Cursor.testTail, ← Cursor.length_ahead, hend]

/-- Eleven bits of an integer with its bytes reversed, three bits of a bit string, and code points
that need two units and four bytes, none of them at the beginning of a byte. -/
theorem readAll?_putAll?_unaligned :
    ∃ built, putAll? [.integer (-5) 11 0x06, .bits (.ofBytes #[0xA5]) (some 3) 1, .utf16 '😀' 0,
        .utf8 '😀'] (.ofSize 78) = some built ∧
      built.isComplete = true ∧
      ∃ values last, readAll? [.integer 11 0x06, .bits 3 1, .utf16 0, .utf8]
          (.ofBitString built.bitString 1) = some (values, last) ∧
        List.Forall₂ Value.Same values [.integer (-5), .bits ((ofBytes #[0xA5]).slice 0 3),
          .char '😀', .char '😀'] ∧ last.testTail 0 = true := by
  exact readAll?_putAll? [.integer (-5) 11 0x06, .bits (.ofBytes #[0xA5]) (some 3) 1,
    .utf16 '😀' 0, .utf8 '😀'] 1 (by decide)

end BitString

end ErlangMachine
