import ErlangMachine.Machine.Building
import ErlangMachine.Proofs.CursorBounds

/-!
# Readers of characters accept what writers produce

A character is read in one of three encodings exactly if the bits ahead begin with those that
writing it in that encoding adds to a builder, and then the cursor moves on by just these bits. In
all other cases nothing is read and the cursor stays. This leaves out overlong forms, surrogates on
their own or in the wrong order, numbers beyond the last plane and sequences that are cut off,
wherever in a byte they begin and whatever comes after them.

That what was written is read again is known from matching what was built. The other direction goes
back from the character to the bits: units that were read stand ahead as they are written
(`Cursor.ahead_of_takeInteger`), and units that decode to a character are its encoding.
-/

namespace ErlangMachine

namespace BitString

/-- A way of putting a value into a builder that adds the given bits to whatever was built before.
The builder must have no bit set behind its last one, since bits are only ever set in a buffer. -/
def Builder.Appends (put : Builder → Option Builder) (bits : List Bool) : Prop :=
  ∀ b : Builder, b.writer.Sound →
    ∃ b', put b = some b' ∧ b'.bitString.toList = b.bitString.toList ++ bits

/-- Bits that are put are added. -/
theorem Builder.appends_iff {put : Builder → Option Builder} {added : List Bool}
    (h : ∀ b, put b = some (b.put added)) (bits : List Bool) :
    Appends put bits ↔ bits = added := by
  constructor
  · intro happends
    obtain ⟨b', hput, hbits⟩ := happends (.ofSize 0) Writer.sound_empty
    obtain rfl := Option.some.inj ((h _).symm.trans hput)
    have hadded := Writer.toList_pushBits Writer.sound_empty added
    exact (List.append_cancel_left (hadded.symm.trans hbits)).symm
  · rintro rfl b hsound
    exact ⟨_, h b, Writer.toList_pushBits hsound _⟩

namespace Cursor

variable {next c : Cursor}

/-- What is settled on was found. -/
theorem eq_of_settle {α : Type} {result : Option α × Cursor} {a : α}
    (h : settle result = some (a, next)) : result = (some a, next) := by
  obtain ⟨found, last⟩ := result
  cases found with
  | none => cases h
  | some b =>
    cases h
    rfl

/-- What came out of an operation that may stay was found by it. -/
theorem eq_of_orStay {α : Type} {found : Option (α × Cursor)} {a : α}
    (h : c.orStay found = (some a, next)) : found = some (a, next) := by
  cases found with
  | none => cases h
  | some r =>
    obtain ⟨ha, rfl⟩ := Prod.mk.inj h
    rw [← Option.some.inj ha]

theorem take_append_ahead (c : Cursor) (n : Nat) :
    c.ahead.take n ++ (c.advance n).ahead = c.ahead := by
  rw [ahead_advance, List.take_append_drop]

/-- A number that was read without a sign stands ahead as it is written. -/
theorem ahead_of_takeInteger {n : Nat} {e : Encoding} {v : Int64}
    (h : c.takeInteger n e.unsigned = (some v, next)) :
    ∃ m : Nat, v.toInt = m ∧ c.ahead = e.ofInt n m ++ next.ahead ∧ next = c.advance n := by
  unfold takeInteger at h
  rw [integer?_eq_ofInt?] at h
  split at h
  case isTrue => cases h
  case isFalse hlong =>
    have hlength := length_toList_peek (Nat.not_lt.1 hlong)
    -- A number that is too large for an integer is not read at all.
    generalize hvalue : e.unsigned.toInt (c.peek n).toList = value at h
    cases hfits : Integer.ofInt? value with
    | none =>
      rw [hfits] at h
      cases h
    | some i =>
      rw [hfits] at h
      obtain ⟨hi, rfl⟩ := Prod.mk.inj h
      cases hi
      refine ⟨e.toNat (c.peek n).toList, ?_, ?_, rfl⟩
      · -- The integer that was found has the value that was asked for.
        unfold Integer.ofInt? at hfits
        split at hfits
        case isTrue hfit =>
          rw [← Option.some.inj hfits, Int64.toInt_ofInt_of_le (Integer.fits_iff.1 hfit).1
            (Integer.fits_iff.1 hfit).2, ← hvalue]
          rfl
        case isFalse => cases hfits
      · have hwritten := e.ofInt_toNat (c.peek n).toList
        rw [hlength] at hwritten
        rw [hwritten, toList_peek, take_append_ahead]

/-- The units of a code point in UTF-16 that were read stand ahead as they are written. -/
theorem ahead_of_takeUnits16 {e : Encoding} {units : List Nat}
    (h : c.takeUnits16 e = (some units, next)) :
    c.ahead = (units.flatMap fun (unit : Nat) => e.ofInt 16 unit) ++ next.ahead ∧
      next = c.advance (16 * units.length) := by
  unfold takeUnits16 at h
  split at h
  case h_2 => cases h
  case h_1 first after hfirst =>
    obtain ⟨m, hm, hahead, rfl⟩ := ahead_of_takeInteger hfirst
    rw [hm, Int.toNat_natCast] at h
    split at h
    case isFalse =>
      obtain ⟨hunits, rfl⟩ := Prod.mk.inj h
      cases hunits
      exact ⟨by simpa using hahead, rfl⟩
    case isTrue =>
      split at h
      case h_2 => cases h
      case h_1 second last hsecond =>
        obtain ⟨k, hk, hbehind, rfl⟩ := ahead_of_takeInteger hsecond
        rw [hk, Int.toNat_natCast] at h
        obtain ⟨hunits, rfl⟩ := Prod.mk.inj h
        cases hunits
        rw [hbehind] at hahead
        exact ⟨by simpa using hahead, advance_advance c 16 16⟩

end Cursor

end BitString

namespace Machine.Utf

open BitString

variable {c next : Cursor} {ch : Char}

/-- The number of bytes of a code point in an encoding. -/
def size? (form : Utf) (v : Int) : Option Nat :=
  match form with
  | utf8 => Unicode.size8? v
  | utf16 => Unicode.size16? v
  | utf32 => some 4

/-- The segment of a character in an encoding. -/
def segment (form : Utf) (ch : Char) (flags : UInt16) : Segment :=
  match form with
  | utf8 => .utf8 ch
  | utf16 => .utf16 ch flags
  | utf32 => .utf32 ch flags

/-- Writing a character adds the bits of its segment. -/
theorem writeUtf?_eq (form : Utf) (ch : Char) (flags : UInt16) (b : Builder) :
    writeUtf? form b ch.toNat (.ofFlags flags) = some (b.put (form.segment ch flags).toBits) := by
  cases form with
  | utf8 => exact Segment.put?_eq (s := .utf8 ch) trivial b
  | utf16 => exact Segment.put?_eq (s := .utf16 ch flags) trivial b
  | utf32 => exact Segment.put?_eq (s := .utf32 ch flags) trivial b

/-- The segment of a character has as many bytes as the encoding says. -/
theorem size?_eq (form : Utf) (ch : Char) (flags : UInt16) :
    ∃ k, form.size? ch.toNat = some k ∧ (form.segment ch flags).toBits.length = 8 * k := by
  cases form with
  | utf8 =>
    refine ⟨(Unicode.encode8 ch).length, ?_, length_flatMap_bitsOfByte _⟩
    simp [size?, Unicode.size8?, Unicode.scalar?_toNat]
  | utf16 =>
    refine ⟨2 * (Unicode.encode16 ch).length, ?_, ?_⟩
    · simp [size?, Unicode.size16?, Unicode.scalar?_toNat]
    · simp [segment, Segment.toBits]
      omega
  | utf32 => exact ⟨4, rfl, by simp [segment, Segment.toBits]⟩

/-- Reading either finds a character further on or stays. -/
theorem takes_take (form : Utf) (c : Cursor) (e : Encoding) : Cursor.Takes c (form.take c e) := by
  cases form with
  | utf8 => exact Cursor.takes_utf8 c
  | utf16 => exact Cursor.takes_utf16 c e
  | utf32 => exact Cursor.takes_utf32 c e

/-- A character that was read in UTF-8 stands ahead in its encoding. -/
theorem ahead_of_utf8? (h : c.utf8? = some (ch, next)) :
    c.ahead = (Unicode.encode8 ch).flatMap bitsOfByte ++ next.ahead ∧
      next = c.advance (8 * (Unicode.encode8 ch).length) := by
  unfold Cursor.utf8? at h
  split at h
  case isTrue => cases h
  case isFalse =>
    obtain ⟨length, -, h⟩ := Option.bind_eq_some_iff.1 h
    split at h
    case isTrue => cases h
    case isFalse hlong =>
      obtain ⟨ch', hdecode, heq⟩ := Option.map_eq_some_iff.1 h
      cases heq
      -- The bytes that were decoded are the encoding, and they have the bits ahead.
      rw [Unicode.decode8?_eq_some_iff.1 hdecode, Cursor.flatMap_byte (Nat.not_lt.1 hlong),
        Cursor.take_append_ahead, List.length_map, List.length_range]
      exact ⟨rfl, rfl⟩

/-- A character that was read in UTF-16 stands ahead in its encoding. -/
theorem ahead_of_takeUtf16 {e : Encoding} (h : c.takeUtf16 e = (some ch, next)) :
    c.ahead = ((Unicode.encode16 ch).flatMap fun (unit : Nat) => e.ofInt 16 unit) ++ next.ahead ∧
      next = c.advance (16 * (Unicode.encode16 ch).length) := by
  unfold Cursor.takeUtf16 at h
  generalize hunits : c.takeUnits16 e = result at h
  obtain ⟨units, last⟩ := result
  dsimp only at h
  split at h
  case h_2 => cases h
  case h_1 char hdecode =>
    obtain ⟨hchar, rfl⟩ := Prod.mk.inj h
    cases hchar
    obtain ⟨units, rfl, hdecode⟩ := Option.bind_eq_some_iff.1 hdecode
    rw [Unicode.decode16?_eq_some_iff.1 hdecode]
    exact Cursor.ahead_of_takeUnits16 hunits

/-- A character that was read in UTF-32 stands ahead in its encoding. -/
theorem ahead_of_takeUtf32 {e : Encoding} (h : c.takeUtf32 e = (some ch, next)) :
    c.ahead = e.ofInt 32 ch.toNat ++ next.ahead ∧ next = c.advance 32 := by
  unfold Cursor.takeUtf32 at h
  split at h
  case h_2 => cases h
  case h_1 v after hread =>
    obtain ⟨m, hm, hahead, rfl⟩ := Cursor.ahead_of_takeInteger hread
    split at h
    case h_2 => cases h
    case h_1 char hscalar =>
      obtain ⟨hchar, rfl⟩ := Prod.mk.inj h
      cases hchar
      have hvalue := Unicode.eq_toNat_of_scalar? hscalar
      rw [hm] at hvalue
      exact ⟨Int.ofNat.inj hvalue ▸ hahead, rfl⟩

/-- A character is read exactly if its segment stands ahead, and then the cursor moves behind it. -/
theorem take_eq_some_iff (form : Utf) (flags : UInt16) (c next : Cursor) (ch : Char) :
    form.take c (.ofFlags flags) = (some ch, next) ↔
      (form.segment ch flags).toBits <+: c.ahead ∧
        next = c.advance (form.segment ch flags).toBits.length := by
  have hlength : (form.segment ch flags).toBits.length = (form.segment ch flags).size :=
    Segment.length_toBits (by cases form <;> trivial)
  rw [hlength]
  constructor
  · intro h
    cases form with
    | utf8 =>
      obtain ⟨hahead, hnext⟩ := ahead_of_utf8? (Cursor.eq_of_orStay h)
      exact ⟨⟨_, hahead.symm⟩, hnext⟩
    | utf16 =>
      obtain ⟨hahead, hnext⟩ := ahead_of_takeUtf16 h
      exact ⟨⟨_, hahead.symm⟩, hnext⟩
    | utf32 =>
      obtain ⟨hahead, hnext⟩ := ahead_of_takeUtf32 h
      exact ⟨⟨_, hahead.symm⟩, hnext⟩
  · rintro ⟨⟨rest, hrest⟩, rfl⟩
    cases form with
    | utf8 =>
      have hread := Cursor.utf8?_eq hrest.symm
      simp only [take, hread]
      rfl
    | utf16 => exact Cursor.eq_of_settle (Cursor.utf16?_eq hrest.symm)
    | utf32 => exact Cursor.eq_of_settle (Cursor.utf32?_eq hrest.symm)

/-- The readers of characters accept exactly what the writers produce. A character is read if and
only if the bits ahead begin with those that writing it adds to a builder; the cursor then moves on
by these bits, which make up as many bytes as the encoding gives for the character. If the bits
ahead begin with those of no character, nothing is read and the cursor stays. -/
theorem take_exact (form : Utf) (flags : UInt16) (c : Cursor) :
    let e := Encoding.ofFlags flags
    let Written (ch : Char) (bits : List Bool) : Prop :=
      Builder.Appends (fun b => writeUtf? form b ch.toNat e) bits
    (∀ ch next, form.take c e = (some ch, next) ↔
      ∃ bits k, Written ch bits ∧ bits <+: c.ahead ∧ form.size? ch.toNat = some k ∧
        bits.length = 8 * k ∧ next = c.advance (8 * k)) ∧
    (form.take c e = (none, c) ↔ ¬ ∃ ch bits, Written ch bits ∧ bits <+: c.ahead) := by
  intro e Written
  have hwritten (ch : Char) (bits : List Bool) :
      Written ch bits ↔ bits = (form.segment ch flags).toBits :=
    Builder.appends_iff (writeUtf?_eq form ch flags) bits
  constructor
  · intro ch next
    obtain ⟨k, hk, hlength⟩ := form.size?_eq ch flags
    rw [take_eq_some_iff, hlength]
    constructor
    · rintro ⟨hahead, hnext⟩
      exact ⟨_, k, (hwritten ch _).2 rfl, hahead, hk, hlength, hnext⟩
    · rintro ⟨bits, j, hbits, hahead, hj, -, hnext⟩
      obtain rfl := (hwritten ch bits).1 hbits
      obtain rfl : k = j := Option.some.inj (hk.symm.trans hj)
      exact ⟨hahead, hnext⟩
  · constructor
    · rintro hnone ⟨ch, bits, hbits, hahead⟩
      obtain rfl := (hwritten ch bits).1 hbits
      have hsome := (take_eq_some_iff form flags c _ ch).2 ⟨hahead, rfl⟩
      cases hnone.symm.trans hsome
    · intro hno
      -- Reading stays if it finds nothing, and what it finds would be written ahead.
      have htakes := form.takes_take c e
      generalize hresult : form.take c e = result at htakes
      cases htakes with
      | nothing => rfl
      | found ch hn =>
        have hahead := ((take_eq_some_iff form flags c _ ch).1 hresult).1
        exact absurd ⟨ch, _, (hwritten ch _).2 rfl, hahead⟩ hno

end Machine.Utf

end ErlangMachine
