import Mathlib
import ErlangMachine.BitString.Unicode

/-!
# Code points and their encodings

Decoding undoes encoding for every Unicode scalar value, and nothing else is decoded: units are
accepted exactly if they are the encoding of the value that comes out (`decode8?_eq_some_iff`,
`decode16?_eq_some_iff`). The decoder of UTF-8 looks at ranges of bytes, so the question is whether
these ranges leave out just the overlong forms, the surrogates and what lies beyond the last plane.
-/

namespace ErlangMachine.Unicode

/-- A character is the scalar value with its number. -/
theorem scalar?_toNat (c : Char) : scalar? c.toNat = some c := by
  have hvalid : c.toNat.isValidChar := c.valid
  simp [scalar?, hvalid]

theorem toNat_ofNat {v : Nat} (h : v.isValidChar) : (Char.ofNat v).toNat = v :=
  (Char.toNat_ofNat v).trans (if_pos h)

/-- A scalar value is the number of its character. -/
theorem eq_toNat_of_scalar? {v : Int} {c : Char} (h : scalar? v = some c) : v = c.toNat := by
  unfold scalar? at h
  split at h
  case isTrue hv =>
    cases h
    rw [toNat_ofNat hv.2]
    omega
  case isFalse => cases h

/-- The number of a character is below the end of the last plane. -/
theorem toNat_lt (c : Char) : c.toNat < 0x110000 := by
  have hvalid : c.toNat.isValidChar := c.valid
  omega

/-- A character is no surrogate. -/
theorem toNat_not_surrogate (c : Char) : c.toNat < 0xD800 ∨ 0xDFFF < c.toNat := by
  have hvalid : c.toNat.isValidChar := c.valid
  omega

/-! ## UTF-8 -/

/-- The bytes of a character, one to four by the size of its number. -/
theorem encode8_eq (c : Char) : encode8 c =
    if c.toNat ≤ 0x7F then [UInt8.ofNat c.toNat]
    else if c.toNat ≤ 0x7FF then
      [UInt8.ofNat (c.toNat / 64 % 32 + 192), UInt8.ofNat (c.toNat % 64 + 128)]
    else if c.toNat ≤ 0xFFFF then
      [UInt8.ofNat (c.toNat / 4096 % 16 + 224), UInt8.ofNat (c.toNat / 64 % 64 + 128),
        UInt8.ofNat (c.toNat % 64 + 128)]
    else
      [UInt8.ofNat (c.toNat / 262144 % 8 + 240), UInt8.ofNat (c.toNat / 4096 % 64 + 128),
        UInt8.ofNat (c.toNat / 64 % 64 + 128), UInt8.ofNat (c.toNat % 64 + 128)] := rfl

/-- Assembling the bytes of a character gives its number. -/
theorem assemble8_encode8 (c : Char) : assemble8 (encode8 c) = c.toNat := by
  have hlt := toNat_lt c
  rw [encode8_eq]
  split
  · simp [assemble8]
    omega
  · split
    · simp [assemble8]
      omega
    · split
      · simp [assemble8]
        omega
      · simp [assemble8]
        omega

/-- The number of bytes that a first byte announces, by its number. -/
theorem length8?_ofNat {n : Nat} (h : n < 256) : length8? (UInt8.ofNat n) =
    if n ≤ 0x7F then some 1
    else if 0xC2 ≤ n ∧ n ≤ 0xDF then some 2
    else if 0xE0 ≤ n ∧ n ≤ 0xEF then some 3
    else if 0xF0 ≤ n ∧ n ≤ 0xF4 then some 4
    else none := by
  have hn : (UInt8.ofNat n).toNat = n := by rw [UInt8.toNat_ofNat', Nat.mod_eq_of_lt h]
  simp only [length8?, UInt8.le_iff_toNat_le, hn, UInt8.reduceToNat]

/-- The bytes that continue a sequence, by their number. -/
theorem isContinuation_iff (byte : UInt8) :
    isContinuation byte = true ↔ 0x80 ≤ byte.toNat ∧ byte.toNat ≤ 0xBF := by
  simp [isContinuation, UInt8.le_iff_toNat_le]

/-- The second bytes that may follow a first one, by their number. -/
theorem mayFollow_iff (lead second : UInt8) : mayFollow lead second = true ↔
    0x80 ≤ second.toNat ∧ second.toNat ≤ 0xBF ∧
      (lead.toNat = 0xE0 → 0xA0 ≤ second.toNat) ∧ (lead.toNat = 0xF0 → 0x90 ≤ second.toNat) ∧
      (lead.toNat = 0xED → second.toNat ≤ 0x9F) ∧ (lead.toNat = 0xF4 → second.toNat ≤ 0x8F) := by
  simp only [mayFollow, UInt8.le_iff_toNat_le, Bool.and_eq_true, decide_eq_true_eq,
    apply_ite UInt8.toNat, ← UInt8.toNat_inj, UInt8.reduceToNat]
  grind

/-- The numbers of the bytes in a sequence: one to four, with the second as the first allows. -/
theorem isSequence8_iff (bytes : List UInt8) : isSequence8 bytes = true ↔
    (∃ a, bytes = [a] ∧ a.toNat ≤ 0x7F) ∨
    (∃ a b, bytes = [a, b] ∧ 0xC2 ≤ a.toNat ∧ a.toNat ≤ 0xDF ∧ mayFollow a b ∧
      isContinuation b) ∨
    (∃ a b c, bytes = [a, b, c] ∧ 0xE0 ≤ a.toNat ∧ a.toNat ≤ 0xEF ∧ mayFollow a b ∧
      isContinuation b ∧ isContinuation c) ∨
    (∃ a b c d, bytes = [a, b, c, d] ∧ 0xF0 ≤ a.toNat ∧ a.toNat ≤ 0xF4 ∧ mayFollow a b ∧
      isContinuation b ∧ isContinuation c ∧ isContinuation d) := by
  have hlead (a : UInt8) := length8?_ofNat a.toNat_lt
  simp only [UInt8.ofNat_toNat] at hlead
  match bytes with
  | [] => simp [isSequence8]
  | [a] =>
    simp [isSequence8, hlead]
    grind
  | [a, b] =>
    simp [isSequence8, hlead]
    grind
  | [a, b, c] =>
    simp [isSequence8, hlead]
    grind
  | [a, b, c, d] =>
    simp [isSequence8, hlead]
    grind
  | a :: b :: c :: d :: e :: rest =>
    simp [isSequence8, hlead]
    grind

theorem ofNat_eq_of_toNat {n : Nat} {b : UInt8} (h : n = b.toNat) : UInt8.ofNat n = b := by
  rw [h, UInt8.ofNat_toNat]

/-- A sequence stands for a scalar value, and it is the encoding of that value. -/
theorem encode8_assemble8 {bytes : List UInt8} (h : isSequence8 bytes = true) :
    (assemble8 bytes).isValidChar ∧ encode8 (Char.ofNat (assemble8 bytes)) = bytes := by
  rcases (isSequence8_iff bytes).1 h with ⟨a, rfl, ha⟩ | ⟨a, b, rfl, hlow, hhigh, hab, hb⟩ |
    ⟨a, b, c, rfl, hlow, hhigh, hab, hb, hc⟩ | ⟨a, b, c, d, rfl, hlow, hhigh, hab, hb, hc, hd⟩
  · have hvalue : assemble8 [a] = a.toNat := rfl
    have hvalid : (assemble8 [a]).isValidChar := by
      exact .inl (by omega)
    rw [encode8_eq, toNat_ofNat hvalid, hvalue, if_pos ha, UInt8.ofNat_toNat]
    exact ⟨hvalue ▸ hvalid, rfl⟩
  · rw [isContinuation_iff] at hb
    have hvalue : assemble8 [a, b] = (a.toNat - 0xC0) * 64 + (b.toNat - 0x80) := by
      simp [assemble8]
      omega
    have hvalid : (assemble8 [a, b]).isValidChar := .inl (by omega)
    refine ⟨hvalid, ?_⟩
    rw [encode8_eq, toNat_ofNat hvalid, hvalue, if_neg (by omega), if_pos (by omega),
      ofNat_eq_of_toNat (b := a) (by omega), ofNat_eq_of_toNat (b := b) (by omega)]
  · rw [isContinuation_iff] at hb hc
    rw [mayFollow_iff] at hab
    have hvalue : assemble8 [a, b, c] =
        (a.toNat - 0xE0) * 4096 + (b.toNat - 0x80) * 64 + (c.toNat - 0x80) := by
      simp [assemble8]
      omega
    -- Overlong forms would begin with `E0` and surrogates with `ED`.
    have hvalid : (assemble8 [a, b, c]).isValidChar := by
      omega
    refine ⟨hvalid, ?_⟩
    rw [encode8_eq, toNat_ofNat hvalid, if_neg (by omega), if_neg (by omega), hvalue,
      if_pos (by omega), ofNat_eq_of_toNat (b := a) (by omega),
      ofNat_eq_of_toNat (b := b) (by omega), ofNat_eq_of_toNat (b := c) (by omega)]
  · rw [isContinuation_iff] at hb hc hd
    rw [mayFollow_iff] at hab
    have hvalue : assemble8 [a, b, c, d] = (a.toNat - 0xF0) * 262144 + (b.toNat - 0x80) * 4096 +
        (c.toNat - 0x80) * 64 + (d.toNat - 0x80) := by
      simp [assemble8]
      omega
    -- Overlong forms would begin with `F0` and what lies beyond the last plane with `F4`.
    have hvalid : (assemble8 [a, b, c, d]).isValidChar := .inr (by omega)
    refine ⟨hvalid, ?_⟩
    rw [encode8_eq, toNat_ofNat hvalid, if_neg (by omega), if_neg (by omega), if_neg (by omega),
      hvalue, ofNat_eq_of_toNat (b := a) (by omega), ofNat_eq_of_toNat (b := b) (by omega),
      ofNat_eq_of_toNat (b := c) (by omega), ofNat_eq_of_toNat (b := d) (by omega)]

/-- The bytes of a character are a sequence. -/
theorem isSequence8_encode8 (c : Char) : isSequence8 (encode8 c) = true := by
  have hlt := toNat_lt c
  have hplain := toNat_not_surrogate c
  have hbyte {n : Nat} (h : n < 256) : (UInt8.ofNat n).toNat = n := by
    rw [UInt8.toNat_ofNat', Nat.mod_eq_of_lt h]
  rw [encode8_eq, isSequence8_iff]
  split
  · exact .inl ⟨_, rfl, by rw [hbyte (by omega)]; omega⟩
  · split
    · refine .inr (.inl ⟨_, _, rfl, ?_⟩)
      rw [isContinuation_iff, mayFollow_iff, hbyte (by omega), hbyte (by omega)]
      omega
    · split
      · refine .inr (.inr (.inl ⟨_, _, _, rfl, ?_⟩))
        rw [isContinuation_iff, isContinuation_iff, mayFollow_iff, hbyte (by omega),
          hbyte (by omega), hbyte (by omega)]
        omega
      · refine .inr (.inr (.inr ⟨_, _, _, _, rfl, ?_⟩))
        rw [isContinuation_iff, isContinuation_iff, isContinuation_iff, mayFollow_iff,
          hbyte (by omega), hbyte (by omega), hbyte (by omega), hbyte (by omega)]
        omega

/-- The first byte of a character announces how many there are. -/
theorem length8?_encode8 (c : Char) :
    ∃ lead rest, encode8 c = lead :: rest ∧ length8? lead = some (rest.length + 1) := by
  have hsequence := isSequence8_encode8 c
  cases hbytes : encode8 c with
  | nil =>
    rw [hbytes] at hsequence
    cases hsequence
  | cons lead rest =>
    rw [hbytes, isSequence8, Bool.and_eq_true, Bool.and_eq_true, beq_iff_eq] at hsequence
    exact ⟨lead, rest, rfl, hsequence.1.1⟩

/-- Decoding accepts the bytes of a character and gives it back, and accepts nothing else. -/
theorem decode8?_eq_some_iff {bytes : List UInt8} {c : Char} :
    decode8? bytes = some c ↔ encode8 c = bytes := by
  unfold decode8?
  constructor
  · intro h
    split at h
    case isTrue hsequence =>
      cases h
      exact (encode8_assemble8 hsequence).2
    case isFalse => cases h
  · rintro rfl
    rw [if_pos (isSequence8_encode8 c), assemble8_encode8, Char.ofNat_toNat]

/-! ## UTF-16 -/

/-- A character has one unit that is no surrogate, or a high and a low surrogate. -/
theorem encode16_cases (c : Char) :
    (encode16 c = [c.toNat] ∧ c.toNat < 0x10000 ∧ isHighSurrogate c.toNat = false) ∨
    ∃ high low, encode16 c = [high, low] ∧ isHighSurrogate high = true ∧
      isLowSurrogate low = true ∧
      (c.toNat : Int) = 0x10000 + (high - 0xD800) * 0x400 + (low - 0xDC00) := by
  have hlt := toNat_lt c
  have hplain := toNat_not_surrogate c
  unfold encode16
  dsimp only
  split
  · -- The number itself is the unit. It could only be taken for a surrogate if it were one.
    refine .inl ⟨rfl, by assumption, ?_⟩
    simp [isHighSurrogate]
    omega
  · refine .inr ⟨_, _, rfl, ?_, ?_, by push_cast; omega⟩
    · simp [isHighSurrogate]
      omega
    · simp [isLowSurrogate]
      omega

/-- Decoding accepts the units of a character and gives it back, and accepts nothing else. -/
theorem decode16?_eq_some_iff {units : List Nat} {c : Char} :
    decode16? units = some c ↔ encode16 c = units := by
  constructor
  · intro h
    unfold decode16? at h
    split at h
    · -- One unit, which is the number of the character.
      split at h
      case isTrue hunit =>
        obtain hvalue := eq_toNat_of_scalar? h
        unfold encode16
        rw [if_pos (by omega), Int.ofNat.inj hvalue]
      case isFalse => cases h
    · -- Two units. The number lies behind the first plane, and they are what it is divided into.
      split at h
      case isTrue hpair =>
        simp only [isHighSurrogate, isLowSurrogate, Bool.and_eq_true, decide_eq_true_eq] at hpair
        obtain rfl := Option.some.inj h
        rename_i high low
        have hvalid : (0x10000 + (high - 0xD800) * 0x400 + (low - 0xDC00)).isValidChar :=
          .inr (by omega)
        unfold encode16
        rw [toNat_ofNat hvalid, if_neg (by omega)]
        simp only [List.cons.injEq, and_true]
        omega
      case isFalse => cases h
    · cases h
  · -- Units that were encoded are one or two, and are put together again.
    rintro rfl
    rcases encode16_cases c with ⟨hunits, hlt, -⟩ | ⟨high, low, hunits, hhigh, hlow, hvalue⟩
    · simp [decode16?, hunits, hlt, scalar?_toNat]
    · have hnumber : 0x10000 + (high - 0xD800) * 0x400 + (low - 0xDC00) = c.toNat := by
        simp only [isHighSurrogate, isLowSurrogate, Bool.and_eq_true,
          decide_eq_true_eq] at hhigh hlow
        omega
      simp [decode16?, hunits, hhigh, hlow, hnumber]

end ErlangMachine.Unicode
