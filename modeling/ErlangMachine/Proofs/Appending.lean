import ErlangMachine.Proofs.Puts

/-!
# Appending to a bit string

A builder that extends a bit string either copies it or goes on in its buffer, which it may do if
the bit string has the buffer for itself and stands at its beginning. After a copy the rest of the
last byte is clear. The buffer of the bit string itself may hold anything there: bits of the bytes
that the bit string was made from, or of a longer bit string that it was cut out of. A writer sets
bits and never clears one, so what it adds is laid over these bits.

`Builder.toList_append_put` gives the result in every case, and `Builder.append_extends` says when
it is what one expects of appending: the bits that are there, followed by the bits that are added.
-/

namespace ErlangMachine.BitString

/-- The bits of the buffer between the end of a bit string and the end of a byte. -/
def leftover (b : BitString) : List Bool :=
  (List.range ((8 - (b.start + b.size) % 8) % 8)).map fun i => b.bit (b.size + i)

/-- Bits laid over others. A bit that was set stays set. -/
def overlay (old bits : List Bool) : List Bool := bits.mapIdx fun i b => old.getD i false || b

/-- Bits laid over nothing are as they were. -/
theorem overlay_nil (bits : List Bool) : overlay [] bits = bits := by
  refine List.ext_getElem (by simp [overlay]) fun i _ _ => ?_
  simp [overlay]

/-- Bits come through if none of them is clear where there was a set one. -/
theorem overlay_eq_iff (old bits : List Bool) :
    overlay old bits = bits ↔ ∀ i : Nat, old[i]? = some true → bits[i]? ≠ some false := by
  constructor
  · intro h i hold hbit
    have hi : (overlay old bits)[i]? = some true := by simp [overlay, hold, hbit]
    rw [h, hbit] at hi
    exact Bool.noConfusion (Option.some.inj hi)
  · intro h
    refine List.ext_getElem (by simp [overlay]) fun i hi hi' => ?_
    have hbit := h i
    rw [List.getElem?_eq_getElem hi'] at hbit
    cases hold : old[i]? with
    | none => simp [overlay, hold]
    | some o =>
      cases o with
      | false => simp [overlay, hold]
      | true =>
        have hset : bits[i] = true := Bool.eq_true_of_not_eq_false fun hclear =>
          hbit hold (congrArg some hclear)
        simp [overlay, hset]

namespace Writer

/-- A writer with the bytes that its bits need keeps to that. -/
theorem size_bytes_pushBits {w : Writer} (hsize : w.bytes.size = (w.size + 7) / 8)
    (bits : List Bool) : (w.pushBits bits).bytes.size = ((w.pushBits bits).size + 7) / 8 := by
  induction bits generalizing w with
  | nil => exact hsize
  | cons b bits ih => exact ih (size_push hsize b)

/-- Writing bits sets them where they are set. All other bits of the buffer stay. -/
theorem bufferBit_pushBits {w : Writer} (hsize : w.bytes.size = (w.size + 7) / 8)
    (bits : List Bool) (i : Nat) : bufferBit (w.pushBits bits).bytes i =
      (bufferBit w.bytes i || (decide (w.size ≤ i) && bits.getD (i - w.size) false)) := by
  induction bits generalizing w with
  | nil => simp [pushBits]
  | cons b bits ih =>
    have hone : (w.push b).size = w.size + 1 := rfl
    have hrest := ih (size_push hsize b)
    rw [bufferBit_push_or hsize, hone] at hrest
    refine hrest.trans ?_
    -- The first of the bits goes to the end of what is there, the others come after it.
    rcases Nat.lt_trichotomy i w.size with hlt | heq | hgt
    · simp [Nat.not_le.2 hlt, show ¬ i = w.size by omega, show ¬ w.size + 1 ≤ i by omega]
    · simp [heq]
    · obtain ⟨k, rfl⟩ : ∃ k, i = w.size + 1 + k := ⟨i - (w.size + 1), by omega⟩
      have hnext : w.size + 1 + k - w.size = k + 1 := by omega
      simp [hnext, show ¬ w.size + 1 + k = w.size by omega, show w.size ≤ w.size + 1 + k by omega]

section Extend

variable {b : BitString} (hstart : b.start = 0)
include hstart

/-- A writer that goes on in the buffer of a bit string has the bytes that the bits need. -/
theorem size_bytes_extend : (extend b).bytes.size = ((extend b).size + 7) / 8 := by
  have hfits := b.fits
  simp only [extend, Array.size_extract]
  omega

/-- The buffer is cut off after the byte in which the bit string ends. -/
theorem bufferBit_extend (i : Nat) : bufferBit (extend b).bytes i =
    (decide (i / 8 < (b.size + 7) / 8) && bufferBit b.bytes i) := by
  have hfits := b.fits
  unfold extend bufferBit
  by_cases hi : i / 8 < (b.size + 7) / 8
  · have hbyte : i / 8 < b.bytes.size := by omega
    simp [Array.getD, hi, hbyte]
  · simp [Array.getD, hi]

/-- Beyond the end of the bit string stand the bits that are left over in its last byte. -/
theorem bufferBit_extend_add (i : Nat) :
    bufferBit (extend b).bytes (b.size + i) = b.leftover.getD i false := by
  rw [bufferBit_extend hstart]
  unfold leftover bit
  rw [hstart, Nat.zero_add]
  by_cases hi : i < (8 - b.size % 8) % 8
  · have hbyte : (b.size + i) / 8 < (b.size + 7) / 8 := by omega
    simp [List.getD, hi, hbyte]
  · have hbyte : ¬ (b.size + i) / 8 < (b.size + 7) / 8 := by omega
    simp [List.getD, hi, hbyte]

/-- In the buffer of a bit string, bits are laid over those that are left over. -/
theorem toList_extend_pushBits (bits : List Bool) :
    ((extend b).pushBits bits).toBitString.toList = b.toList ++ overlay b.leftover bits := by
  have hsize := size_bytes_extend hstart
  have htotal : ((extend b).pushBits bits).size = b.size + bits.length :=
    size_pushBits (extend b) bits
  rw [toList_toBitString (size_bytes_pushBits hsize bits), htotal, List.range_add,
    List.map_append, List.map_map]
  congr 1
  · -- What was there stays, since nothing is written over it.
    refine List.map_congr_left fun i hi => ?_
    have hlt := List.mem_range.1 hi
    have hbefore : ¬ (extend b).size ≤ i := by simpa [extend] using hlt
    have hbyte : i / 8 < (b.size + 7) / 8 := by omega
    rw [bufferBit_pushBits hsize, bufferBit_extend hstart]
    simp [hbefore, hbyte, bit, hstart]
  · refine List.ext_getElem (by simp [overlay]) fun i hi hi' => ?_
    have hlt : i < bits.length := by simpa using hi
    have hend : (extend b).size = b.size := rfl
    simp [bufferBit_pushBits hsize, hend, bufferBit_extend_add hstart, overlay, hlt]

end Extend

/-- A copy of a bit string has its bits and is fit for more. -/
theorem toList_copy_pushBits (b : BitString) (bits : List Bool) :
    ((copy b).pushBits bits).toBitString.toList = b.toList ++ bits := by
  rw [toList_pushBits (sound_copy b), toList_copy]

end Writer

namespace Builder

/-- The bits that a builder finds in the rest of the last byte of a bit string that it extends. -/
def under (existing : BitString) (ownership : Ownership) : List Bool :=
  if existing.start = 0 ∧ ownership = .sole then existing.leftover else []

/-- Bits that are put are laid over what the builder finds after the bit string. -/
theorem toList_append_put (existing : BitString) (extra : Nat) (ownership : Ownership)
    (bits : List Bool) : ((append existing extra ownership).put bits).bitString.toList =
      existing.toList ++ overlay (under existing ownership) bits := by
  unfold append put bitString under
  by_cases h : existing.start = 0 ∧ ownership = .sole
  · rw [if_pos h, if_pos h]
    exact Writer.toList_extend_pushBits h.1 bits
  · rw [if_neg h, if_neg h, overlay_nil]
    exact Writer.toList_copy_pushBits existing bits

/-- Appending extends a bit string by the bits that are put, except that in its own buffer a bit
that is put stays set where the buffer had a set one. So the result is the bits that were there
followed by those that are put if and only if the bit string is copied, or no clear bit is put where
its last byte has a set bit left over. -/
theorem append_extends (existing : BitString) (extra : Nat) (ownership : Ownership)
    (puts : List Put) (built : Builder)
    (h : performAll? puts (append existing extra ownership) = some built) :
    ∃ bits, bitsOfPuts? puts = some bits ∧
      built.bitString.toList = existing.toList ++ overlay (under existing ownership) bits ∧
      (built.bitString.toList = existing.toList ++ bits ↔
        (existing.start = 0 → ownership = .sole →
          ∀ i : Nat, existing.leftover[i]? = some true → bits[i]? ≠ some false)) := by
  obtain ⟨bits, hbits, rfl⟩ := bitsOfPuts?_of_performAll? h
  have hresult := toList_append_put existing extra ownership bits
  refine ⟨bits, hbits, hresult, ?_⟩
  rw [hresult, List.append_right_inj, overlay_eq_iff, under]
  by_cases hplace : existing.start = 0 ∧ ownership = .sole
  · simp [hplace]
  · rw [if_neg hplace]
    exact ⟨fun _ hstart howner => absurd ⟨hstart, howner⟩ hplace, fun _ i hi => by simp at hi⟩

/-- Five bits of a byte whose other bits are clear, extended in place by part of a bit string and a
code point. -/
theorem append_extends_clear :
    ∃ built bits, performAll? [.bits (.ofBytes #[0xC3]) (some 5), .utf8 0x20AC]
        (append (.ofBits #[0xA8] 5) 29 .sole) = some built ∧
      bitsOfPuts? [.bits (.ofBytes #[0xC3]) (some 5), .utf8 0x20AC] = some bits ∧
      built.bitString.toList = (ofBits #[0xA8] 5).toList ++ bits := by
  obtain ⟨built, hbuilt⟩ : ∃ built, performAll? [.bits (.ofBytes #[0xC3]) (some 5), .utf8 0x20AC]
      (append (.ofBits #[0xA8] 5) 29 .sole) = some built :=
    Option.isSome_iff_exists.1 (by decide +kernel)
  have hclear : (ofBits #[0xA8] 5).leftover = [false, false, false] := by decide +kernel
  obtain ⟨bits, hbits, -, hextends⟩ := append_extends _ _ _ _ _ hbuilt
  refine ⟨built, bits, hbuilt, hbits, hextends.2 fun _ _ i hset => ?_⟩
  have hmem := List.mem_of_getElem? hset
  rw [hclear] at hmem
  simp at hmem

/-- Four clear bits put after the first half of a byte of set bits. In place, the second half of
that byte comes back; in a copy it does not. -/
theorem append_keeps_leftover :
    bitsOfPuts? [.integer 0 4 0] = some [false, false, false, false] ∧
      (performAll? [.integer 0 4 0] (append (.ofBits #[0xFF] 4) 4 .sole)).map
        (·.bitString.toBytes) = some [0xFF] ∧
      (performAll? [.integer 0 4 0] (append (.ofBits #[0xFF] 4) 4 .shared)).map
        (·.bitString.toBytes) = some [0xF0] := by
  decide +kernel

end Builder

end ErlangMachine.BitString
