import ErlangMachine.BitString.Cursor
import ErlangMachine.BitString.Writer
import ErlangMachine.Proofs.Segments

/-!
# Bit strings as lists of bits

A bit string is a window onto a buffer, and what it says is its list of bits. This module follows
that list through everything that is done with windows and buffers: cutting a piece out, packing
into bytes, writing bit by bit. A cursor is seen as the list of the bits ahead of it.

A writer sets bits by a mask, so the rest of its last byte must be clear for that to work.
`Writer.Sound` says so, and `Writer.toList_pushBits` that bits written to a sound writer are added
at the end. Where all bytes are full, whole bytes are added at once; that is the same as writing
their bits one by one, for any writer (`Writer.pushWord_eq`, `Writer.pushBytes_eq`,
`Writer.pushBitString_eq`). So a writer holds what was added to it, whichever way it was added
(`Writer.additions_fill_buffer`).
-/

namespace ErlangMachine.BitString

/-! ## Windows -/

/-- There are as many bits as the size says. -/
@[simp] theorem length_toList (b : BitString) : b.toList.length = b.size := by simp [toList]

/-- The bits of a piece are a piece of the bits. -/
theorem toList_slice (b : BitString) (i n : Nat) :
    (b.slice i n).toList = (b.toList.drop i).take n := by
  refine List.ext_getElem (by simp [slice]) fun j h _ => ?_
  rw [length_toList] at h
  have hj : j < b.size - i := h.trans_le (Nat.min_le_right _ _)
  have hi : min i b.size = i := Nat.min_eq_left (by omega)
  simp [toList, bit, slice, hi, Nat.add_assoc]

/-! ## Bytes -/

/-- The bits of a byte, the most significant first. -/
def bitsOfByte (byte : UInt8) : List Bool := Encoding.ofInt ⟨false, false⟩ 8 byte.toNat

/-- A byte has eight bits. -/
@[simp] theorem length_bitsOfByte (byte : UInt8) : (bitsOfByte byte).length = 8 := by
  simp [bitsOfByte]

/-- The bits of a byte are the binary digits of its number. -/
theorem bitsOfByte_eq_testBit (byte : UInt8) :
    bitsOfByte byte = (List.range 8).map fun j => byte.toNat.testBit (7 - j) := by
  refine List.map_congr_left fun j _ => ?_
  rw [Encoding.testBit_eq_shiftRight]
  rfl

/-- Eight bits make the byte that they were taken from. -/
theorem ofNat_toNat_bitsOfByte (byte : UInt8) :
    UInt8.ofNat (Encoding.toNat ⟨false, false⟩ (bitsOfByte byte)) = byte := by
  have hread := Encoding.toNat_ofInt ⟨false, false⟩ 8 byte.toNat
  have hlt := byte.toNat_lt
  rw [Int.emod_eq_of_lt (by omega) (by omega)] at hread
  rw [bitsOfByte, Int.ofNat.inj hread, UInt8.ofNat_toNat]

/-- The byte that eight bits make has these bits. -/
theorem bitsOfByte_ofNat_toNat {bits : List Bool} (h : bits.length = 8) :
    bitsOfByte (UInt8.ofNat (Encoding.toNat ⟨false, false⟩ bits)) = bits := by
  have hlt := Encoding.toNat_lt ⟨false, false⟩ bits
  rw [h] at hlt
  have hback := Encoding.ofInt_toNat ⟨false, false⟩ bits
  rw [h] at hback
  rw [bitsOfByte, UInt8.toNat_ofNat', Nat.mod_eq_of_lt hlt, hback]

/-- Bytes are known by their bits. -/
theorem bitsOfByte_injective {a b : UInt8} (h : bitsOfByte a = bitsOfByte b) : a = b := by
  rw [← ofNat_toNat_bitsOfByte a, h, ofNat_toNat_bitsOfByte]

/-- Bytes have eight times as many bits. -/
theorem length_flatMap_bitsOfByte (bytes : List UInt8) :
    (bytes.flatMap bitsOfByte).length = 8 * bytes.length := by
  simp [Nat.mul_comm]

/-- Lists of bytes are known by their bits. -/
theorem flatMap_bitsOfByte_injective {as bs : List UInt8}
    (h : as.flatMap bitsOfByte = bs.flatMap bitsOfByte) : as = bs := by
  have hlength := congrArg List.length h
  rw [length_flatMap_bitsOfByte, length_flatMap_bitsOfByte] at hlength
  induction as generalizing bs with
  | nil => exact (List.length_eq_zero_iff.1 (by simpa using hlength.symm)).symm
  | cons a as ih =>
    cases bs with
    | nil => simp at hlength
    | cons b bs =>
      obtain ⟨hbyte, hrest⟩ := List.append_inj h (by simp)
      rw [List.length_cons, List.length_cons] at hlength
      rw [bitsOfByte_injective hbyte, ih hrest (by omega)]

/-- Positions counted byte by byte and bit by bit are all positions. -/
theorem flatMap_range_eight {α : Type} (f : Nat → α) (k : Nat) :
    ((List.range k).flatMap fun i => (List.range 8).map fun j => f (8 * i + j)) =
      (List.range (8 * k)).map f := by
  induction k with
  | zero => rfl
  | succ k ih =>
    have hrange : List.range (k + 1) = List.range k ++ [k] := List.range_succ
    rw [hrange, List.flatMap_append, ih, Nat.mul_succ, List.range_add, List.map_append]
    simp

/-- Whole bytes of a buffer have the bits that stand there. -/
theorem flatMap_extract (bytes : Array UInt8) {k j : Nat} (h : k + j ≤ bytes.size) :
    (bytes.extract k (k + j)).toList.flatMap bitsOfByte =
      (List.range (8 * j)).map fun i => bufferBit bytes (8 * k + i) := by
  have hbytes : (bytes.extract k (k + j)).toList =
      (List.range j).map fun i => bytes.getD (k + i) 0 := by
    refine List.ext_getElem ?_ fun i hi hi' => ?_
    · simp
      omega
    · simp only [List.length_map, List.length_range] at hi'
      have hlt : k + i < bytes.size := by omega
      simp [Array.getD, hlt]
  rw [hbytes, List.flatMap_map, ← flatMap_range_eight]
  refine List.flatMap_congr fun i _ => ?_
  rw [bitsOfByte_eq_testBit]
  refine List.map_congr_left fun m hm => ?_
  have hm := List.mem_range.1 hm
  have hbyte : (8 * k + (8 * i + m)) / 8 = k + i := by omega
  have hbit : (8 * k + (8 * i + m)) % 8 = m := by omega
  rw [bufferBit, hbyte, hbit]

/-- All bytes of a buffer have all of its bits. -/
theorem flatMap_bitsOfByte_eq (bytes : Array UInt8) :
    bytes.toList.flatMap bitsOfByte = (List.range (8 * bytes.size)).map (bufferBit bytes) := by
  have hall := flatMap_extract bytes (k := 0) (j := bytes.size) (by omega)
  simpa using hall

/-- The bits of some bytes. -/
theorem toList_ofBytes (bytes : Array UInt8) :
    (ofBytes bytes).toList = bytes.toList.flatMap bitsOfByte := by
  rw [flatMap_bitsOfByte_eq]
  simp [toList, ofBytes, bit]

/-- A window that begins and ends between bytes has the bits of these bytes. -/
theorem flatMap_alignedBytes? {b : BitString} {bytes : List UInt8}
    (h : b.alignedBytes? = some bytes) : bytes.flatMap bitsOfByte = b.toList := by
  obtain ⟨⟨hstart, hsize⟩, hbytes⟩ := Option.ite_none_right_eq_some.1 h
  cases hbytes
  have hfits := b.fits
  have hcut : (b.start + b.size) / 8 = b.start / 8 + b.size / 8 := by omega
  have hcount : 8 * (b.size / 8) = b.size := by omega
  have hfirst : 8 * (b.start / 8) = b.start := by omega
  rw [hcut, flatMap_extract b.bytes (by omega), hcount, hfirst]
  rfl

/-! ## Words -/

/-- The low `n` bits of a word, the most significant first. -/
def bitsOfWord (v : UInt64) (n : Nat) : List Bool :=
  (List.range n).map fun j => v.toNat.testBit (n - 1 - j)

theorem reverse_range (n : Nat) : (List.range n).reverse = (List.range n).map (n - 1 - ·) := by
  refine List.ext_getElem (by simp) fun i _ _ => ?_
  simp

/-- A bit of a word, found by shifting. -/
theorem testBit_shiftRight_word (v : UInt64) {k : Nat} (hk : k < 64) (i : Nat) :
    (v >>> UInt64.ofNat k).toNat.testBit i = v.toNat.testBit (k + i) := by
  have hsize : (UInt64.ofNat k).toNat = k := UInt64.toNat_ofNat_of_lt (hk.trans (by decide))
  rw [UInt64.toNat_shiftRight, hsize, Nat.mod_eq_of_lt hk, Nat.testBit_shiftRight]

/-- The lowest bit of a shifted word. -/
theorem lowest_shiftRight_word (v : UInt64) {k : Nat} (hk : k < 64) :
    ((v >>> UInt64.ofNat k) &&& 1 != 0) = v.toNat.testBit k := by
  rw [← Nat.add_zero k, ← testBit_shiftRight_word v hk, Nat.add_zero, Nat.testBit_zero]
  have hand : ((v >>> UInt64.ofNat k) &&& 1).toNat = (v >>> UInt64.ofNat k).toNat % 2 := by
    rw [UInt64.toNat_and, UInt64.toNat_one, Nat.and_one_is_mod]
  rw [Bool.eq_iff_iff, bne_iff_ne, ne_eq, ← UInt64.toNat_inj, hand, UInt64.toNat_zero,
    decide_eq_true_iff]
  omega

/-- A byte of a word has eight of its bits. -/
theorem bitsOfByte_shiftRight (v : UInt64) {i : Nat} (hi : i < 8) :
    bitsOfByte (v >>> UInt64.ofNat (8 * i)).toUInt8 =
      (List.range 8).map fun j => v.toNat.testBit (8 * i + (7 - j)) := by
  rw [bitsOfByte_eq_testBit]
  refine List.map_congr_left fun j _ => ?_
  rw [UInt64.toNat_toUInt8, Nat.testBit_mod_two_pow, testBit_shiftRight_word v (by omega)]
  simp
  omega

/-- The bytes of a word, the highest first, have its bits. -/
theorem flatMap_bytes_word (v : UInt64) {k : Nat} (hk : k ≤ 8) :
    ((List.range k).reverse.map fun i => (v >>> UInt64.ofNat (8 * i)).toUInt8).flatMap bitsOfByte =
      bitsOfWord v (8 * k) := by
  unfold bitsOfWord
  rw [reverse_range, List.map_map, List.flatMap_map, ← flatMap_range_eight]
  refine List.flatMap_congr fun i hi => ?_
  have hi := List.mem_range.1 hi
  rw [Function.comp_apply, bitsOfByte_shiftRight v (by omega)]
  refine List.map_congr_left fun j hj => ?_
  have hj := List.mem_range.1 hj
  congr 1
  omega

/-- The low bits of a byte are its bits. -/
theorem bitsOfWord_ofByte (byte : UInt8) :
    bitsOfWord (UInt64.ofNat byte.toNat) 8 = bitsOfByte byte := by
  rw [UInt64.ofNat_uInt8ToNat, bitsOfByte_eq_testBit]
  rfl

/-! ## Writers -/

namespace Writer

variable {w : Writer}

/-- A writer that has the bytes that its bits need, and no bit set after the last one written. -/
structure Sound (w : Writer) : Prop where
  /-- The bytes are as many as needed. -/
  size_eq : w.bytes.size = (w.size + 7) / 8
  /-- The rest of the last byte is clear. -/
  clear : ∀ i, w.size ≤ i → bufferBit w.bytes i = false

/-- A writer is sound before anything is written. -/
theorem sound_empty : empty.Sound where
  size_eq := rfl
  clear i _ := by simp [empty, bufferBit]

/-- A mask set in one byte of a buffer. -/
theorem bufferBit_modify {bytes : Array UInt8} {k : Nat} (hk : k < bytes.size) (mask : UInt8)
    (i : Nat) : bufferBit (bytes.modify k (· ||| mask)) i =
      (bufferBit bytes i || (decide (i / 8 = k) && mask.toNat.testBit (7 - i % 8))) := by
  unfold bufferBit
  by_cases h : i / 8 = k
  · subst h
    simp [Array.getD, hk, Array.getElem_modify]
  · have hne : ¬ k = i / 8 := fun heq => h heq.symm
    by_cases hi : i / 8 < bytes.size
    · simp [Array.getD, hi, h, Array.getElem_modify, hne]
    · simp [Array.getD, hi, h]

/-- Another byte at the end of a buffer, with no bit set, changes no bit. -/
theorem bufferBit_push_zero (bytes : Array UInt8) (i : Nat) :
    bufferBit (bytes.push 0) i = bufferBit bytes i := by
  unfold bufferBit
  rcases Nat.lt_trichotomy (i / 8) bytes.size with h | h | h
  · simp [Array.getD, h, Array.getElem_push, Nat.lt_succ_of_lt h]
  · simp [Array.getD, h]
  · simp [Array.getD, Nat.not_lt.2 (Nat.le_of_lt h), Nat.not_lt.2 (Nat.succ_le_of_lt h)]

/-- The mask for one bit of a byte has that bit and no other. -/
theorem testBit_mask {p q : Nat} (hp : p < 8) (hq : q < 8) :
    (UInt8.ofNat (1 <<< (7 - p))).toNat.testBit (7 - q) = decide (q = p) := by
  have hlt : 2 ^ (7 - p) < 2 ^ 8 := Nat.pow_lt_pow_right (by omega) (by omega)
  rw [UInt8.toNat_ofNat', Nat.one_shiftLeft, Nat.mod_eq_of_lt hlt, Nat.testBit_two_pow]
  exact decide_eq_decide.2 (by omega)

/-- Writing a bit sets it in the last byte, where it may be set already. -/
theorem bufferBit_push_or (hsize : w.bytes.size = (w.size + 7) / 8) (b : Bool) (i : Nat) :
    bufferBit (w.push b).bytes i =
      (bufferBit w.bytes i || (decide (i = w.size) && b)) := by
  unfold push
  dsimp only
  -- The bit goes to the last byte, which is a fresh one if the others are full.
  generalize hbytes : (if w.size % 8 = 0 then w.bytes.push 0 else w.bytes) = bytes
  have hlast : bytes.size - 1 = w.size / 8 ∧ w.size / 8 < bytes.size := by
    subst hbytes
    split
    · rw [Array.size_push]
      omega
    · omega
  have hkept : bufferBit bytes i = bufferBit w.bytes i := by
    subst hbytes
    split
    · exact bufferBit_push_zero w.bytes i
    · rfl
  rw [hlast.1, bufferBit_modify hlast.2, hkept]
  cases b with
  | false => simp
  | true =>
    have hplace : (decide (i / 8 = w.size / 8) && decide (i % 8 = w.size % 8)) =
        decide (i = w.size) := by
      rw [← Bool.decide_and]
      exact decide_eq_decide.2 (by omega)
    rw [if_pos rfl, testBit_mask (Nat.mod_lt _ (by omega)) (Nat.mod_lt _ (by omega)), hplace,
      Bool.and_true]

/-- A writer goes on to have the bytes that its bits need. -/
theorem size_push (hsize : w.bytes.size = (w.size + 7) / 8) (b : Bool) :
    (w.push b).bytes.size = ((w.push b).size + 7) / 8 := by
  simp only [push, Array.size_modify]
  split
  · rw [Array.size_push]
    omega
  · omega

/-- Writing a bit to a sound writer sets that bit and no other. -/
theorem bufferBit_push (h : w.Sound) (b : Bool) (i : Nat) :
    bufferBit (w.push b).bytes i = if i = w.size then b else bufferBit w.bytes i := by
  rw [bufferBit_push_or h.size_eq]
  by_cases hi : i = w.size
  · simp [hi, h.clear]
  · simp [hi]

/-- A sound writer stays sound when a bit is written. -/
theorem Sound.push (h : w.Sound) (b : Bool) : (w.push b).Sound where
  size_eq := size_push h.size_eq b
  clear i hi := by
    have hi' : w.size < i := hi
    rw [bufferBit_push h, if_neg (by omega), h.clear i (by omega)]

/-- What has been written is all there if there are the bytes that it needs. -/
theorem toList_toBitString (hsize : w.bytes.size = (w.size + 7) / 8) :
    w.toBitString.toList = (List.range w.size).map (bufferBit w.bytes) := by
  have hall : min w.size (8 * w.bytes.size) = w.size := Nat.min_eq_left (by omega)
  unfold toBitString ofBits toList bit
  simp only [hall, Nat.zero_add]

/-- A bit is written at the end. -/
theorem toList_push (h : w.Sound) (b : Bool) :
    (w.push b).toBitString.toList = w.toBitString.toList ++ [b] := by
  have hsize : (w.push b).size = w.size + 1 := rfl
  rw [toList_toBitString (h.push b).size_eq, toList_toBitString h.size_eq, hsize, List.range_succ,
    List.map_append]
  congr 1
  · refine List.map_congr_left fun i hi => ?_
    have hlt := List.mem_range.1 hi
    rw [bufferBit_push h, if_neg (by omega)]
  · simp [bufferBit_push h]

/-- A sound writer stays sound when bits are written. -/
theorem Sound.pushBits (h : w.Sound) (bits : List Bool) : (w.pushBits bits).Sound := by
  induction bits generalizing w with
  | nil => exact h
  | cons b bits ih => exact ih (h.push b)

/-- Bits are written at the end, in order. -/
theorem toList_pushBits (h : w.Sound) (bits : List Bool) :
    (w.pushBits bits).toBitString.toList = w.toBitString.toList ++ bits := by
  induction bits generalizing w with
  | nil => simp [Writer.pushBits]
  | cons b bits ih =>
    have hpushed := ih (h.push b)
    rw [toList_push h, List.append_assoc] at hpushed
    exact hpushed

/-- There are as many bits more as were written. -/
theorem size_pushBits (w : Writer) (bits : List Bool) :
    (w.pushBits bits).size = w.size + bits.length := by
  induction bits generalizing w with
  | nil => rfl
  | cons b bits ih =>
    have hpushed := ih (w.push b)
    rw [List.length_cons, Nat.add_comm bits.length, ← Nat.add_assoc]
    exact hpushed

/-- The bytes of a sound writer have the bits that were written, and clear bits behind them. -/
theorem Sound.flatMap_bytes (h : w.Sound) :
    w.bytes.toList.flatMap bitsOfByte =
      w.toBitString.toList ++ List.replicate ((8 - w.size % 8) % 8) false := by
  have hsize := h.size_eq
  have hbits : (8 * w.bytes.size) = w.size + (8 - w.size % 8) % 8 := by omega
  have hrest : ((List.range ((8 - w.size % 8) % 8)).map fun i => bufferBit w.bytes (w.size + i)) =
      List.replicate ((8 - w.size % 8) % 8) false := by
    refine List.eq_replicate_iff.2 ⟨by simp, fun bit hbit => ?_⟩
    obtain ⟨i, -, rfl⟩ := List.mem_map.1 hbit
    exact h.clear _ (Nat.le_add_right _ _)
  rw [flatMap_bitsOfByte_eq, toList_toBitString hsize, ← hrest, hbits, List.range_add,
    List.map_append, List.map_map]
  rfl

/-! ## Whole bytes at once -/

/-- Bits are written one list after the other. -/
theorem pushBits_append (w : Writer) (xs ys : List Bool) :
    w.pushBits (xs ++ ys) = (w.pushBits xs).pushBits ys := List.foldl_append

/-- A change to the last byte of a buffer. -/
theorem modify_last (bytes : Array UInt8) (byte : UInt8) (f : UInt8 → UInt8) :
    (bytes.push byte).modify bytes.size f = bytes.push (f byte) := by
  refine Array.ext (by simp) fun i hi hi' => ?_
  grind

/-- A byte with some bits set from a position on. -/
def fill (byte : UInt8) (p : Nat) : List Bool → UInt8
  | [] => byte
  | b :: bits => fill (byte ||| if b then UInt8.ofNat (1 <<< (7 - p)) else 0) (p + 1) bits

/-- Bits are written to the rest of the last byte. -/
theorem pushBits_partial {bytes : Array UInt8} {byte : UInt8} {n : Nat} (hn : n % 8 ≠ 0)
    {bits : List Bool} (hbits : n % 8 + bits.length ≤ 8) :
    pushBits ⟨bytes.push byte, n⟩ bits =
      ⟨bytes.push (fill byte (n % 8) bits), n + bits.length⟩ := by
  induction bits generalizing byte n with
  | nil => rfl
  | cons b bits ih =>
    have hpush : push ⟨bytes.push byte, n⟩ b =
        ⟨bytes.push (byte ||| if b then UInt8.ofNat (1 <<< (7 - n % 8)) else 0), n + 1⟩ := by
      simp only [push, if_neg hn, Array.size_push, Nat.add_sub_cancel, modify_last]
    rw [List.length_cons] at hbits
    show pushBits (push _ b) bits = _
    rw [hpush]
    cases bits with
    | nil => rfl
    | cons b' bits =>
      rw [List.length_cons] at hbits
      have hnext : (n + 1) % 8 = n % 8 + 1 := by omega
      rw [ih (by omega) (by rw [List.length_cons]; omega), hnext, List.length_cons (a := b),
        Nat.add_right_comm, ← Nat.add_assoc]
      rfl

/-- Bits are written to a fresh byte where the others are full. -/
theorem pushBits_fresh (h : w.size % 8 = 0) {b : Bool} {bits : List Bool}
    (hbits : bits.length < 8) :
    w.pushBits (b :: bits) = ⟨w.bytes.push (fill 0 0 (b :: bits)), w.size + (bits.length + 1)⟩ := by
  have hpush : w.push b =
      ⟨w.bytes.push ((0 : UInt8) ||| if b then UInt8.ofNat (1 <<< (7 - 0)) else 0),
        w.size + 1⟩ := by
    simp only [push, h, if_true, Array.size_push, Nat.add_sub_cancel, modify_last]
  show pushBits (w.push b) bits = _
  have hnext : (w.size + 1) % 8 = 1 := by omega
  rw [hpush, pushBits_partial (by omega) (by omega), hnext, Nat.add_assoc, Nat.add_comm 1]
  rfl

/-- The bits of a byte fill it. -/
theorem fill_bitsOfByte (byte : UInt8) : fill 0 0 (bitsOfByte byte) = byte := by
  have hall : ∀ n < 256, fill 0 0 (bitsOfByte (UInt8.ofNat n)) = UInt8.ofNat n := by
    decide +kernel
  have hbyte := hall byte.toNat byte.toNat_lt
  rwa [UInt8.ofNat_toNat] at hbyte

/-- Eight bits are written as one byte where the others are full. -/
theorem pushBits_bitsOfByte (h : w.size % 8 = 0) (byte : UInt8) :
    w.pushBits (bitsOfByte byte) = ⟨w.bytes.push byte, w.size + 8⟩ := by
  have hfill := fill_bitsOfByte byte
  have hlength : (bitsOfByte byte).length = 8 := by simp [bitsOfByte]
  cases hbits : bitsOfByte byte with
  | nil => simp [hbits] at hlength
  | cons b bits =>
    rw [hbits] at hfill hlength
    rw [List.length_cons] at hlength
    rw [pushBits_fresh h (by omega), hfill, hlength]

/-- Bits are written as whole bytes where the others are full. -/
theorem pushBits_flatMap_bitsOfByte (h : w.size % 8 = 0) (bytes : List UInt8) :
    w.pushBits (bytes.flatMap bitsOfByte) =
      ⟨w.bytes ++ bytes.toArray, w.size + 8 * bytes.length⟩ := by
  induction bytes generalizing w with
  | nil => simp [pushBits]
  | cons byte bytes ih =>
    rw [List.flatMap_cons, pushBits_append, pushBits_bitsOfByte h, ih (by simp only; omega)]
    simp only [List.length_cons, Writer.mk.injEq]
    refine ⟨Array.toList_inj.1 (by simp), by omega⟩

/-- A number is written by its bits, at once or one by one. -/
theorem pushWord_eq (w : Writer) (v : UInt64) {n : Nat} (hn : n ≤ 64) :
    w.pushWord v n = w.pushBits (bitsOfWord v n) := by
  unfold pushWord
  split
  · rename_i haligned
    have hcount : 8 * (n / 8) = n := by omega
    have hbits := pushBits_flatMap_bitsOfByte haligned.1
      ((List.range (n / 8)).reverse.map fun i => (v >>> UInt64.ofNat (8 * i)).toUInt8)
    rw [flatMap_bytes_word v (by omega), hcount] at hbits
    rw [hbits]
    simp [hcount]
  · congr 1
    rw [reverse_range, List.map_map]
    refine List.map_congr_left fun j hj => ?_
    exact lowest_shiftRight_word v (show n - 1 - j < 64 by omega)

/-- Bytes are written by their bits. -/
theorem pushBytes_eq (w : Writer) (bytes : List UInt8) :
    w.pushBytes bytes = w.pushBits (bytes.flatMap bitsOfByte) := by
  unfold pushBytes
  split
  · rename_i haligned
    exact (pushBits_flatMap_bitsOfByte haligned bytes).symm
  · rename_i hpartial
    clear hpartial
    induction bytes generalizing w with
    | nil => rfl
    | cons byte bytes ih =>
      rw [List.foldl_cons, ih, pushNumber, pushWord_eq w _ (by omega), bitsOfWord_ofByte,
        List.flatMap_cons, pushBits_append]

/-- A bit string is written by its bits. -/
theorem pushBitString_eq (w : Writer) (b : BitString) :
    w.pushBitString b = w.pushBits b.toList := by
  unfold pushBitString
  split
  · rename_i bytes haligned
    rw [pushBytes_eq, flatMap_alignedBytes? haligned]
  · rfl

/-- A copy of a bit string is written by its bits. -/
theorem copy_eq (b : BitString) : copy b = empty.pushBits b.toList := pushBitString_eq empty b

/-- A copy is sound. -/
theorem sound_copy (b : BitString) : (copy b).Sound := by
  rw [copy_eq]
  exact sound_empty.pushBits b.toList

/-- A copy has the same bits. -/
theorem toList_copy (b : BitString) : (copy b).toBitString.toList = b.toList := by
  rw [copy_eq]
  exact toList_pushBits sound_empty b.toList

/-! ## One addition after another -/

/-- What can be added to a writer. A word has no more than 64 bits to add. -/
inductive Addition where
  /-- One bit. -/
  | bit (b : Bool)
  /-- The low bits of a word. -/
  | word (v : UInt64) (n : Nat) (h : n ≤ 64)
  /-- Whole bytes. -/
  | bytes (l : List UInt8)
  /-- A bit string, wherever it stands in its buffer. -/
  | bitString (b : BitString)

/-- The bits of an addition. -/
def Addition.bits : Addition → List Bool
  | bit b => [b]
  | word v n _ => bitsOfWord v n
  | bytes l => l.flatMap bitsOfByte
  | bitString b => b.toList

/-- Adds at the end. -/
def add (w : Writer) : Addition → Writer
  | .bit b => w.push b
  | .word v n _ => w.pushWord v n
  | .bytes l => w.pushBytes l
  | .bitString b => w.pushBitString b

/-- An addition is written by its bits, whether or not it goes byte by byte. -/
theorem add_eq (w : Writer) (a : Addition) : w.add a = w.pushBits a.bits := by
  cases a with
  | bit b => rfl
  | word v n h => exact pushWord_eq w v h
  | bytes l => exact pushBytes_eq w l
  | bitString b => exact pushBitString_eq w b

/-- Additions one after the other are written by their bits. -/
theorem foldl_add_eq (w : Writer) (additions : List Addition) :
    additions.foldl add w = w.pushBits (additions.flatMap Addition.bits) := by
  induction additions generalizing w with
  | nil => rfl
  | cons a additions ih => rw [List.foldl_cons, ih, add_eq, List.flatMap_cons, pushBits_append]

/-- Whatever is added to a fresh writer, in whatever order, the buffer has just the bytes that the
bits need, and the bits of these bytes are those of the additions, one after the other, and then
clear ones up to the end of the last byte. -/
theorem additions_fill_buffer (additions : List Addition) :
    (additions.foldl add empty).size = (additions.flatMap Addition.bits).length ∧
      (additions.foldl add empty).bytes.size = ((additions.foldl add empty).size + 7) / 8 ∧
      (additions.foldl add empty).bytes.toList.flatMap bitsOfByte =
        additions.flatMap Addition.bits ++
          List.replicate ((8 - (additions.foldl add empty).size % 8) % 8) false := by
  have hsound : (additions.foldl add empty).Sound := by
    rw [foldl_add_eq]
    exact sound_empty.pushBits _
  have hsize : (additions.foldl add empty).size = (additions.flatMap Addition.bits).length := by
    rw [foldl_add_eq, size_pushBits]
    exact Nat.zero_add _
  have hbits : (additions.foldl add empty).toBitString.toList =
      additions.flatMap Addition.bits := by
    rw [foldl_add_eq]
    exact toList_pushBits sound_empty _
  refine ⟨hsize, hsound.size_eq, ?_⟩
  rw [hsound.flatMap_bytes, hbits]

end Writer

/-! ## Packing into bytes -/

/-- The bytes of a bit string have its bits, and clear bits up to the end of the last byte. -/
theorem flatMap_toBytes (b : BitString) :
    b.toBytes.flatMap bitsOfByte =
      b.toList ++ List.replicate ((8 - b.size % 8) % 8) false := by
  unfold toBytes
  split
  case h_1 bytes haligned =>
    obtain ⟨⟨-, hsize⟩, -⟩ := Option.ite_none_right_eq_some.1 haligned
    rw [flatMap_alignedBytes? haligned, hsize]
    simp
  case h_2 =>
    have hsize : (Writer.copy b).size = b.size := by
      rw [Writer.copy_eq, Writer.size_pushBits, length_toList]
      exact Nat.zero_add _
    rw [(Writer.sound_copy b).flatMap_bytes, Writer.toList_copy, hsize]

/-- The bytes are as many as the bits need. -/
theorem length_toBytes (b : BitString) : b.toBytes.length = (b.size + 7) / 8 := by
  have hlength := congrArg List.length (flatMap_toBytes b)
  rw [length_flatMap_bitsOfByte, List.length_append, length_toList,
    List.length_replicate] at hlength
  omega

/-- Bit strings with the same bits have the same bytes. -/
theorem toBytes_congr {a b : BitString} (h : a.toList = b.toList) : a.toBytes = b.toBytes := by
  have hsize : a.size = b.size := by rw [← length_toList a, h, length_toList]
  refine flatMap_bitsOfByte_injective ?_
  rw [flatMap_toBytes, flatMap_toBytes, h, hsize]

/-! ## Cursors -/

namespace Cursor

/-- The bits ahead of a cursor. -/
def ahead (c : Cursor) : List Bool := c.subject.toList.drop c.offset

/-- A cursor at the beginning has all bits ahead. -/
theorem ahead_ofBitString (b : BitString) (slots : Nat) : (ofBitString b slots).ahead = b.toList :=
  rfl

theorem length_ahead (c : Cursor) : c.ahead.length = c.remaining := by simp [ahead, remaining]

/-- The next bits are the first of those ahead. -/
theorem toList_peek (c : Cursor) (n : Nat) : (c.peek n).toList = c.ahead.take n :=
  toList_slice c.subject c.offset n

/-- A cursor that moves on leaves bits behind. -/
theorem ahead_advance (c : Cursor) (n : Nat) : (c.advance n).ahead = c.ahead.drop n := by
  simp [ahead, advance]

end Cursor

end ErlangMachine.BitString
