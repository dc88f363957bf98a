import ErlangMachine.Proofs.BuiltSegments

/-!
# Cursors stay inside their bit string

A cursor can be asked to read, to pass over bits, to test what remains, to remember a position and
to come back to one, and to begin anew. Whatever it is asked, in whatever order, all of its
positions stay inside the bit string, a request that it refuses leaves it as it was, and nothing
that it does depends on what stands around the window in the buffer.

Reading is the same for all kinds of values: either something is found and the cursor moves on, by
no more than remains, or nothing is found and the cursor stands where it stood (`Takes`). Reading a
float or a character moves the cursor before the value is checked, so there it has to be shown that
the way back leads to the same place. All requests together can do six things to a cursor (`Leads`),
and the bounds follow from these. That the buffer around the window does not matter is a relation
between two cursors with the same bits (`Alike`), which every request keeps.
-/

namespace ErlangMachine.BitString.Cursor

variable {α : Type} {c : Cursor}

/-! ## Requests -/

/-- What a cursor can be asked to do. -/
inductive Request where
  /-- Read an integer of `n` bits. -/
  | integer (n : Nat) (flags : UInt16)
  /-- Read a float of `n` bits. -/
  | float (n : Nat) (flags : UInt16)
  /-- Take a bit string of `n` bits, or all that is left if it is made of whole units. -/
  | bits (n : Option Nat) (unit : Nat)
  /-- Pass over `n` bits, or all that is left if it is made of whole units. -/
  | skip (n : Option Nat) (unit : Nat)
  /-- Test that `n` bits are left. -/
  | testTail (n : Nat)
  /-- Test that whole units are left. -/
  | testUnit (unit : Nat)
  /-- Pass over given bits. -/
  | literal (expected : BitString)
  /-- Read a code point in UTF-8. -/
  | utf8
  /-- Read a code point in UTF-16. -/
  | utf16 (flags : UInt16)
  /-- Read a code point in UTF-32. -/
  | utf32 (flags : UInt16)
  /-- Remember the position in a slot. -/
  | save (slot : Int)
  /-- Come back to the position in a slot. -/
  | restore (slot : Int)
  /-- Begin anew at the present position with fresh slots. -/
  | restart (slots : Nat)

/-- What comes of a request. Of a bit string that was taken, its bits are shown. -/
inductive Reply where
  /-- Nothing was found, or a test does not hold. -/
  | refused
  /-- It is done, or a test holds. -/
  | done
  /-- An integer. -/
  | integer (v : Int64)
  /-- A float. -/
  | float (x : Binary64)
  /-- Bits. -/
  | bits (bits : List Bool)
  /-- A character. -/
  | char (c : Char)
  deriving DecidableEq

/-- The reply to a request that reads. -/
def replyRead {α : Type} (reply : α → Reply) : Option α × Cursor → Reply × Cursor
  | (some a, next) => (reply a, next)
  | (none, next) => (.refused, next)

/-- The reply to a request that moves the cursor or refuses to. -/
def replyMoved (c : Cursor) : Option Cursor → Reply × Cursor
  | some next => (.done, next)
  | none => (.refused, c)

/-- The reply to a test. -/
def replyTest (c : Cursor) (holds : Bool) : Reply × Cursor := (if holds then .done else .refused, c)

/-- What comes of a request, and the cursor after it. -/
def answer (c : Cursor) : Request → Reply × Cursor
  | .integer n flags => replyRead .integer (c.takeInteger n (.ofFlags flags))
  | .float n flags => replyRead .float (c.takeFloat n (.ofFlags flags))
  | .bits n unit => replyRead (fun b => .bits b.toList) (c.orStay (c.bitString? n unit))
  | .skip n unit => c.replyMoved (c.skip? n unit)
  | .testTail n => c.replyTest (c.testTail n)
  | .testUnit unit => c.replyTest (c.testUnit unit)
  | .literal expected => c.replyMoved (c.literal? expected)
  | .utf8 => replyRead .char (c.orStay c.utf8?)
  | .utf16 flags => replyRead .char (c.takeUtf16 (.ofFlags flags))
  | .utf32 flags => replyRead .char (c.takeUtf32 (.ofFlags flags))
  | .save slot => c.replyMoved (c.save? slot)
  | .restore slot => c.replyMoved (c.restore? slot)
  | .restart slots => (.done, c.restart slots)

/-- What comes of requests one after the other, and the cursor after them. -/
def answerAll (c : Cursor) : List Request → List Reply × Cursor
  | [] => ([], c)
  | request :: requests =>
    let (reply, next) := c.answer request
    let (replies, last) := next.answerAll requests
    (reply :: replies, last)

/-! ## Reading -/

/-- Something is read and the cursor moves on inside the bit string, or nothing is read and the
cursor stays. -/
inductive Takes {α : Type} (c : Cursor) : Option α × Cursor → Prop where
  /-- Something is read. -/
  | found (a : α) {n : Nat} (h : n ≤ c.remaining) : Takes c (some a, c.advance n)
  /-- Nothing is read. -/
  | nothing : Takes c (none, c)

theorem remaining_advance (c : Cursor) (n : Nat) : (c.advance n).remaining = c.remaining - n := by
  simp only [remaining, advance]
  omega

/-- Reading a result that comes with the moved cursor. -/
theorem takes_orStay {found : Option (α × Cursor)}
    (h : ∀ a next, found = some (a, next) → ∃ n, n ≤ c.remaining ∧ next = c.advance n) :
    Takes c (c.orStay found) := by
  cases found with
  | none => exact .nothing
  | some r =>
    obtain ⟨a, next⟩ := r
    obtain ⟨n, hn, rfl⟩ := h a next rfl
    exact .found a hn

/-- Reading an integer. -/
theorem takes_integer (c : Cursor) (n : Nat) (e : Encoding) : Takes c (c.takeInteger n e) := by
  refine takes_orStay fun v next h => ?_
  unfold integer? at h
  split at h
  case isTrue => cases h
  case isFalse hlong =>
    obtain ⟨w, -, heq⟩ := Option.map_eq_some_iff.1 h
    exact ⟨n, Nat.not_lt.1 hlong, (Prod.mk.inj heq).2.symm⟩

/-- Reading a float. The cursor is behind the bits when they are found to be no finite number. -/
theorem takes_float (c : Cursor) (n : Nat) (e : Encoding) : Takes c (c.takeFloat n e) := by
  have hinteger := takes_integer c n e.unsigned
  unfold takeFloat
  split
  case isTrue =>
    generalize c.takeInteger n e.unsigned = result at hinteger
    cases hinteger with
    | found raw hm =>
      dsimp only
      generalize (if n = 32 then Binary64.ofSingleBits raw.toInt.toNat
        else ⟨UInt64.ofNat raw.toInt.toNat⟩) = value
      split
      · exact .found value hm
      · exact .nothing
    | nothing => exact .nothing
  case isFalse => exact .nothing

/-- A segment is not longer than what remains. -/
theorem le_remaining_of_segment? {n : Option Nat} {unit k : Nat} (h : c.segment? n unit = some k) :
    k ≤ c.remaining := by
  unfold segment? at h
  split at h
  · split at h
    case isTrue hle => exact Option.some.inj h ▸ hle
    case isFalse => cases h
  · split at h
    case isTrue => exact (Option.some.inj h).ge
    case isFalse => cases h

/-- Taking a bit string. -/
theorem takes_bits (c : Cursor) (n : Option Nat) (unit : Nat) :
    Takes c (c.orStay (c.bitString? n unit)) := by
  refine takes_orStay fun b next h => ?_
  obtain ⟨k, hk, heq⟩ := Option.map_eq_some_iff.1 h
  exact ⟨k, le_remaining_of_segment? hk, (Prod.mk.inj heq).2.symm⟩

/-- Reading a code point in UTF-8. -/
theorem takes_utf8 (c : Cursor) : Takes c (c.orStay c.utf8?) := by
  refine takes_orStay fun ch next h => ?_
  unfold utf8? at h
  split at h
  case isTrue => cases h
  case isFalse =>
    obtain ⟨length, -, h⟩ := Option.bind_eq_some_iff.1 h
    split at h
    case isTrue => cases h
    case isFalse hlong =>
      obtain ⟨ch', -, heq⟩ := Option.map_eq_some_iff.1 h
      exact ⟨8 * length, Nat.not_lt.1 hlong, (Prod.mk.inj heq).2.symm⟩

/-- The units of a code point in UTF-16 are read inside the bit string, and as many as there are. -/
theorem takeUnits16_eq (c : Cursor) (e : Encoding) :
    ∃ units n, n ≤ c.remaining ∧ c.takeUnits16 e = (units, c.advance n) := by
  have hfirst := takes_integer c 16 e.unsigned
  unfold takeUnits16
  generalize c.takeInteger 16 e.unsigned = result at hfirst
  cases hfirst with
  | nothing => exact ⟨none, 0, Nat.zero_le _, rfl⟩
  | @found first m hm =>
    dsimp only
    split
    · -- The second unit is read behind the first one, within what is left there.
      have hsecond := takes_integer (c.advance m) 16 e.unsigned
      generalize (c.advance m).takeInteger 16 e.unsigned = result at hsecond
      cases hsecond with
      | nothing => exact ⟨none, m, hm, rfl⟩
      | @found second k hk =>
        rw [remaining_advance] at hk
        exact ⟨_, m + k, by omega, by rw [advance_advance]⟩
    · exact ⟨_, m, hm, rfl⟩

/-- Reading a code point in UTF-16. The cursor may be behind one unit or behind two when they are
found to make no code point. -/
theorem takes_utf16 (c : Cursor) (e : Encoding) : Takes c (c.takeUtf16 e) := by
  obtain ⟨units, n, hn, hunits⟩ := takeUnits16_eq c e
  unfold takeUtf16
  rw [hunits]
  dsimp only
  split
  · exact .found _ hn
  · exact .nothing

/-- Reading a code point in UTF-32. -/
theorem takes_utf32 (c : Cursor) (e : Encoding) : Takes c (c.takeUtf32 e) := by
  have hinteger := takes_integer c 32 e.unsigned
  unfold takeUtf32
  generalize c.takeInteger 32 e.unsigned = result at hinteger
  cases hinteger with
  | nothing => exact .nothing
  | found v hm =>
    dsimp only
    split
    · exact .found _ hm
    · exact .nothing

/-! ## What requests do to a cursor -/

/-- The ways in which a request leaves a cursor. -/
inductive Leads (c : Cursor) : Cursor → Prop where
  /-- It stays as it is. -/
  | stay : Leads c c
  /-- It moves on, by no more than remains. -/
  | onward {n : Nat} (h : n ≤ c.remaining) : Leads c (c.advance n)
  /-- Its position becomes the one where matching began. -/
  | marked : Leads c { c with origin := c.offset }
  /-- Its position is remembered. -/
  | remembered (i : Nat) : Leads c { c with saved := c.saved.set i c.offset }
  /-- It comes back to a position that it remembers. -/
  | back {p : Nat} (h : p ∈ c.origin :: c.saved) : Leads c (c.moveTo p)
  /-- It begins anew. -/
  | anew (slots : Nat) : Leads c (c.restart slots)

/-- Reading leaves a cursor where it was or further on. -/
theorem Takes.leads {result : Option α × Cursor} (h : Takes c result) (reply : α → Reply) :
    Leads c (replyRead reply result).2 := by
  cases h with
  | found a hn => exact .onward hn
  | nothing => exact .stay

/-- A request that reads is refused only if nothing was read. -/
theorem Takes.refused {result : Option α × Cursor} (h : Takes c result) {reply : α → Reply}
    (hreply : ∀ a, reply a ≠ .refused) (hrefused : (replyRead reply result).1 = .refused) :
    (replyRead reply result).2 = c := by
  cases h with
  | found a hn => exact absurd hrefused (hreply a)
  | nothing => rfl

/-- A request that may move a cursor leads to where it moves it, if it does. -/
theorem leads_replyMoved {next : Option Cursor} (h : ∀ d, next = some d → Leads c d) :
    Leads c (c.replyMoved next).2 := by
  cases next with
  | none => exact .stay
  | some d => exact h d rfl

/-- A request that may move a cursor does not move it if it is refused. -/
theorem replyMoved_refused {next : Option Cursor} (h : (c.replyMoved next).1 = .refused) :
    (c.replyMoved next).2 = c := by
  cases next with
  | none => rfl
  | some d => cases h

/-- Everything that a request can do to a cursor. -/
theorem leads_answer (c : Cursor) (request : Request) : Leads c (c.answer request).2 := by
  cases request with
  | integer n flags => exact (takes_integer c n _).leads _
  | float n flags => exact (takes_float c n _).leads _
  | bits n unit => exact (takes_bits c n unit).leads _
  | utf8 => exact (takes_utf8 c).leads _
  | utf16 flags => exact (takes_utf16 c _).leads _
  | utf32 flags => exact (takes_utf32 c _).leads _
  | testTail n => exact .stay
  | testUnit unit => exact .stay
  | restart slots => exact .anew slots
  | skip n unit =>
    refine leads_replyMoved fun d h => ?_
    obtain ⟨k, hk, rfl⟩ := Option.map_eq_some_iff.1 h
    exact .onward (le_remaining_of_segment? hk)
  | literal expected =>
    refine leads_replyMoved fun d h => ?_
    unfold literal? at h
    split at h
    case isTrue hsame => exact Option.some.inj h ▸ .onward hsame.1
    case isFalse => cases h
  | save slot =>
    refine leads_replyMoved fun d h => ?_
    unfold save? at h
    split at h
    · exact Option.some.inj h ▸ .marked
    · cases h
    · split at h
      case isTrue => exact Option.some.inj h ▸ .remembered _
      case isFalse => cases h
  | restore slot =>
    refine leads_replyMoved fun d h => ?_
    unfold restore? at h
    split at h
    · exact Option.some.inj h ▸ .back List.mem_cons_self
    · cases h
    · obtain ⟨p, hp, rfl⟩ := Option.map_eq_some_iff.1 h
      exact .back (List.mem_cons_of_mem _ (List.mem_of_getElem? hp))

/-- A request that is refused leaves the cursor as it was. -/
theorem answer_refused (c : Cursor) (request : Request) (h : (c.answer request).1 = .refused) :
    (c.answer request).2 = c := by
  cases request with
  | integer n flags => exact (takes_integer c n _).refused (fun _ => by simp) h
  | float n flags => exact (takes_float c n _).refused (fun _ => by simp) h
  | bits n unit => exact (takes_bits c n unit).refused (fun _ => by simp) h
  | utf8 => exact (takes_utf8 c).refused (fun _ => by simp) h
  | utf16 flags => exact (takes_utf16 c _).refused (fun _ => by simp) h
  | utf32 flags => exact (takes_utf32 c _).refused (fun _ => by simp) h
  | testTail n => rfl
  | testUnit unit => rfl
  | restart slots => cases h
  | skip n unit | literal expected | save slot | restore slot => exact replyMoved_refused h

/-! ## Bounds -/

/-- All positions of a cursor lie inside its bit string or at its end. -/
structure InBounds (c : Cursor) : Prop where
  /-- The position of the next bit. -/
  offset_le : c.offset ≤ c.subject.size
  /-- The position where matching began. -/
  origin_le : c.origin ≤ c.subject.size
  /-- The remembered positions. -/
  saved_le : ∀ p ∈ c.saved, p ≤ c.subject.size

/-- A new cursor is in bounds. -/
theorem inBounds_ofBitString (b : BitString) (slots : Nat) : (ofBitString b slots).InBounds where
  offset_le := Nat.zero_le _
  origin_le := Nat.zero_le _
  saved_le p hp := by
    obtain rfl := List.eq_of_mem_replicate hp
    exact Nat.zero_le _

/-- What remains and what was passed make up the bit string. -/
theorem InBounds.offset_add_remaining (h : c.InBounds) :
    c.offset + c.remaining = c.subject.size := by
  have hoffset := h.offset_le
  unfold remaining
  omega

/-- The position from which a cursor gives its bit string back: the first that is remembered, or the
one where matching began if there are no slots. -/
def first (c : Cursor) : Nat := c.saved.head?.getD c.origin

/-- The first position is in bounds. -/
theorem InBounds.first_le (h : c.InBounds) : c.first ≤ c.subject.size := by
  cases hsaved : c.saved with
  | nil => simpa [first, hsaved] using h.origin_le
  | cons p ps => simpa [first, hsaved] using h.saved_le p (by simp [hsaved])

/-- The bits that a cursor gives back. -/
theorem toList_toBitString (c : Cursor) : c.toBitString.toList = c.subject.toList.drop c.first := by
  have hall : (c.subject.toList.drop c.first).length ≤ c.subject.size - c.first := by simp
  rw [← List.take_of_length_le hall]
  exact toList_slice c.subject c.first _

/-- No request leads out of bounds or to another bit string. -/
theorem Leads.inBounds {d : Cursor} (h : Leads c d) (hc : c.InBounds) :
    d.InBounds ∧ d.subject = c.subject := by
  obtain ⟨hoffset, horigin, hsaved⟩ := hc
  cases h with
  | stay => exact ⟨⟨hoffset, horigin, hsaved⟩, rfl⟩
  | @onward n hn =>
    have hinside : c.offset + n ≤ c.subject.size := by
      unfold remaining at hn
      omega
    exact ⟨⟨hinside, horigin, hsaved⟩, rfl⟩
  | marked => exact ⟨⟨hoffset, hoffset, hsaved⟩, rfl⟩
  | remembered i =>
    refine ⟨⟨hoffset, horigin, fun p hp => ?_⟩, rfl⟩
    rcases List.mem_or_eq_of_mem_set hp with hp | rfl
    · exact hsaved p hp
    · exact hoffset
  | @back p hp =>
    refine ⟨⟨?_, horigin, hsaved⟩, rfl⟩
    rcases List.mem_cons.1 hp with rfl | hp
    · exact horigin
    · exact hsaved p hp
  | anew slots =>
    refine ⟨⟨hoffset, hoffset, fun p hp => ?_⟩, rfl⟩
    obtain rfl := List.eq_of_mem_replicate hp
    exact hoffset

/-- A cursor stays in bounds through any requests. -/
theorem inBounds_answerAll (hc : c.InBounds) (requests : List Request) :
    (c.answerAll requests).2.InBounds ∧ (c.answerAll requests).2.subject = c.subject := by
  induction requests generalizing c with
  | nil => exact ⟨hc, rfl⟩
  | cons request requests ih =>
    obtain ⟨hnext, hsubject⟩ := (leads_answer c request).inBounds hc
    obtain ⟨hlast, hsame⟩ := ih hnext
    exact ⟨hlast, hsame.trans hsubject⟩

/-! ## What stands around the window -/

/-- Two cursors at the same positions over the same bits. The buffers may hold anything else around
these bits, and the bits may stand anywhere in them. -/
structure Alike (c d : Cursor) : Prop where
  /-- The bits inside the windows. -/
  bits : c.subject.toList = d.subject.toList
  /-- The positions of the next bit. -/
  offset : c.offset = d.offset
  /-- The positions where matching began. -/
  origin : c.origin = d.origin
  /-- The remembered positions. -/
  saved : c.saved = d.saved

/-- The same result, and cursors that are alike. -/
inductive AlikeAfter {ρ : Type} : ρ × Cursor → ρ × Cursor → Prop where
  /-- Any result. -/
  | intro (result : ρ) {c d : Cursor} (h : Alike c d) : AlikeAfter (result, c) (result, d)

namespace Alike

variable {c d : Cursor} (h : Alike c d)

include h

/-- The same bits stand ahead. -/
theorem ahead : c.ahead = d.ahead := by rw [Cursor.ahead, Cursor.ahead, h.bits, h.offset]

theorem remaining : c.remaining = d.remaining := by rw [← length_ahead, ← length_ahead, h.ahead]

theorem advance (n : Nat) : Alike (c.advance n) (d.advance n) :=
  ⟨h.bits, by simp only [Cursor.advance, h.offset], h.origin, h.saved⟩

theorem moveTo (p : Nat) : Alike (c.moveTo p) (d.moveTo p) := ⟨h.bits, rfl, h.origin, h.saved⟩

theorem restart (slots : Nat) : Alike (c.restart slots) (d.restart slots) :=
  ⟨h.bits, h.offset, h.offset, by simp only [Cursor.restart, h.offset]⟩

/-- The same bytes stand ahead. -/
theorem byte {i : Nat} (hi : 8 * (i + 1) ≤ c.remaining) : c.byte i = d.byte i := by
  refine bitsOfByte_injective ?_
  rw [bitsOfByte_byte hi, bitsOfByte_byte (h.remaining ▸ hi), h.ahead]

/-- The same integer is read. -/
theorem takeInteger (n : Nat) (e : Encoding) :
    AlikeAfter (c.takeInteger n e) (d.takeInteger n e) := by
  unfold Cursor.takeInteger
  rw [integer?_eq_ofInt?, integer?_eq_ofInt?, toList_peek, toList_peek, h.ahead, h.remaining]
  split
  · exact .intro _ h
  · cases Integer.ofInt? (e.toInt (d.ahead.take n)) with
    | none => exact .intro _ h
    | some v => exact .intro _ (h.advance n)

/-- The same float is read. -/
theorem takeFloat (n : Nat) (e : Encoding) : AlikeAfter (c.takeFloat n e) (d.takeFloat n e) := by
  have hraw := h.takeInteger n e.unsigned
  unfold Cursor.takeFloat
  rw [h.offset]
  split
  · generalize c.takeInteger n e.unsigned = r, d.takeInteger n e.unsigned = s at hraw
    cases hraw with
    | intro found hnext =>
      cases found with
      | none => exact .intro _ hnext
      | some raw =>
        dsimp only
        generalize (if n = 32 then Binary64.ofSingleBits raw.toInt.toNat
          else ⟨UInt64.ofNat raw.toInt.toNat⟩) = value
        split
        · exact .intro _ hnext
        · exact .intro _ (hnext.moveTo _)
  · exact .intro _ h

/-- The same code point is read in UTF-8. -/
theorem takeUtf8 : AlikeAfter (c.orStay c.utf8?) (d.orStay d.utf8?) := by
  unfold utf8?
  rw [← h.remaining]
  split
  case isTrue => exact .intro _ h
  case isFalse hlong =>
    rw [← h.byte (by omega)]
    cases Unicode.length8? (c.byte 0) with
    | none => exact .intro _ h
    | some length =>
      simp only [Option.bind_some]
      split
      case isTrue => exact .intro _ h
      case isFalse hall =>
        -- Every byte up to the announced length lies inside the window.
        have hbytes : (List.range length).map c.byte = (List.range length).map d.byte := by
          refine List.map_congr_left fun i hi => h.byte ?_
          have hi := List.mem_range.1 hi
          omega
        rw [hbytes]
        cases Unicode.decode8? ((List.range length).map d.byte) with
        | none => exact .intro _ h
        | some char => exact .intro _ (h.advance _)

/-- The same units are read in UTF-16. -/
theorem takeUnits16 (e : Encoding) : AlikeAfter (c.takeUnits16 e) (d.takeUnits16 e) := by
  have hfirst := h.takeInteger 16 e.unsigned
  unfold Cursor.takeUnits16
  generalize c.takeInteger 16 e.unsigned = r, d.takeInteger 16 e.unsigned = s at hfirst
  cases hfirst with
  | @intro found next next' hnext =>
    cases found with
    | none => exact .intro _ hnext
    | some first =>
      dsimp only
      split
      · have hsecond := hnext.takeInteger 16 e.unsigned
        generalize next.takeInteger 16 e.unsigned = r,
          next'.takeInteger 16 e.unsigned = s at hsecond
        cases hsecond with
        | intro found hlast => cases found <;> exact .intro _ hlast
      · exact .intro _ hnext

/-- The same code point is read in UTF-16. -/
theorem takeUtf16 (e : Encoding) : AlikeAfter (c.takeUtf16 e) (d.takeUtf16 e) := by
  have hunits := h.takeUnits16 e
  unfold Cursor.takeUtf16
  rw [h.offset]
  generalize c.takeUnits16 e = r, d.takeUnits16 e = s at hunits
  cases hunits with
  | intro units hlast =>
    dsimp only
    split
    · exact .intro _ hlast
    · exact .intro _ (hlast.moveTo _)

/-- The same code point is read in UTF-32. -/
theorem takeUtf32 (e : Encoding) : AlikeAfter (c.takeUtf32 e) (d.takeUtf32 e) := by
  have hraw := h.takeInteger 32 e.unsigned
  unfold Cursor.takeUtf32
  rw [h.offset]
  generalize c.takeInteger 32 e.unsigned = r, d.takeInteger 32 e.unsigned = s at hraw
  cases hraw with
  | intro found hnext =>
    cases found with
    | none => exact .intro _ hnext
    | some v =>
      dsimp only
      split
      · exact .intro _ hnext
      · exact .intro _ (hnext.moveTo _)

/-- Segments have the same size. -/
theorem segment? (n : Option Nat) (unit : Nat) : c.segment? n unit = d.segment? n unit := by
  unfold Cursor.segment?
  rw [h.remaining]

/-- The same bits are taken. -/
theorem takeBits (n : Option Nat) (unit : Nat) :
    AlikeAfter (replyRead (fun b : BitString => .bits b.toList) (c.orStay (c.bitString? n unit)))
      (replyRead (fun b : BitString => .bits b.toList) (d.orStay (d.bitString? n unit))) := by
  unfold bitString?
  rw [h.segment?]
  cases d.segment? n unit with
  | none => exact .intro _ h
  | some k =>
    simp only [Option.map_some, orStay, replyRead, toList_peek, h.ahead]
    exact .intro _ (h.advance k)

/-- The same bits are passed over. -/
theorem literal? (expected : BitString) :
    AlikeAfter (c.replyMoved (c.literal? expected)) (d.replyMoved (d.literal? expected)) := by
  have hsame : (c.peek expected.size == expected) = (d.peek expected.size == expected) := by
    rw [Bool.eq_iff_iff, beq_iff, beq_iff, toList_peek, toList_peek, h.ahead]
  unfold Cursor.literal?
  rw [h.remaining, hsame]
  split
  · exact .intro _ (h.advance _)
  · exact .intro _ h

/-- Positions are remembered in the same slots. -/
theorem save? (slot : Int) :
    AlikeAfter (c.replyMoved (c.save? slot)) (d.replyMoved (d.save? slot)) := by
  unfold Cursor.save?
  rw [h.saved, h.offset]
  split
  · exact .intro _ ⟨h.bits, rfl, rfl, rfl⟩
  · exact .intro _ h
  · split
    · exact .intro _ ⟨h.bits, rfl, h.origin, rfl⟩
    · exact .intro _ h

/-- The same positions are found in slots. -/
theorem restore? (slot : Int) :
    AlikeAfter (c.replyMoved (c.restore? slot)) (d.replyMoved (d.restore? slot)) := by
  unfold Cursor.restore?
  rw [h.saved, h.origin]
  split
  · exact .intro _ ⟨h.bits, rfl, rfl, rfl⟩
  · exact .intro _ h
  · rename_i i
    cases d.saved[i]? with
    | none => exact .intro _ h
    | some p => exact .intro _ ⟨h.bits, rfl, rfl, rfl⟩

end Alike

/-- The same reply to a request that reads. -/
theorem AlikeAfter.replyRead {r s : Option α × Cursor} (h : AlikeAfter r s) (reply : α → Reply) :
    AlikeAfter (replyRead reply r) (replyRead reply s) := by
  cases h with
  | intro found hnext => cases found <;> exact .intro _ hnext

/-- Cursors that are alike answer a request alike. -/
theorem Alike.answer {d : Cursor} (h : Alike c d) (request : Request) :
    AlikeAfter (c.answer request) (d.answer request) := by
  cases request with
  | integer n flags => exact (h.takeInteger n _).replyRead _
  | float n flags => exact (h.takeFloat n _).replyRead _
  | bits n unit => exact h.takeBits n unit
  | skip n unit =>
    simp only [Cursor.answer, skip?, h.segment?]
    cases d.segment? n unit with
    | none => exact .intro _ h
    | some k => exact .intro _ (h.advance k)
  | testTail n =>
    simp only [Cursor.answer, replyTest, testTail, h.remaining]
    exact .intro _ h
  | testUnit unit =>
    simp only [Cursor.answer, replyTest, testUnit, h.remaining]
    exact .intro _ h
  | literal expected => exact h.literal? expected
  | utf8 => exact h.takeUtf8.replyRead _
  | utf16 flags => exact (h.takeUtf16 _).replyRead _
  | utf32 flags => exact (h.takeUtf32 _).replyRead _
  | save slot => exact h.save? slot
  | restore slot => exact h.restore? slot
  | restart slots => exact .intro _ (h.restart slots)

/-- Cursors that are alike answer all requests alike. -/
theorem Alike.answerAll {d : Cursor} (h : Alike c d) (requests : List Request) :
    AlikeAfter (c.answerAll requests) (d.answerAll requests) := by
  induction requests generalizing c d with
  | nil => exact .intro _ h
  | cons request requests ih =>
    have hfirst := h.answer request
    unfold Cursor.answerAll
    generalize c.answer request = r, d.answer request = s at hfirst
    cases hfirst with
    | @intro reply next next' hnext =>
      have hrest := ih hnext
      dsimp only
      generalize next.answerAll requests = r, next'.answerAll requests = s at hrest
      cases hrest with
      | intro replies hlast => exact .intro _ hlast

/-! ## All requests together -/

/-- Whatever a cursor is asked, it stays inside its bit string. All of its positions do, so the bits
that remain are all those from its position on, and the bit string that it gives back is all from
the first remembered position on. A further request that is refused leaves it entirely as it was.
And another bit string with the same bits gets the same replies and the same positions, so that no
bit outside the window is looked at. -/
theorem answerAll_inside (b : BitString) (slots : Nat) (requests : List Request) :
    let c := ((ofBitString b slots).answerAll requests).2
    c.subject = b ∧ c.InBounds ∧ c.offset + c.remaining = b.size ∧
      (c.first + c.toBitString.size = b.size ∧ c.toBitString.toList = b.toList.drop c.first) ∧
      (∀ request, (c.answer request).1 = .refused → (c.answer request).2 = c) ∧
      ∀ b' : BitString, b'.toList = b.toList →
        AlikeAfter ((ofBitString b' slots).answerAll requests)
          ((ofBitString b slots).answerAll requests) := by
  intro c
  obtain ⟨hbounds, hsubject⟩ : c.InBounds ∧ c.subject = b :=
    inBounds_answerAll (inBounds_ofBitString b slots) requests
  have hremaining := hbounds.offset_add_remaining
  have hfirst := hbounds.first_le
  have hgiven := toList_toBitString c
  have hsize := congrArg List.length hgiven
  rw [length_toList, List.length_drop, length_toList] at hsize
  rw [hsubject] at hremaining hfirst hgiven hsize
  refine ⟨hsubject, hbounds, hremaining, ⟨by omega, hgiven⟩, answer_refused c, fun b' hb' => ?_⟩
  have halike : Alike (ofBitString b' slots) (ofBitString b slots) := ⟨hb', rfl, rfl, rfl⟩
  exact halike.answerAll requests

end ErlangMachine.BitString.Cursor
