import ErlangMachine.Machine.State

/-!
# Protected regions

The beginning of a protected region puts a catch tag into a slot and a handler in force; its end
finds the tag in the slot and puts those handlers in force that the tag names. This module keeps
account of the regions of an activation that have been begun and not been ended: `Region` is an
entry of the account, and a list of them has the innermost region first. A fault that the innermost
open region receives consumes it (`receive`); its end is still to come, but its handler is no longer
in force. The end of a region takes it off the account (`finish`), together with consumed regions
inside it. When the stack sinks, a region may lose its slot (`Region.sink`).

`Tagged` says that the slots hold what the account says, and the lemmas say that it stays that way.
-/

namespace ErlangMachine.Machine

/-- A protected region that has been begun and not been ended. -/
structure Region where
  /-- Its handler. -/
  handler : Handler
  /-- The position of the slot with its tag, counted from the bottom of the stack, as long as that
  slot has not been given back. -/
  slot : Option Nat
  /-- Whether its handler is in force. A fault that the handler receives puts an end to that. -/
  isOpen : Bool
  /-- Whether the stack has been at least as deep as when the region was begun all the time. -/
  intact : Bool
  deriving DecidableEq, Repr

/-- The handlers of the open regions, innermost first. -/
def openHandlers (regions : List Region) : List Handler :=
  (regions.filter (·.isOpen)).map (·.handler)

/-- The account when the innermost open region has received a fault. -/
def receive (regions : List Region) : List Region :=
  match regions.dropWhile (!·.isOpen) with
  | [] => []
  | r :: rest => { r with isOpen := false } :: rest

/-- The account when the region with a slot has been ended. -/
def finish (position : Nat) (regions : List Region) : List Region :=
  (regions.dropWhile fun r => r.slot ≠ some position).tail

/-- A region when the stack has some depth. -/
def Region.sink (depth : Nat) (r : Region) : Region :=
  { r with slot := r.slot.filter (· < depth), intact := r.intact && r.handler.depth ≤ depth }

/-- The region with a slot is the innermost one that is open, or it has been consumed and all inside
it have been, too. -/
def InnermostAt (regions : List Region) (position : Nat) : Prop :=
  ∃ above r rest, regions = above ++ r :: rest ∧ r.slot = some position ∧
    ∀ a ∈ above, a.isOpen = false ∧ a.slot ≠ some position

/-- The catch tag in a slot, if there is one. Slots are counted from the bottom of the stack. -/
def Process.tagAt? (p : Process) (position : Nat) : Option (Handler × List Handler) :=
  match p.stack.reverse[position]? with
  | some (.catchTag handler outer) => some (handler, outer)
  | _ => none

/-- Every slot of the account holds the tag of its region, which names the open regions around
it. -/
def Tagged (p : Process) : List Region → Prop
  | [] => True
  | r :: rest =>
    (∀ n ∈ r.slot, p.tagAt? n = some (r.handler, openHandlers rest)) ∧ Tagged p rest

/-- Slots of the account that are still on the stack hold the tags that they held. -/
def SparesTags (p q : Process) (regions : List Region) : Prop :=
  ∀ r ∈ regions, ∀ n ∈ r.slot, n < q.depth → q.tagAt? n = p.tagAt? n

instance (p q : Process) (regions : List Region) : Decidable (SparesTags p q regions) :=
  inferInstanceAs (Decidable (∀ r ∈ regions, ∀ n ∈ r.slot, n < q.depth → q.tagAt? n = p.tagAt? n))

/-- An activation that begins at some depth is above all slots of the account, and above the depths
at which its regions were begun. -/
def Above (regions : List Region) (base : Nat) : Prop :=
  ∀ r ∈ regions, (∀ n ∈ r.slot, n < base) ∧ (r.intact → r.handler.depth ≤ base)

/-! ## Slots -/

section Slots

variable {p q : Process} {n : Nat}

/-- A slot that holds a tag is on the stack. -/
theorem lt_depth_of_tagAt? {tag : Handler × List Handler} (h : p.tagAt? n = some tag) :
    n < p.depth := by
  have hsome : p.stack.reverse[n]?.isSome := by
    unfold Process.tagAt? at h
    cases hslot : p.stack.reverse[n]? with
    | none =>
      rw [hslot] at h
      cases h
    | some t => rfl
  have hlt : n < p.stack.reverse.length := by simpa using hsome
  rwa [List.length_reverse] at hlt

/-- Slots of a stack that is part of another hold the same there. -/
theorem tagAt?_of_suffix (h : q.stack <:+ p.stack) (hn : n < q.depth) :
    q.tagAt? n = p.tagAt? n := by
  have hslot : p.stack.reverse[n]? = q.stack.reverse[n]? := by
    obtain ⟨front, hfront⟩ := h
    have hlt : n < q.stack.reverse.length := by
      rw [List.length_reverse]
      exact hn
    rw [← hfront, List.reverse_append, List.getElem?_append_left hlt]
  unfold Process.tagAt?
  rw [hslot]

/-- What is below a depth in one stack is there in the other, too. -/
theorem exists_low {base : Nat} (hbase : n ≤ base) (hn : n ≤ p.depth)
    (h : ∀ slots, slots <:+ p.stack → slots.length ≤ base → slots <:+ q.stack) :
    ∃ low : Process, low.depth = n ∧ low.stack <:+ p.stack ∧ low.stack <:+ q.stack := by
  have hdepth : (p.stack.drop (p.depth - n)).length = n := by
    rw [List.length_drop]
    unfold Process.depth at hn ⊢
    omega
  refine ⟨{ p with stack := p.stack.drop (p.depth - n) }, hdepth, List.drop_suffix _ _, ?_⟩
  exact h _ (List.drop_suffix _ _) (Nat.le_trans (Nat.le_of_eq hdepth) hbase)

end Slots

/-! ## The account -/

section Account

variable {regions : List Region} {p q : Process}

/-- A region on top of the account. -/
theorem openHandlers_cons (r : Region) (rest : List Region) :
    openHandlers (r :: rest) = if r.isOpen then r.handler :: openHandlers rest
      else openHandlers rest := by
  unfold openHandlers
  rw [List.filter_cons]
  split
  · rfl
  · rfl

/-- The first of the handlers is that of the innermost open region. -/
theorem openHandlers_eq_cons {handler : Handler} {outer : List Handler}
    (h : openHandlers regions = handler :: outer) : ∃ region rest,
      regions.filter (·.isOpen) = region :: rest ∧ region.handler = handler ∧
        rest.map (·.handler) = outer :=
  List.map_eq_cons_iff.1 h

variable {rest : List Region}

/-- The regions around one of the account are tagged, too. -/
theorem Tagged.of_append {above : List Region} (h : Tagged p (above ++ rest)) : Tagged p rest := by
  induction above with
  | nil => exact h
  | cons a above ih => exact ih h.2

variable {r : Region}

/-- The slots of the account are on the stack. -/
theorem Tagged.lt_depth (h : Tagged p regions) (hr : r ∈ regions) {n : Nat} (hn : n ∈ r.slot) :
    n < p.depth := by
  obtain ⟨above, rest, rfl⟩ := List.append_of_mem hr
  exact lt_depth_of_tagAt? (h.of_append.1 n hn)

/-! ## Sinking -/

/-- The stack may sink without consequences for the handlers. -/
theorem openHandlers_sink (depth : Nat) (regions : List Region) :
    openHandlers (regions.map (Region.sink depth)) = openHandlers regions := by
  induction regions with
  | nil => rfl
  | cons r rest ih =>
    rw [List.map_cons, openHandlers_cons, openHandlers_cons, ih]
    rfl

/-- A region keeps its slot as long as that is on the stack. -/
theorem mem_slot_sink {depth n : Nat} : n ∈ (r.sink depth).slot ↔ n ∈ r.slot ∧ n < depth := by
  show r.slot.filter (· < depth) = some n ↔ _
  rw [Option.filter_eq_some_iff, decide_eq_true_eq]
  rfl

/-- Slots that are still on the stack hold what they did. -/
theorem Tagged.sink (h : Tagged p regions) (hsame : SparesTags p q regions) :
    Tagged q (regions.map (Region.sink q.depth)) := by
  induction regions with
  | nil => trivial
  | cons r rest ih =>
    refine ⟨fun n hn => ?_, ih h.2 fun s hs => hsame s (List.mem_cons_of_mem r hs)⟩
    obtain ⟨hslot, hdepth⟩ := mem_slot_sink.1 hn
    rw [openHandlers_sink, hsame r List.mem_cons_self n hslot hdepth]
    exact h.1 n hslot

/-- A region that is intact after the stack has sunk was so before, and it has not sunk below it. -/
theorem intact_sink {depth : Nat} (h : (r.sink depth).intact = true) :
    r.intact = true ∧ r.handler.depth ≤ depth := by
  have hboth : r.intact = true ∧ decide (r.handler.depth ≤ depth) = true := by
    simpa [Region.sink] using h
  exact ⟨hboth.1, of_decide_eq_true hboth.2⟩

/-- What is above the account stays above it. -/
theorem Above.sink {base : Nat} (h : Above regions base) (depth : Nat) :
    Above (regions.map (Region.sink depth)) base := by
  intro r hr
  obtain ⟨s, hs, rfl⟩ := List.mem_map.1 hr
  obtain ⟨hslots, hdepth⟩ := h s hs
  exact ⟨fun n hn => hslots n (mem_slot_sink.1 hn).1,
    fun hintact => hdepth (intact_sink hintact).1⟩

/-! ## Below an activation -/

section Below

variable {base : Nat} (habove : Above regions base) (htagged : Tagged p regions)
  (hbelow : ∀ slots, slots <:+ p.stack → slots.length ≤ base → slots <:+ q.stack)
include habove htagged hbelow

/-- An activation above the account leaves its slots alone. -/
theorem Above.sparesTags : SparesTags p q regions := by
  intro r hr n hn _
  have hlt : n < base := (habove r hr).1 n hn
  obtain ⟨low, hdepth, hp, hq⟩ := exists_low hlt (htagged.lt_depth hr hn) hbelow
  rw [← tagAt?_of_suffix hp (by omega), ← tagAt?_of_suffix hq (by omega)]

/-- An activation above the account leaves the stack above it. -/
theorem Above.depth (hintact : ∀ r ∈ regions, r.intact → r.handler.depth ≤ p.depth) :
    Above regions q.depth := by
  intro r hr
  obtain ⟨hslots, hbase⟩ := habove r hr
  constructor
  · intro n hn
    obtain ⟨low, hdepth, -, hq⟩ := exists_low (hslots n hn) (htagged.lt_depth hr hn) hbelow
    have hle : low.depth ≤ q.depth := hq.length_le
    omega
  · intro h
    obtain ⟨low, hdepth, -, hq⟩ := exists_low (hbase h) (hintact r hr h) hbelow
    exact hdepth ▸ hq.length_le

end Below

/-- A stack of which the top has been cut off holds the tags that it held. -/
theorem SparesTags.cut {u : Process} (h : SparesTags p q regions) (hcut : u.stack <:+ q.stack) :
    SparesTags p u regions := by
  intro r hr n hn hdepth
  have hle : u.depth ≤ q.depth := hcut.length_le
  rw [tagAt?_of_suffix hcut hdepth]
  exact h r hr n hn (by omega)

/-! ## Receiving a fault -/

/-- The innermost open region receives a fault: what is left of the account. -/
theorem receive_eq {region : Region} (h : regions.filter (·.isOpen) = region :: rest) :
    ∃ above around, regions = above ++ region :: around ∧ (∀ a ∈ above, a.isOpen = false) ∧
      around.filter (·.isOpen) = rest ∧
      receive regions = { region with isOpen := false } :: around := by
  induction regions with
  | nil => cases h
  | cons r regions ih =>
    cases hopen : r.isOpen with
    | true =>
      rw [List.filter_cons, if_pos hopen] at h
      obtain ⟨rfl, hrest⟩ := List.cons.inj h
      refine ⟨[], regions, rfl, by simp, hrest, ?_⟩
      unfold receive
      rw [List.dropWhile_cons_of_neg (by simp [hopen])]
    | false =>
      have hclosed : ¬ r.isOpen = true := by simp [hopen]
      rw [List.filter_cons, if_neg hclosed] at h
      obtain ⟨above, around, hregions, habove, hrest, hreceive⟩ := ih h
      refine ⟨r :: above, around, by rw [hregions]; rfl, ?_, hrest, ?_⟩
      · intro a ha
        rcases List.mem_cons.1 ha with rfl | ha
        · exact hopen
        · exact habove a ha
      · rw [← hreceive]
        unfold receive
        rw [List.dropWhile_cons_of_pos (by simp [hopen])]

/-- The region has received the fault: the handlers that are left. -/
theorem openHandlers_receive {region : Region} (h : regions.filter (·.isOpen) = region :: rest) :
    openHandlers (receive regions) = rest.map (·.handler) := by
  obtain ⟨above, around, -, -, hrest, hreceive⟩ := receive_eq h
  rw [hreceive, openHandlers_cons, if_neg Bool.false_ne_true, ← hrest]
  rfl

/-- Without an open region nothing is left. -/
theorem receive_eq_nil (h : regions.filter (·.isOpen) = []) : receive regions = [] := by
  have hall : ∀ r ∈ regions, (!r.isOpen) = true := by
    intro r hr
    simpa using List.filter_eq_nil_iff.1 h r hr
  have hnil : (regions ++ []).dropWhile (fun r : Region => !r.isOpen) = [] :=
    List.dropWhile_append_of_pos hall
  rw [List.append_nil] at hnil
  unfold receive
  rw [hnil]

/-- Tags stay when a region has received a fault. -/
theorem tagged_receive (h : Tagged p regions) : Tagged p (receive regions) := by
  cases hopen : regions.filter (·.isOpen) with
  | nil =>
    rw [receive_eq_nil hopen]
    trivial
  | cons region rest =>
    obtain ⟨above, around, rfl, -, -, hreceive⟩ := receive_eq hopen
    rw [hreceive]
    exact ⟨h.of_append.1, h.of_append.2⟩

/-- The slots that are left were those of regions before. -/
theorem sparesTags_receive (h : SparesTags p q regions) : SparesTags p q (receive regions) := by
  intro r hr
  cases hopen : regions.filter (·.isOpen) with
  | nil =>
    rw [receive_eq_nil hopen] at hr
    cases hr
  | cons region rest =>
    obtain ⟨above, around, rfl, -, -, hreceive⟩ := receive_eq hopen
    rw [hreceive] at hr
    rcases List.mem_cons.1 hr with rfl | hr
    · exact h region (List.mem_append_right above List.mem_cons_self)
    · exact h r (List.mem_append_right above (List.mem_cons_of_mem region hr))

/-! ## Ending a region -/

/-- Whether a region is the innermost one can be found out by looking at those inside it. -/
theorem innermostAt_iff {position : Nat} : InnermostAt regions position ↔
    (∀ a ∈ regions.takeWhile (·.slot ≠ some position), a.isOpen = false) ∧
      ∃ r ∈ regions, r.slot = some position := by
  constructor
  · rintro ⟨above, r, rest, rfl, hslot, habove⟩
    have hpassed : ∀ a ∈ above, decide (a.slot ≠ some position) = true :=
      fun a ha => decide_eq_true (habove a ha).2
    refine ⟨fun a ha => ?_, r, List.mem_append_right above List.mem_cons_self, hslot⟩
    rw [List.takeWhile_append_of_pos hpassed, List.takeWhile_cons_of_neg (by simp [hslot]),
      List.append_nil] at ha
    exact (habove a ha).1
  · rintro ⟨hclosed, r, hr, hslot⟩
    -- Along the account, up to the region with the slot.
    induction regions with
    | nil => cases hr
    | cons region regions ih =>
      by_cases hregion : region.slot = some position
      · exact ⟨[], region, regions, rfl, hregion, by simp⟩
      · rw [List.takeWhile_cons_of_pos (by simpa using hregion)] at hclosed
        have hrest : r ∈ regions :=
          (List.mem_cons.1 hr).resolve_left fun heq => hregion (heq ▸ hslot)
        obtain ⟨above, r', rest, rfl, hslot', habove⟩ :=
          ih (fun a ha => hclosed a (List.mem_cons_of_mem region ha)) hrest
        refine ⟨region :: above, r', rest, rfl, hslot', fun a ha => ?_⟩
        rcases List.mem_cons.1 ha with rfl | ha
        · exact ⟨hclosed a List.mem_cons_self, hregion⟩
        · exact habove a ha

instance (position : Nat) : Decidable (InnermostAt regions position) :=
  decidable_of_iff _ innermostAt_iff.symm

/-- The end of the innermost region: what is left of the account. -/
theorem finish_eq {position : Nat} {above : List Region} (rest : List Region)
    (hslot : r.slot = some position) (habove : ∀ a ∈ above, a.slot ≠ some position) :
    finish position (above ++ r :: rest) = rest := by
  have hpassed : ∀ a ∈ above, decide (a.slot ≠ some position) = true :=
    fun a ha => decide_eq_true (habove a ha)
  unfold finish
  rw [List.dropWhile_append_of_pos hpassed, List.dropWhile_cons_of_neg (by simp [hslot])]
  rfl

end Account

end ErlangMachine.Machine
