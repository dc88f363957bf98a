import ErlangMachine.Proofs.Finishing

/-!
# Assembled code stands for its functions

The main result, `finish_programCoded`: if an assembler has taken some functions one after another
and then finishes, the code of the module is, block by block, code that stands for the instructions
of these functions. Words that refer to labels hold the offsets at which these labels stand, and
indices lead to the entries that the operands asked for.

A function is followed instruction by instruction (`Body`). One word of it is known only at its end,
the number of its registers, so what is carried along are the words for every such number at once:
they are the same but for the one word, which is zero until the function is done. Labels are filled
in when the module is finished; `Finished.code_eq` says that this turns each label among the words
into its place and changes nothing else.
-/

namespace ErlangMachine

namespace Assembler

variable {i : Instruction} {body : List Instruction} {labels : List (UInt32 × Nat)}
  {words : UInt16 → List Word}

variable {a a' : Assembler}

/-! ## The body of a function -/

/-- The body of a function with entry label `entry` has been assembled: `labels` stand in it, and
`words c` are its words if it uses `c` registers. -/
structure Body (entry : UInt32) (body : List Instruction) (labels : List (UInt32 × Nat))
    (words : UInt16 → List Word) (a a' : Assembler) : Prop where
  /-- The words stand for the body. -/
  coded : ∀ c, BodyCoded a'.reading entry c a.tuplePosition a.code.size body labels (words c)
  /-- The code says that no registers are used. -/
  code : a'.code.toList = a.code.toList ++ (words 0).map (Word.value fun _ => 0)
  /-- Labels wait at the same places whatever the number of registers. -/
  fixups : ∀ c, a'.fixups.toList = a.fixups.toList ++ pending a.code.size (words c)
  /-- What was pooled stays. -/
  hom : a.reading.Hom id a'.reading
  /-- There is still room. -/
  roomy : a'.Roomy
  /-- The labels are noted, the last one first. -/
  labels_eq : a'.labels = labels.reverse ++ a.labels
  /-- No label is noted twice. -/
  nodup : (a.labels.map Prod.fst).Nodup → (a'.labels.map Prod.fst).Nodup
  /-- No function is exported. -/
  exports : a'.exports = a.exports
  /-- Positions in tuples do not outnumber the words. -/
  position : a'.tuplePosition ≤ a'.code.size
  /-- Where the entry label is known, nothing depends on the number of registers. -/
  known : (a.labels.lookup entry).isSome → a'.capacityAt = a.capacityAt ∧ ∀ c, words c = words 0
  /-- At most one word depends on it, at the place that is noted. -/
  capacity : (a'.capacityAt = a.capacityAt ∧ ∀ c, words c = words 0) ∨
    ∃ before after, a'.capacityAt = some (a.code.size + before.length) ∧
      ∀ c, words c = before ++ .raw c :: after

/-- The empty body. -/
theorem body_nil (entry : UInt32) (hroomy : a.Roomy) (hposition : a.tuplePosition ≤ a.code.size) :
    Body entry [] [] (fun _ => []) a a where
  coded := fun _ => .nil
  code := by simp
  fixups := by simp [pending]
  hom := (Moved.refl a).hom
  roomy := hroomy
  labels_eq := rfl
  nodup := id
  exports := rfl
  position := hposition
  known := fun _ => ⟨rfl, fun _ => rfl⟩
  capacity := .inl ⟨rfl, fun _ => rfl⟩

/-- Two readings in a row. -/
theorem hom_trans {r r' r'' : Reading Word} (h : r.Hom id r') (h' : r'.Hom id r'') :
    r.Hom id r'' where
  number := fun hw => h'.number (h.number hw)
  constant := fun ht => h'.constant (h.constant ht)
  imported := fun hi => h'.imported (h.imported hi)
  values := fun ht => h'.values (h.values ht)
  arities := fun ht => h'.arities (h.arities ht)

theorem Body.remark {entry : UInt32} (h : Body entry body labels words a a')
    (hop : i.operation.isAnnotation) : Body entry (i :: body) labels words a a' :=
  { h with coded := fun c => .remark hop (h.coded c) }

/-- An instruction before a body. -/
theorem Body.instruction {entry : UInt32} {shape : Shape} {block : List Word} {b : Assembler}
    (hroomy : a.Roomy) (hadded : Added i shape block a b) (hsize : b.tuplePosition < 65536)
    (h : Body entry body labels words b a') :
    Body entry (i :: body) labels (fun c => block ++ words c) a a' where
  coded := by
    intro c
    have hblock := (hadded.coded_of_roomy hroomy).map h.hom fun _ _ _ => id
    rw [List.map_id] at hblock
    have hrest := h.coded c
    rw [hadded.position, hadded.moved.size] at hrest
    rw [hadded.position] at hsize
    exact .instruction hadded.shape_eq (Operation.lawful hadded.shape_eq) hadded.arity hblock hsize
      hrest
  code := by rw [h.code, hadded.moved.code, List.map_append, List.append_assoc]
  fixups := by
    intro c
    rw [h.fixups c, hadded.moved.fixups, hadded.moved.size, pending_append, List.append_assoc]
  hom := hom_trans hadded.moved.hom h.hom
  roomy := h.roomy
  labels_eq := by rw [h.labels_eq, hadded.moved.labels]
  nodup := by
    have hnodup := h.nodup
    rwa [hadded.moved.labels] at hnodup
  exports := h.exports.trans hadded.moved.exports
  position := h.position
  known := by
    intro hknown
    rw [← hadded.moved.labels] at hknown
    obtain ⟨hcapacity, hwords⟩ := h.known hknown
    exact ⟨hcapacity.trans hadded.moved.capacityAt, fun c => by rw [hwords c]⟩
  capacity := by
    -- The word of the capacity may stand in the rest, which begins behind the block.
    rcases h.capacity with ⟨hcapacity, hwords⟩ | ⟨before, after, hcapacity, hwords⟩
    · exact .inl ⟨hcapacity.trans hadded.moved.capacityAt, fun c => by rw [hwords c]⟩
    · refine .inr ⟨block ++ before, after, ?_, fun c => by rw [hwords c, List.append_assoc]⟩
      rw [hcapacity, hadded.moved.size, List.length_append, Nat.add_assoc]

/-- A fresh label keeps labels apart. -/
theorem nodup_bound {n : UInt32} (hfresh : a.labels.lookup n = none)
    (h : (a.labels.map Prod.fst).Nodup) : ((a.bound n).labels.map Prod.fst).Nodup := by
  refine List.nodup_cons.2 ⟨?_, h⟩
  intro hmem
  obtain ⟨e, he, hequal⟩ := List.mem_map.1 hmem
  have hne := List.lookup_eq_none_iff.1 hfresh e he
  rw [hequal] at hne
  exact bne_iff_ne.1 hne rfl

/-- A label before a body. -/
theorem Body.label {entry n : UInt32} (hop : i.operation = .label)
    (hn : labelNumber? (operand i 0) = some n) (hfresh : a.labels.lookup n = none)
    (hentry : n ≠ entry) (h : Body entry body labels words (a.bound n) a') :
    Body entry (i :: body) ((n, a.code.size) :: labels) words a a' :=
  { h with
    coded := fun c => .label hop hn hentry (h.coded c)
    labels_eq := by
      rw [h.labels_eq, List.reverse_cons, List.append_assoc]
      rfl
    nodup := fun hnodup => h.nodup (nodup_bound hfresh hnodup)
    known := by
      intro hknown
      refine h.known ?_
      show (List.lookup entry ((n, a.code.size) :: a.labels)).isSome
      rw [List.lookup_cons, beq_false_of_ne hentry.symm]
      exact hknown }

/-- The entry label before a body. -/
theorem Body.entry {entry : UInt32} {k : UInt16} {a a' : Assembler} (hop : i.operation = .label)
    (hn : labelNumber? (operand i 0) = some entry) (hfresh : a.labels.lookup entry = none)
    (hk : Opcode.ofWord? k = some ⟨.ensureCapacity, []⟩)
    (h : Body entry body labels words ((a.bound entry).entered k) a') :
    Body entry (i :: body) ((entry, a.code.size) :: labels)
      (fun c => .raw k :: .raw c :: words c) a a' := by
  have hsize : ((a.bound entry).entered k).code.size = a.code.size + 2 := by
    show ((a.code.push k).push 0).size = _
    rw [Array.size_push, Array.size_push]
  have hlookup : (((a.bound entry).entered k).labels.lookup entry).isSome := by
    show (List.lookup entry ((entry, a.code.size) :: a.labels)).isSome
    rw [List.lookup_cons_self]
    rfl
  -- The entry is bound now, so the rest of the body leaves the place of the capacity alone.
  obtain ⟨hcapacity, hwords⟩ := h.known hlookup
  exact {
    coded := by
      intro c
      have hrest := h.coded c
      rw [hsize] at hrest
      exact .entry hop hn rfl hk rfl hrest
    code := by
      rw [h.code]
      show ((a.code.push k).push 0).toList ++ _ = _
      rw [Array.toList_push, Array.toList_push, List.append_assoc, List.append_assoc]
      rfl
    fixups := by
      intro c
      rw [h.fixups c, hsize]
      rfl
    hom := h.hom
    roomy := h.roomy
    labels_eq := by
      rw [h.labels_eq, List.reverse_cons, List.append_assoc]
      rfl
    nodup := fun hnodup => h.nodup (nodup_bound hfresh hnodup)
    exports := h.exports
    position := h.position
    known := by
      intro hknown
      rw [hfresh] at hknown
      cases hknown
    capacity := by
      refine .inr ⟨[.raw k], words 0, ?_, fun c => by rw [hwords c]; rfl⟩
      rw [hcapacity]
      show some (a.code.push k).size = _
      rw [Array.size_push]
      rfl }

/-- A body that was assembled without an error. -/
theorem body_of_forM {entry : UInt32} {a a' : Assembler} (hroomy : a.Roomy)
    (hposition : a.tuplePosition ≤ a.code.size) (hentry : a.entryLabel = some entry)
    (hrun : body.forM instruction a = .ok () a') :
    ∃ labels words, Body entry body labels words a a' := by
  -- The induction is on the instructions. The position in a tuple never exceeds the size of the
  -- code, so it stays below the limit that the code is held to.
  induction body generalizing a with
  | nil =>
    cases hrun
    exact ⟨[], fun _ => [], body_nil entry hroomy hposition⟩
  | cons i body ih =>
    obtain ⟨⟨⟩, b, hfirst, hrest⟩ := bind_eq_ok hrun
    cases (runs_emitted_or_refused i a).of_ok hfirst with
    | remark hremark =>
      obtain ⟨labels, words, h⟩ := ih hroomy hposition hentry hrest
      exact ⟨_, _, h.remark hremark⟩
    | @label n hop hn hfresh hne =>
      have hother : n ≠ entry := by
        rintro rfl
        exact hne hentry
      obtain ⟨labels, words, h⟩ :=
        ih (a := a.bound n) ⟨hroomy.1, hroomy.2, hroomy.3, hroomy.4⟩ hposition hentry hrest
      exact ⟨_, _, h.label hop hn hfresh hother⟩
    | @entry n k hop hn hfresh heq hk =>
      obtain rfl : n = entry := Option.some.inj (heq.symm.trans hentry)
      have hsize : a.tuplePosition ≤ ((a.bound n).entered k).code.size := by
        show _ ≤ ((a.code.push k).push 0).size
        rw [Array.size_push, Array.size_push]
        omega
      obtain ⟨labels, words, h⟩ := ih (a := (a.bound n).entered k)
        ⟨hroomy.1, hroomy.2, hroomy.3, hroomy.4⟩ hsize hentry hrest
      exact ⟨_, _, h.entry hop hn hfresh hk⟩
    | @block shape block _ hadded hsize =>
      have hstart : i.operation.startsAt a.tuplePosition ≤ a.code.size := by
        unfold Operation.startsAt
        split <;> omega
      have hmoved := hadded.moved.size
      have hlt := hadded.position_lt
      unfold codeLimit at hsize
      obtain ⟨labels, words, h⟩ := ih (hadded.moved.roomy hroomy) (by omega)
        (hadded.moved.entryLabel.trans hentry) hrest
      exact ⟨_, _, h.instruction hroomy hadded (by omega)⟩

/-! ## A function -/

/-- The words `ws` with the labels `labels` have been added to the code for a function. -/
structure Function (f : FunctionListing) (labels : List (UInt32 × Nat)) (ws : List Word)
    (a a' : Assembler) : Prop where
  /-- The words stand for the function. -/
  coded : ∃ capacity, BodyCoded a'.reading f.entry capacity 0 a.code.size f.body.toList labels ws
  /-- The code, with zero for labels. -/
  code : a'.code.toList = a.code.toList ++ ws.map (Word.value fun _ => 0)
  /-- The places that wait for labels. -/
  fixups : a'.fixups.toList = a.fixups.toList ++ pending a.code.size ws
  /-- What was pooled stays. -/
  hom : a.reading.Hom id a'.reading
  /-- There is still room. -/
  roomy : a'.Roomy
  /-- The labels are noted, the last one first. -/
  labels_eq : a'.labels = labels.reverse ++ a.labels
  /-- No label is noted twice. -/
  nodup : (a.labels.map Prod.fst).Nodup → (a'.labels.map Prod.fst).Nodup

/-- The word that waited for the number of registers is filled in. -/
theorem set_capacity {start before after : List UInt16} {w c : UInt16} {code : Array UInt16}
    (h : code.toList = start ++ (before ++ w :: after)) :
    (code.setIfInBounds (start.length + before.length) c).toList =
      start ++ (before ++ c :: after) := by
  rw [Array.toList_setIfInBounds, h, ← List.append_assoc, ← List.append_assoc,
    ← List.length_append, List.set_append_right _ _ (Nat.le_refl _), Nat.sub_self]
  rfl

/-- A function that was assembled without an error. -/
theorem function_of_run {f : FunctionListing} (hroomy : a.Roomy)
    (hrun : function f.function f.entry f.body.toList a = .ok () a') :
    ∃ labels ws, Function f labels ws a a' := by
  refine (runs_function (fun a' => ∃ labels ws, Function f labels ws a a')
    (runs_of_forall_ok ?_)).of_ok hrun
  rintro ⟨⟩ b hbody
  refine ⟨trivial, fun place hplace => ?_⟩
  obtain ⟨labels, words, h⟩ := body_of_forM (a := a.opened f.function f.entry)
    ⟨hroomy.1, hroomy.2, hroomy.3, hroomy.4⟩ (Nat.zero_le _) rfl hbody
  rcases h.capacity with ⟨hnone, -⟩ | ⟨before, after, hplace', hwords⟩
  · -- The place of the capacity was not known when the function began.
    cases hnone.symm.trans hplace
  · obtain rfl : a.code.size + before.length = place := Option.some.inj (hplace'.symm.trans hplace)
    refine ⟨labels, words (UInt16.ofNat b.registers), ?_⟩
    exact {
      coded := ⟨_, h.coded (UInt16.ofNat b.registers)⟩
      code := by
        have hcode := h.code
        rw [hwords 0, List.map_append, List.map_cons] at hcode
        rw [hwords, List.map_append, List.map_cons, ← Array.length_toList,
          ← List.length_map (Word.value fun _ => 0)]
        exact set_capacity hcode
      fixups := h.fixups _
      hom := h.hom
      roomy := ⟨h.roomy.1, h.roomy.2, h.roomy.3, h.roomy.4⟩
      labels_eq := h.labels_eq
      nodup := h.nodup }

/-! ## Some functions -/

/-- The assembler has taken some functions, and perhaps noted exported ones, without an error. -/
inductive Assembled : List FunctionListing → Assembler → Prop
  | start (name : Atom) : Assembled [] (ofName name)
  | function {functions : List FunctionListing} {f : FunctionListing} {a a' : Assembler} :
    Assembled functions a → function f.function f.entry f.body.toList a = .ok () a' →
      Assembled (functions ++ [f]) a'
  | addExport {functions : List FunctionListing} {a : Assembler} (g : LocalName) :
    Assembled functions a → Assembled functions (a.addExport g)

end Assembler

/-- One more function at the end. -/
theorem ProgramCoded.concat {ω : Type} {r : Reading ω} {offset : Nat} {capacity : UInt16}
    {functions : List FunctionListing} {f : FunctionListing} {labels labels' : List (UInt32 × Nat)}
    {ws ws' : List ω} (h : ProgramCoded r offset functions labels ws)
    (hbody : BodyCoded r f.entry capacity 0 (offset + ws.length) f.body.toList labels' ws') :
    ProgramCoded r offset (functions ++ [f]) (labels ++ labels') (ws ++ ws') := by
  induction h with
  | nil =>
    have hone := ProgramCoded.cons hbody .nil
    rw [List.append_nil, List.append_nil] at hone
    exact hone
  | cons hfirst _ ih =>
    rw [List.append_assoc, List.append_assoc]
    rw [List.length_append, ← Nat.add_assoc] at hbody
    exact .cons hfirst (ih hbody)

namespace Assembler

/-- What holds of an assembler that has taken some functions. -/
structure Program (functions : List FunctionListing) (labels : List (UInt32 × Nat))
    (ws : List Word) (a : Assembler) : Prop where
  /-- The words stand for the functions. -/
  coded : ProgramCoded a.reading 0 functions labels ws
  /-- The code, with zero for labels. -/
  code : a.code.toList = ws.map (Word.value fun _ => 0)
  /-- The places that wait for labels. -/
  fixups : a.fixups.toList = pending 0 ws
  /-- There is still room. -/
  roomy : a.Roomy
  /-- The labels are noted, the last one first. -/
  labels_eq : a.labels = labels.reverse
  /-- No label is noted twice. -/
  nodup : (a.labels.map Prod.fst).Nodup

/-- One function after another. -/
theorem Assembled.program {functions : List FunctionListing} {a : Assembler}
    (h : Assembled functions a) : ∃ labels ws, Program functions labels ws a := by
  induction h with
  | start name =>
    exact ⟨[], [], .nil, rfl, rfl, ⟨Nat.zero_le _, Nat.zero_le _, Nat.zero_le _, Nat.zero_le _⟩,
      rfl, .nil⟩
  | @function functions f a a' _ hrun ih =>
    obtain ⟨labels, ws, h⟩ := ih
    obtain ⟨labels', ws', hf⟩ := function_of_run h.roomy hrun
    obtain ⟨capacity, hcoded⟩ := hf.coded
    have hsize : a.code.size = ws.length := by
      rw [← Array.length_toList, h.code, List.length_map]
    have hprogram := h.coded.map hf.hom fun _ _ _ => id
    rw [List.map_id] at hprogram
    refine ⟨labels ++ labels', ws ++ ws', ?_, ?_, ?_, hf.roomy, ?_, hf.nodup h.nodup⟩
    · rw [hsize, ← Nat.zero_add ws.length] at hcoded
      exact hprogram.concat hcoded
    · rw [hf.code, h.code, List.map_append]
    · rw [hf.fixups, h.fixups, pending_append, hsize, Nat.zero_add]
    · rw [hf.labels_eq, h.labels_eq, List.reverse_append]
  | addExport g _ ih =>
    obtain ⟨labels, ws, h⟩ := ih
    exact ⟨labels, ws, h.coded, h.code, h.fixups, ⟨h.roomy.1, h.roomy.2, h.roomy.3, h.roomy.4⟩,
      h.labels_eq, h.nodup⟩

end Assembler

/-! ## Listings -/

namespace Listing

/-- Assembling some functions in a row. -/
theorem assembled_of_assembleFunctions {functions done : List FunctionListing} {a a' : Assembler}
    (h : Assembler.Assembled done a) (hrun : assembleFunctions functions a = .ok () a') :
    Assembler.Assembled (done ++ functions) a' := by
  induction functions generalizing done a with
  | nil =>
    cases hrun
    rw [List.append_nil]
    exact h
  | cons f functions ih =>
    obtain ⟨⟨⟩, b, hfirst, hrest⟩ := Assembler.bind_eq_ok hrun
    have hall := ih (h.function hfirst) hrest
    rwa [List.append_assoc] at hall

/-- Noting some exported functions in a row. -/
theorem assembled_foldl_addExport {functions : List FunctionListing} {a : Assembler}
    (h : Assembler.Assembled functions a) (exports : List LocalName) :
    Assembler.Assembled functions (exports.foldl Assembler.addExport a) := by
  induction exports generalizing a with
  | nil => exact h
  | cons g exports ih => exact ih (h.addExport g)

/-- A listing that makes a module has all its functions assembled. -/
theorem assembled_of_toModule {l : Listing} {m : Module} (h : l.toModule = .ok m) :
    ∃ a, Assembler.Assembled l.functions.toList a ∧ a.finish = .ok m := by
  unfold toModule at h
  cases hrun : assembleFunctions l.functions.toList (.ofName l.name) with
  | error e a =>
    rw [EStateM.run, hrun] at h
    cases h
  | ok x a =>
    rw [EStateM.run, hrun] at h
    have hfunctions := assembled_of_assembleFunctions (.start l.name) hrun
    refine ⟨_, assembled_foldl_addExport hfunctions l.exports.toList, ?_⟩
    rw [Array.foldl_toList]
    exact h

/-- A listing in which the first function goes by a jump table to a call of the second or on to
building a tuple. -/
def choosing : Listing where
  name := "m"
  exports := #[⟨"pick", 1⟩]
  functions := #[
    { function := ⟨"pick", 1⟩
      entry := 2
      body := #[
        ⟨.label, [.int 1]⟩,
        ⟨.funcInfo, [.atom "m", .atom "pick", .int 1]⟩,
        ⟨.label, [.int 2]⟩,
        ⟨.selectVal, [.x 0, .label 3, .list [.atom "a", .label 4]]⟩,
        ⟨.label, [.int 3]⟩,
        ⟨.callOnly, [.int 1, .label 6]⟩,
        ⟨.label, [.int 4]⟩,
        ⟨.line, [.int 7]⟩,
        ⟨.putTuple, [.int 2, .x 1]⟩,
        ⟨.put, [.atom "pick"]⟩,
        ⟨.put, [.x 0]⟩,
        ⟨.putList, [.x 1, .nil, .x 0]⟩,
        ⟨.ret, []⟩] },
    { function := ⟨"same", 1⟩
      entry := 6
      body := #[
        ⟨.label, [.int 5]⟩,
        ⟨.funcInfo, [.atom "m", .atom "same", .int 1]⟩,
        ⟨.label, [.int 6]⟩,
        ⟨.isEqExact, [.label 0, .x 0, .int 1]⟩,
        ⟨.ret, []⟩] }]

/-- The code of the listing that chooses. -/
def choosingCode : Array UInt16 :=
  #[5, 0, 1, 1, 192, 2, 180, 0, 54, 11, 0, 57, 1, 35, 26, 2, 1, 182, 1, 28, 1, 180, 0, 28, 2, 185,
    1, 2, 18, 0, 0, 5, 0, 3, 1, 192, 1, 185, 0, 4, 48, 65535, 0]

/-- The listing makes a module with that code. -/
theorem toModule_choosing : choosing.toModule.toOption.map (·.code) = some choosingCode := by
  decide +kernel

end Listing

/-! ## The finished module -/

/-- What the words of a finished module denote, given where labels stand: a label word is the offset
at which the label stands, and indices are places in the module's tables. -/
def Module.reading (m : Module) (labels : List (UInt32 × Nat)) : Reading UInt16 where
  number w n := w = n
  label w n := if n = 0 then w = noLabel else w ≠ noLabel ∧ (n, w.toNat) ∈ labels
  constant n t := ∃ c, m.constants[n.toNat]? = some c ∧ c.exactEq t
  imported n i := m.imports[n.toNat]? = some i
  values n table := ∃ resolved,
    List.Forall₂ (fun e e' => e'.1 = e.1 ∧ (e.2, e'.2) ∈ labels) table resolved ∧
      m.valueTables[n.toNat]? = some (.ofList resolved)
  arities n table := ∃ resolved,
    List.Forall₂ (fun e e' => e'.1 = e.1 ∧ (e.2, e'.2) ∈ labels) table resolved ∧
      m.arityTables[n.toNat]? = some (.ofList resolved)

namespace Assembler

/-- A label that is found has been noted. -/
theorem mem_of_lookup {labels : List (UInt32 × Nat)} {n : UInt32} {offset : Nat}
    (h : labels.lookup n = some offset) : (n, offset) ∈ labels := by
  obtain ⟨before, after, rfl, -⟩ := List.lookup_eq_some_iff.1 h
  exact List.mem_append_right _ (.head _)

/-- What was pooled is in the finished module. -/
theorem Finished.hom {a : Assembler} {m : Module} {labels : List (UInt32 × Nat)}
    (h : Finished a m) (hlabels : a.labels = labels.reverse) :
    a.reading.Hom (Word.value a.place) (m.reading labels) where
  number := by
    rintro w n rfl
    rfl
  constant := by
    rintro n t ⟨c, hc, heq⟩
    exact ⟨c, by rw [h.constants]; exact hc, heq⟩
  imported := by
    intro n i hi
    show m.imports[n.toNat]? = some i
    rw [h.imports]
    exact hi
  values := by
    intro n table htable
    obtain ⟨-, hm, resolved, hresolved, rfl⟩ := getElem?_of_forall₂ h.valueTables htable
    refine ⟨resolved, (forall₂_of_resolveTable hresolved).imp fun e e' he => ⟨he.1, ?_⟩, hm⟩
    have hmem := mem_of_lookup he.2
    rwa [hlabels, List.mem_reverse] at hmem
  arities := by
    intro n table htable
    obtain ⟨-, hm, resolved, hresolved, rfl⟩ := getElem?_of_forall₂ h.arityTables htable
    refine ⟨resolved, (forall₂_of_resolveTable hresolved).imp fun e e' he => ⟨he.1, ?_⟩, hm⟩
    have hmem := mem_of_lookup he.2
    rwa [hlabels, List.mem_reverse] at hmem

/-- Words that refer to labels hold the offsets at which these labels stand, once each label has a
place. -/
theorem label_of_places {a : Assembler} (m : Module) {labels : List (UInt32 × Nat)} {ws : List Word}
    (hlabels : a.labels = labels.reverse)
    (hplaces : ∀ n, Word.label n ∈ ws → a.labelWord n = .ok (a.place n)) :
    ∀ w ∈ ws, ∀ n, a.reading.label w n → (m.reading labels).label (w.value a.place) n := by
  rintro w hw n rfl
  show if n = 0 then _ else _
  by_cases hn : n = 0
  · rw [if_pos hn, if_pos hn]
    rfl
  · rw [if_neg hn] at hw ⊢
    rw [if_neg hn]
    obtain ⟨hlookup, hne⟩ := lookup_of_labelWord (hplaces n hw)
    have hmem := mem_of_lookup hlookup
    rw [hlabels, List.mem_reverse] at hmem
    exact ⟨hne, hmem⟩

/-- If an assembler has taken some functions without an error and finishes, the module's code is the
concatenation of blocks that stand for the instructions of these functions, where each label word is
the offset at which its label stands. -/
theorem finish_programCoded {functions : List FunctionListing} {a : Assembler} {m : Module}
    (hassembled : Assembled functions a) (hfinish : a.finish = .ok m) :
    ∃ labels, (labels.map Prod.fst).Nodup ∧
      ProgramCoded (m.reading labels) 0 functions labels m.code.toList := by
  obtain ⟨labels, ws, h⟩ := hassembled.program
  have hfinished := finished_of_finish hfinish
  obtain ⟨hcode, hplaces⟩ := hfinished.code_eq h.code h.fixups
  have hnodup := h.nodup
  rw [h.labels_eq, List.map_reverse, (List.reverse_perm _).nodup_iff] at hnodup
  refine ⟨labels, hnodup, ?_⟩
  rw [hcode]
  exact h.coded.map (hfinished.hom h.labels_eq) (label_of_places m h.labels_eq hplaces)

/-- The code stands for the two functions of the listing. -/
theorem finish_programCoded_choosing : ∃ a m labels,
    Assembled Listing.choosing.functions.toList a ∧ a.finish = .ok m ∧
      m.code = Listing.choosingCode ∧ (labels.map Prod.fst).Nodup ∧
      ProgramCoded (m.reading labels) 0 Listing.choosing.functions.toList labels m.code.toList := by
  obtain ⟨m, hm, hcode⟩ := Option.map_eq_some_iff.1 Listing.toModule_choosing
  cases hmodule : Listing.choosing.toModule with
  | error e =>
    rw [hmodule] at hm
    cases hm
  | ok m' =>
    rw [hmodule] at hm
    cases hm
    obtain ⟨a, hassembled, hfinish⟩ := Listing.assembled_of_toModule hmodule
    obtain ⟨labels, hnodup, hcoded⟩ := finish_programCoded hassembled hfinish
    exact ⟨a, m, labels, hassembled, hfinish, hcode, hnodup, hcoded⟩

end Assembler

end ErlangMachine
