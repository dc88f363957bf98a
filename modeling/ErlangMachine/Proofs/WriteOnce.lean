import Mathlib
import ErlangMachine.Proofs.Equality
import ErlangMachine.Proofs.Linking

/-!
# Bindings are written once

A linker is used by loading modules, defining natives and linking, in any order. `performAll` is a
whole sequence of such actions. What a name stands for after a sequence can be read off the sequence
itself: `nativeOf?` is the last native that was defined under the name, `HasName` says which module
was the last to be loaded under one. `Answers` puts the two together to say what an import can be
bound to, and `target?_eq_some_iff` shows that the linker gives just these answers.

`bindings_final` is the main result. An import that is bound stays bound to the same target, the
target answered it at the moment at which it was bound, and linking tells exactly which imports are
left.
-/

namespace ErlangMachine

namespace Linker

/-! ## Sequences of actions -/

/-- What can be done with a linker. -/
inductive Action where
  /-- Load a module. -/
  | load (m : Module)
  /-- Define a native. -/
  | define (id : FunctionId) (f : Native)
  /-- Link the module at a place, whether or not it still has its name. -/
  | link (place : Nat)
  /-- Link every module that has its name. -/
  | linkAll

/-- Whether an action only links. -/
def Action.isLink : Action → Bool
  | load _ | define .. => false
  | link _ | linkAll => true

/-- The linker after an action. -/
def perform (l : Linker) : Action → Linker
  | .load m => l.load m
  | .define id f => l.define id f
  | .link place => (l.link place).2
  | .linkAll => l.linkAll.2

/-- The linker after some actions. -/
def performAll (l : Linker) (actions : List Action) : Linker := actions.foldl perform l

/-- The native that an action defines under a name. -/
def Action.defined? (id : FunctionId) : Action → Option Native
  | define id' f => if id' = id then some f else none
  | _ => none

/-- The module that an action loads. -/
def Action.loaded? : Action → Option Module
  | load m => some m
  | _ => none

/-- The native that was defined last under a name. -/
def nativeOf? (actions : List Action) (id : FunctionId) : Option Native :=
  actions.reverse.findSome? (Action.defined? id)

/-- The modules that were loaded, in their order. -/
def modulesOf (actions : List Action) : List Module := actions.filterMap Action.loaded?

/-- The module that was loaded last under a name, and its place in the order of loading. -/
structure HasName (actions : List Action) (name : Atom) (place : Nat) (m : Module) : Prop where
  /-- It was loaded. -/
  loaded : (modulesOf actions)[place]? = some m
  /-- It has that name. -/
  name_eq : m.name = name
  /-- No module that was loaded after it has that name. -/
  last : ∀ later m', place < later → (modulesOf actions)[later]? = some m' → m'.name ≠ name

/-- What an import can be bound to after some actions: the native of its name or else, unless only a
native may be called, the function that the module of that name exports. -/
inductive Answers (actions : List Action) (i : Import) : Callable → Prop where
  /-- A native. -/
  | native {f : Native} : nativeOf? actions i.id = some f →
    Answers actions i (.native i.id (f.ofArity i.id.arity))
  /-- Code of a module. -/
  | code {place entry : Nat} {m : Module} : nativeOf? actions i.id = none → i.guard = false →
    HasName actions i.id.module place m →
    m.exportEntry? ⟨i.id.function, i.id.arity⟩ = some entry →
    Answers actions i (.code ⟨i.id.module, place⟩ entry i.id.arity [])

/-- An answer takes as many arguments as the import says. -/
theorem Answers.arity_eq {actions : List Action} {i : Import} {target : Callable}
    (h : Answers actions i target) : target.arity = i.id.arity := by
  cases h with
  | native => rfl
  | code => rfl

/-- Where only a native may be called, an answer is a native. -/
theorem Answers.isNative {actions : List Action} {i : Import} {target : Callable}
    (h : Answers actions i target) (hguard : i.guard = true) : target.isNative = true := by
  cases h with
  | native => rfl
  | code _ hno =>
    rw [hguard] at hno
    cases hno

theorem performAll_append (l : Linker) (actions more : List Action) :
    l.performAll (actions ++ more) = (l.performAll actions).performAll more :=
  List.foldl_append

/-! ## Linking in its parts -/

/-- A linker whose natives and modules are those of another, with other bindings perhaps. -/
structure SameNames (l l' : Linker) : Prop where
  /-- The natives are the same. -/
  natives : l'.natives = l.natives
  /-- The modules are the same, at the same places. -/
  modules : ∀ place : Nat, l'.modules[place]?.map LoadedModule.module =
    l.modules[place]?.map LoadedModule.module
  /-- There are as many. -/
  size : l'.modules.size = l.modules.size

/-- The names of a linker are its own. -/
theorem SameNames.refl (l : Linker) : l.SameNames l := ⟨rfl, fun _ => rfl, rfl⟩

/-- Names that stay the same twice stay the same. -/
theorem SameNames.trans {l₁ l₂ l₃ : Linker} (h : l₁.SameNames l₂) (h' : l₂.SameNames l₃) :
    l₁.SameNames l₃ :=
  ⟨h'.natives.trans h.natives, fun place => (h'.modules place).trans (h.modules place),
    h'.size.trans h.size⟩

/-- What becomes of a module when some place is linked. -/
theorem modules_link (l : Linker) (place other : Nat) :
    (l.link place).2.modules[other]? =
      if place = other then l.modules[other]?.map l.bind else l.modules[other]? := by
  unfold link
  cases hplace : l.modules[place]? with
  | none =>
    by_cases heq : place = other
    · subst heq
      rw [if_pos rfl, hplace]
      rfl
    · rw [if_neg heq]
  | some m =>
    have hlt : place < l.modules.size := (Array.getElem?_eq_some_iff.1 hplace).1
    show (l.modules.setIfInBounds place (l.bind m))[other]? = _
    rw [Array.getElem?_setIfInBounds, if_pos hlt]
    by_cases heq : place = other
    · subst heq
      rw [if_pos rfl, if_pos rfl, hplace]
      rfl
    · rw [if_neg heq, if_neg heq]

/-- Linking changes no names. -/
theorem sameNames_link (l : Linker) (place : Nat) : l.SameNames (l.link place).2 where
  natives := natives_link l place
  modules := by
    intro other
    rw [modules_link]
    split
    · cases l.modules[other]? with
      | none => rfl
      | some m => rfl
    · rfl
  size := by
    unfold link
    cases l.modules[place]? with
    | none => rfl
    | some m => exact Array.size_setIfInBounds

/-- What a name stands for depends on the names alone. -/
theorem SameNames.resolve?_eq {l l' : Linker} (h : l.SameNames l') (id : FunctionId) :
    l'.resolve? id = l.resolve? id := by
  have hplace : ∀ name, l'.place? name = l.place? name := by
    intro name
    unfold place?
    rw [h.size]
    congr 1
    funext i
    have hi := congrArg (Option.map Module.name) (h.modules i)
    rw [Option.map_map, Option.map_map] at hi
    exact congrArg (fun found => decide (found = some name)) hi
  have hexport : ∀ ref f, (l'.get? ref).bind (fun code => code.module.exportEntry? f) =
      (l.get? ref).bind fun code => code.module.exportEntry? f := by
    intro ref f
    have hmodule := congrArg (Option.bind · fun m => m.exportEntry? f) (h.modules ref.place)
    rwa [Option.bind_map, Option.bind_map] at hmodule
  unfold resolve? find?
  rw [h.natives, hplace]
  cases l.natives.lookup id with
  | some f => rfl
  | none =>
    cases l.place? id.module with
    | none => rfl
    | some place =>
      have hentry := hexport ⟨id.module, place⟩ ⟨id.function, id.arity⟩
      simp only [Option.map_some, Option.bind_eq_bind, Option.bind_some]
      rw [← Option.bind_assoc, ← Option.bind_assoc, hentry]

/-- What binding makes of a module depends on the names only. -/
theorem SameNames.bind_eq {l l' : Linker} (h : l.SameNames l') (m : LoadedModule) :
    l'.bind m = l.bind m := by
  unfold bind target?
  simp only [h.resolve?_eq]

/-- Binding the open imports again binds nothing more. -/
theorem bind_bind (l : Linker) (m : LoadedModule) : l.bind (l.bind m) = l.bind m := by
  have hagain : ∀ (imports : List Import) (bindings : List (Option Callable)),
      (imports.zip ((imports.zip bindings).map fun link => link.2 <|> l.target? link.1)).map
        (fun link => link.2 <|> l.target? link.1) =
      (imports.zip bindings).map fun link => link.2 <|> l.target? link.1 := by
    intro imports
    induction imports with
    | nil => exact fun _ => rfl
    | cons i imports ih =>
      intro bindings
      cases bindings with
      | nil => rfl
      | cons bound bindings =>
        have hfirst : ((bound <|> l.target? i) <|> l.target? i) = (bound <|> l.target? i) := by
          cases bound with
          | some c => rfl
          | none => cases l.target? i <;> rfl
        simp only [List.zip_cons_cons, List.map_cons, hfirst, ih bindings]
  exact congrArg (LoadedModule.mk m.module) (hagain m.module.imports.toList m.bindings)

/-- Linking some places, one after the other. -/
def linkEach (l : Linker) (places : List Nat) : Linker :=
  places.foldl (fun l place => (l.link place).2) l

/-- Linking some places changes no names. -/
theorem sameNames_linkEach (l : Linker) (places : List Nat) : l.SameNames (l.linkEach places) := by
  induction places generalizing l with
  | nil => exact .refl l
  | cons place places ih => exact (sameNames_link l place).trans (ih (l.link place).2)

/-- What becomes of a module when some places are linked. -/
theorem modules_linkEach (l : Linker) (places : List Nat) (other : Nat) :
    (l.linkEach places).modules[other]? =
      if other ∈ places then l.modules[other]?.map l.bind else l.modules[other]? := by
  induction places generalizing l with
  | nil => rw [if_neg List.not_mem_nil]; rfl
  | cons place places ih =>
    have hbind : (l.link place).2.bind = l.bind := funext (sameNames_link l place).bind_eq
    have hrest := ih (l.link place).2
    rw [hbind, modules_link] at hrest
    show ((l.link place).2.linkEach places).modules[other]? = _
    rw [hrest]
    by_cases heq : place = other
    · subst heq
      have htwice : (l.modules[place]?.map l.bind).map l.bind = l.modules[place]?.map l.bind := by
        rw [Option.map_map]
        exact congrArg (Option.map · l.modules[place]?) (funext (bind_bind l))
      rw [if_pos rfl, htwice, ite_self, if_pos List.mem_cons_self]
    · have hmem : other ∈ place :: places ↔ other ∈ places := by
        rw [List.mem_cons, or_iff_right (Ne.symm heq)]
      rw [if_neg heq]
      simp only [hmem]

/-- Linking all modules links the places of those that have their names. -/
theorem linkAll_eq (l : Linker) : l.linkAll.2 = l.linkEach l.places := by
  have hfold : ∀ (places : List Nat) (missing : List FunctionId) (l : Linker),
      (places.foldl (fun done place => (done.1 ++ (done.2.link place).1, (done.2.link place).2))
        (missing, l)).2 = l.linkEach places := by
    intro places
    induction places with
    | nil => exact fun _ _ => rfl
    | cons place places ih => exact fun missing l => ih _ (l.link place).2
  exact hfold l.places [] l

/-- The places that an action links. -/
def linkedPlaces (l : Linker) : Action → List Nat
  | .link place => [place]
  | .linkAll => l.places
  | _ => []

/-- An action that only links, as the places that it links. -/
theorem perform_eq_linkEach (l : Linker) {a : Action} (h : a.isLink = true) :
    l.perform a = l.linkEach (l.linkedPlaces a) := by
  cases a with
  | load m => cases h
  | define id f => cases h
  | link place => rfl
  | linkAll => exact linkAll_eq l

/-! ## Modules and their bindings -/

end Linker

/-- A module has one binding, which may be open, for each of its imports. -/
def LoadedModule.Whole (m : LoadedModule) : Prop := m.bindings.length = m.module.imports.size

/-- The imports of a module that are not bound, in their order. -/
def LoadedModule.openImports (m : LoadedModule) : List FunctionId :=
  (m.module.imports.toList.zipIdx.filter fun (_, index) => (m.binding? index).isNone).map (·.1.id)

/-- What a module tells to be unresolved are its open imports. -/
theorem LoadedModule.Whole.unresolved_eq {m : LoadedModule} (h : m.Whole) :
    m.unresolved = m.openImports := by
  have hlinks : m.links = m.module.imports.toList.zipIdx.map fun (i, index) =>
      (i, m.binding? index) := by
    have hlength : m.bindings.length = m.module.imports.toList.length := by
      exact h
    refine List.ext_getElem (by simp [links, hlength]) fun index hl hr => ?_
    have hindex : index < m.bindings.length := by
      simp only [links, List.length_zip] at hl
      omega
    simp [links, binding?, List.getElem?_eq_getElem hindex]
  unfold unresolved openImports
  rw [hlinks, List.filter_map, List.map_map]
  rfl

namespace Linker

variable {m code : LoadedModule} {place : Nat} {l : Linker}

/-- Every module of the linker has one binding for each import. -/
def Whole (l : Linker) : Prop := ∀ (place : Nat) m, l.modules[place]? = some m → m.Whole

/-- Binding keeps one binding for each import. -/
theorem whole_bind (l : Linker) (h : m.Whole) : (l.bind m).Whole := by
  unfold LoadedModule.Whole at h ⊢
  simp [bind, LoadedModule.links, h]

/-- What an import is bound to after binding: what it was bound to, or else what it can be bound
to. -/
theorem binding?_bind_eq (l : Linker) (h : m.Whole) (index : Nat) :
    (l.bind m).binding? index =
      m.module.imports[index]?.bind fun i => m.binding? index <|> l.target? i := by
  unfold LoadedModule.binding? bind LoadedModule.links
  rw [List.getElem?_map]
  cases hi : m.module.imports[index]? with
  | none =>
    have hsize : m.module.imports.size ≤ index := Array.getElem?_eq_none_iff.1 hi
    have hnone : (m.module.imports.toList.zip m.bindings)[index]? = none := by
      rw [List.getElem?_eq_none_iff, List.length_zip, Array.length_toList]
      omega
    rw [hnone]
    rfl
  | some i =>
    obtain ⟨hlt, -⟩ := Array.getElem?_eq_some_iff.1 hi
    have hbound : index < m.bindings.length := h ▸ hlt
    have hzip : (m.module.imports.toList.zip m.bindings)[index]? =
        some (i, m.bindings[index]) := by
      rw [List.getElem?_zip_eq_some, Array.getElem?_toList]
      exact ⟨hi, List.getElem?_eq_getElem hbound⟩
    rw [hzip, List.getElem?_eq_getElem hbound]
    rfl

/-! ## What one action does -/

/-- What becomes of the modules of a linker in an action: they stay, as they are or with their open
imports bound, and at most one is added, which has no import bound. -/
theorem modules_perform (l : Linker) (a : Action) (h : (l.perform a).modules[place]? = some m) :
    l.modules[place]? = some m ∨
      (∃ m₀, l.modules[place]? = some m₀ ∧ m = l.bind m₀ ∧ (a = .link place ∨ a = .linkAll)) ∨
      place = l.modules.size ∧ ∃ module, a = .load module ∧ m = .ofModule module := by
  by_cases hlink : a.isLink = true
  · rw [perform_eq_linkEach l hlink, modules_linkEach] at h
    split at h
    · rename_i hmem
      obtain ⟨m₀, hm₀, rfl⟩ := Option.map_eq_some_iff.1 h
      refine .inr (.inl ⟨m₀, hm₀, rfl, ?_⟩)
      cases a with
      | load module => cases hlink
      | define id f => cases hlink
      | link other => exact .inl (congrArg Action.link (List.mem_singleton.1 hmem).symm)
      | linkAll => exact .inr rfl
    · exact .inl h
  · cases a with
    | load module =>
      change (l.modules.push (.ofModule module))[place]? = some m at h
      rw [Array.getElem?_push] at h
      split at h
      · rename_i heq
        exact .inr (.inr ⟨heq, module, rfl, (Option.some.inj h).symm⟩)
      · exact .inl h
    | define id f => exact .inl h
    | link other => exact absurd rfl hlink
    | linkAll => exact absurd rfl hlink

/-- A module that was just loaded has one binding for each import, and it is open. -/
theorem whole_ofModule (m : Module) :
    (LoadedModule.ofModule m).Whole ∧ ∀ index, (LoadedModule.ofModule m).binding? index = none := by
  refine ⟨by simp [LoadedModule.Whole, LoadedModule.ofModule], fun index => ?_⟩
  unfold LoadedModule.binding? LoadedModule.ofModule
  rw [List.getElem?_map]
  cases m.imports.toList[index]? with
  | none => rfl
  | some i => rfl

/-- An action keeps one binding for each import. -/
theorem Whole.perform (h : l.Whole) (a : Action) : (l.perform a).Whole := by
  intro place m hm
  rcases modules_perform l a hm with hold | ⟨m₀, hm₀, rfl, -⟩ | ⟨-, module, -, rfl⟩
  · exact h place m hold
  · exact whole_bind l (h place m₀ hm₀)
  · exact (whole_ofModule module).1

/-- A module stays at its place in an action, and its bound imports stay bound to what they are
bound to. -/
theorem Whole.perform_keeps (h : l.Whole) (a : Action) (hm : l.modules[place]? = some m) :
    ∃ m', (l.perform a).modules[place]? = some m' ∧ m'.module = m.module ∧
      ∀ index target, m.binding? index = some target → m'.binding? index = some target := by
  have hbound : ∀ index target, m.binding? index = some target →
      (l.bind m).binding? index = some target := by
    intro index target htarget
    rw [binding?_bind_eq l (h place m hm), htarget]
    cases hi : m.module.imports[index]? with
    | some i => rfl
    | none =>
      -- There are as many bindings as imports, so an import that is bound is there.
      have hsize := Array.getElem?_eq_none_iff.1 hi
      have hlength : m.bindings.length = m.module.imports.size := h place m hm
      unfold LoadedModule.binding? at htarget
      rw [List.getElem?_eq_none (by omega)] at htarget
      cases htarget
  by_cases hlink : a.isLink = true
  · rw [perform_eq_linkEach l hlink, modules_linkEach, hm]
    split
    · exact ⟨l.bind m, rfl, rfl, hbound⟩
    · exact ⟨m, rfl, rfl, fun _ _ => id⟩
  · refine ⟨m, ?_, rfl, fun _ _ => id⟩
    cases a with
    | load module =>
      have hlt := (Array.getElem?_eq_some_iff.1 hm).1
      show (l.modules.push _)[place]? = some m
      rw [Array.getElem?_push, if_neg (Nat.ne_of_lt hlt)]
      exact hm
    | define id f => exact hm
    | link other => exact absurd rfl hlink
    | linkAll => exact absurd rfl hlink

/-- Loaded modules and their bindings stay in any number of actions. -/
theorem Whole.performAll_keeps (h : l.Whole) (actions : List Action)
    (hm : l.modules[place]? = some m) :
    ∃ m', (l.performAll actions).modules[place]? = some m' ∧ m'.module = m.module ∧
      ∀ index target, m.binding? index = some target → m'.binding? index = some target := by
  induction actions generalizing l m with
  | nil => exact ⟨m, hm, rfl, fun _ _ => id⟩
  | cons a actions ih =>
    obtain ⟨m₁, hm₁, hmodule₁, hkept₁⟩ := h.perform_keeps a hm
    obtain ⟨m₂, hm₂, hmodule₂, hkept₂⟩ := ih (h.perform a) hm₁
    exact ⟨m₂, hm₂, hmodule₂.trans hmodule₁,
      fun index target htarget => hkept₂ index target (hkept₁ index target htarget)⟩

/-! ## Reading the answers off the actions -/

theorem performAll_concat (l : Linker) (actions : List Action) (a : Action) :
    l.performAll (actions ++ [a]) = (l.performAll actions).perform a :=
  performAll_append l actions [a]

/-- The linker that some actions make knows the native that was defined last. -/
theorem lookup_performAll (actions : List Action) (id : FunctionId) :
    (performAll {} actions).natives.lookup id =
      (nativeOf? actions id).map (·.ofArity id.arity) := by
  -- The last action decides if it concerns the name, and the ones before it do otherwise.
  induction actions using List.reverseRecOn with
  | nil => rfl
  | append_singleton actions a ih =>
    have hnative : nativeOf? (actions ++ [a]) id = (a.defined? id <|> nativeOf? actions id) := by
      unfold nativeOf?
      rw [List.reverse_append, List.reverse_singleton, List.singleton_append, List.findSome?_cons]
      cases a.defined? id with
      | none => rfl
      | some f => rfl
    rw [performAll_concat, hnative]
    cases a with
    | define id' f =>
      show List.lookup id ((id', f.ofArity id'.arity) :: _) = _
      rw [List.lookup_cons, ih]
      by_cases heq : id' = id
      · subst heq
        have hdefined : (Action.define id' f).defined? id' = some f := if_pos rfl
        rw [beq_self_eq_true, hdefined]
        rfl
      · have hdefined : (Action.define id' f).defined? id = none := if_neg heq
        rw [beq_eq_false_iff_ne.2 (Ne.symm heq), hdefined]
        rfl
    | load m => exact ih
    | link place =>
      show ((performAll {} actions).link place).2.natives.lookup id = _
      rw [natives_link]
      exact ih
    | linkAll =>
      show (performAll {} actions).linkAll.2.natives.lookup id = _
      rw [linkAll_eq, (sameNames_linkEach _ _).natives]
      exact ih

/-- The linker that some actions make holds the modules that were loaded, in their order. -/
theorem modules_performAll (actions : List Action) (place : Nat) :
    (performAll {} actions).modules[place]?.map LoadedModule.module =
      (modulesOf actions)[place]? := by
  have hall : (performAll {} actions).modules.toList.map LoadedModule.module =
      modulesOf actions := by
    induction actions using List.reverseRecOn with
    | nil => rfl
    | append_singleton actions a ih =>
      have hmodules : modulesOf (actions ++ [a]) = modulesOf actions ++ a.loaded?.toList := by
        unfold modulesOf
        cases h : a.loaded? <;> simp [h]
      rw [performAll_concat, hmodules, ← ih]
      -- Links bind imports but leave each module where it is; only loading adds one.
      by_cases hlink : a.isLink = true
      · have hnone : a.loaded? = none := by
          cases a with
          | load m => cases hlink
          | _ => rfl
        rw [hnone, Option.toList_none, List.append_nil, perform_eq_linkEach _ hlink]
        refine List.ext_getElem? fun place => ?_
        rw [List.getElem?_map, List.getElem?_map, Array.getElem?_toList, Array.getElem?_toList]
        exact (sameNames_linkEach _ _).modules place
      · cases a with
        | load m =>
          show ((performAll {} actions).modules.push (.ofModule m)).toList.map _ = _
          rw [Array.toList_push, List.map_append]
          rfl
        | define id f => exact (List.append_nil _).symm
        | link other => exact absurd rfl hlink
        | linkAll => exact absurd rfl hlink
  rw [← hall, List.getElem?_map, Array.getElem?_toList]

/-- The last number below a bound that passes a test. -/
theorem find?_reverse_range {n k : Nat} {q : Nat → Bool} :
    (List.range n).reverse.find? q = some k ↔
      k < n ∧ q k = true ∧ ∀ j, k < j → j < n → q j = false := by
  induction n with
  | zero => simp
  | succ n ih =>
    rw [List.range_succ, List.reverse_append, List.reverse_singleton, List.singleton_append,
      List.find?_cons]
    cases hq : q n with
    | true =>
      simp only [Option.some.injEq]
      constructor
      · rintro rfl
        exact ⟨Nat.lt_succ_self _, hq, fun j hj hj' => by omega⟩
      · rintro ⟨hk, -, hlast⟩
        by_contra hne
        have hfalse := hlast n (by omega) (Nat.lt_succ_self n)
        rw [hq] at hfalse
        cases hfalse
    | false =>
      simp only [ih]
      constructor
      · rintro ⟨hk, hqk, hlast⟩
        refine ⟨Nat.lt_succ_of_lt hk, hqk, fun j hj hj' => ?_⟩
        rcases Nat.lt_succ_iff_lt_or_eq.1 hj' with hlt | rfl
        · exact hlast j hj hlt
        · exact hq
      · rintro ⟨hk, hqk, hlast⟩
        have hne : k ≠ n := by
          rintro rfl
          rw [hq] at hqk
          cases hqk
        exact ⟨by omega, hqk, fun j hj hj' => hlast j hj (Nat.lt_succ_of_lt hj')⟩

/-- A name is that of the module that was loaded last under it. -/
theorem place?_performAll (actions : List Action) (name : Atom) (place : Nat) :
    (performAll {} actions).place? name = some place ↔ ∃ m, HasName actions name place m := by
  have hname : ∀ k : Nat, (performAll {} actions).modules[k]?.map (fun m => m.module.name) =
      (modulesOf actions)[k]?.map Module.name := by
    intro k
    rw [← modules_performAll, Option.map_map]
    rfl
  have hsize : ∀ k : Nat, k < (performAll {} actions).modules.size ↔
      ∃ m, (modulesOf actions)[k]? = some m := by
    intro k
    rw [← Option.isSome_iff_exists, ← modules_performAll, Option.isSome_map, isSome_getElem?]
  unfold place?
  rw [find?_reverse_range]
  simp only [hname, decide_eq_true_eq, decide_eq_false_iff_not, hsize]
  constructor
  · rintro ⟨⟨m, hm⟩, heq, hlast⟩
    rw [hm] at heq
    refine ⟨m, hm, Option.some.inj heq, fun later m' hlater hm' heq' => ?_⟩
    refine hlast later hlater ⟨m', hm'⟩ ?_
    rw [hm', Option.map_some, heq']
  · rintro ⟨m, hm, heq, hlast⟩
    refine ⟨⟨m, hm⟩, by rw [hm, Option.map_some, heq], fun later hlater _ heq' => ?_⟩
    obtain ⟨m', hm', hname'⟩ := Option.map_eq_some_iff.1 heq'
    exact hlast later m' hlater hm' hname'

/-- What an import can be bound to is what answers to its name among the actions. -/
theorem target?_eq_some_iff (actions : List Action) (i : Import) (target : Callable) :
    (performAll {} actions).target? i = some target ↔ Answers actions i target := by
  unfold target? resolve?
  rw [lookup_performAll]
  cases hnative : nativeOf? actions i.id with
  | some f =>
    constructor
    · rintro ⟨⟩
      exact .native hnative
    · rintro (⟨hf⟩ | ⟨hnone⟩)
      · rw [hnative] at hf
        cases hf
        rfl
      · rw [hnative] at hnone
        cases hnone
  -- No native has the name: the last module loaded under it answers, but not to a guard.
  | none =>
    rw [Option.map_none, Option.filter_eq_some_iff]
    simp only [find?, get?, Option.bind_eq_bind, Option.bind_map, Option.pure_def]
    constructor
    · rintro ⟨htarget, hguard⟩
      obtain ⟨place, hplace, hentry⟩ := Option.bind_eq_some_iff.1 htarget
      obtain ⟨m, hm⟩ := (place?_performAll actions _ place).1 hplace
      have hmodule := modules_performAll actions place
      rw [hm.loaded] at hmodule
      obtain ⟨code, hcode, rfl⟩ := Option.map_eq_some_iff.1 hmodule
      simp only [Function.comp_apply, hcode, Option.bind_some] at hentry
      obtain ⟨entry, hexport, heq⟩ := Option.bind_eq_some_iff.1 hentry
      cases heq
      exact .code hnative (by simpa [Callable.isNative] using hguard) hm hexport
    · rintro (⟨hf⟩ | ⟨-, hguard, hm, hexport⟩)
      · rw [hnative] at hf
        cases hf
      · rename_i place entry m
        have hmodule := modules_performAll actions place
        rw [hm.loaded] at hmodule
        obtain ⟨code, hcode, rfl⟩ := Option.map_eq_some_iff.1 hmodule
        refine ⟨?_, by simp [hguard]⟩
        rw [(place?_performAll actions _ place).2 ⟨_, hm⟩]
        simp only [Function.comp_apply, Option.bind_some, hcode, hexport]

/-- Whatever the actions, every module has one binding for each import. -/
theorem whole_performAll (actions : List Action) : (performAll {} actions).Whole := by
  induction actions using List.reverseRecOn with
  | nil =>
    intro place m hm
    exact absurd hm (by simp [performAll])
  | append_singleton actions a ih =>
    rw [performAll_concat]
    exact ih.perform a

/-! ## When an import is bound -/

/-- After some actions, one more binds an import of the module at a place, to what answers to its
name just then. -/
structure Binds (before : List Action) (action : Action) (place index : Nat) (wanted : Import)
    (target : Callable) : Prop where
  /-- It links that module, or all modules that have their names. -/
  links : action = .link place ∨ action = .linkAll
  /-- The import was open. -/
  was_open : ∃ m, (performAll {} before).modules[place]? = some m ∧ m.binding? index = none
  /-- It is bound now. -/
  bound : ∃ m, (performAll {} (before ++ [action])).modules[place]? = some m ∧
    m.binding? index = some target
  /-- That is what answered to its name. -/
  answers : Answers before wanted target

/-- An import that is bound was bound by one of the actions. -/
theorem exists_binds (actions : List Action) {index : Nat} {target : Callable}
    (hcode : (performAll {} actions).modules[place]? = some code)
    (hbound : code.binding? index = some target) :
    ∃ wanted, code.module.imports[index]? = some wanted ∧ ∃ before action rest,
      actions = before ++ action :: rest ∧ Binds before action place index wanted target := by
  induction actions using List.reverseRecOn generalizing code with
  | nil => exact absurd hcode (by simp [performAll])
  | append_singleton actions a ih =>
    -- What was bound before the last action was bound by an earlier one.
    have hlater : ∀ code₀ : LoadedModule,
        (performAll {} actions).modules[place]? = some code₀ →
        code₀.binding? index = some target →
        ∃ wanted, code₀.module.imports[index]? = some wanted ∧ ∃ before action rest,
          actions ++ [a] = before ++ action :: rest ∧
            Binds before action place index wanted target := by
      intro code₀ hcode₀ hbound₀
      obtain ⟨wanted, hwanted, before, action, rest, rfl, hbinds⟩ := ih hcode₀ hbound₀
      exact ⟨wanted, hwanted, before, action, rest ++ [a], by simp, hbinds⟩
    have hperform := hcode
    rw [performAll_concat] at hperform
    rcases modules_perform _ a hperform with hold | ⟨code₀, hcode₀, rfl, hlinks⟩ | ⟨-, m, -, rfl⟩
    · exact hlater code hold hbound
    · -- The module was linked: the import had been bound before, or is bound by this action.
      have heq := binding?_bind_eq (performAll {} actions)
        (whole_performAll actions place code₀ hcode₀) index
      rw [hbound] at heq
      obtain ⟨wanted, hwanted, htarget⟩ := Option.bind_eq_some_iff.1 heq.symm
      cases hbefore : code₀.binding? index with
      | some c =>
        rw [hbefore] at htarget
        cases htarget
        exact hlater code₀ hcode₀ hbefore
      | none =>
        rw [hbefore] at htarget
        exact ⟨wanted, hwanted, actions, a, [], rfl, hlinks, ⟨code₀, hcode₀, hbefore⟩,
          ⟨_, hcode, hbound⟩, (target?_eq_some_iff actions wanted target).1 htarget⟩
    · rw [(whole_ofModule m).2 index] at hbound
      cases hbound

/-- An import stays open in a link exactly if it was open and nothing answers to its name. -/
theorem binding?_bind_eq_none_iff {actions : List Action} {index : Nat} {wanted : Import}
    (hcode : (performAll {} actions).modules[place]? = some code)
    (hwanted : code.module.imports[index]? = some wanted) :
    ((performAll {} actions).bind code).binding? index = none ↔
      code.binding? index = none ∧ ∀ target, ¬ Answers actions wanted target := by
  rw [binding?_bind_eq _ (whole_performAll actions place code hcode), hwanted, Option.bind_some]
  cases hbefore : code.binding? index with
  | some c => exact iff_of_false (fun h => by cases h) fun h => by cases h.1
  | none =>
    show (performAll {} actions).target? wanted = none ↔ _
    simp only [← target?_eq_some_iff, true_and]
    exact Option.eq_none_iff_forall_ne_some

/-- A link tells the imports that it leaves open. -/
theorem link_eq (hl : l.Whole) (hcode : l.modules[place]? = some code) :
    (l.link place).1 = (l.bind code).openImports ∧
      (l.link place).2.modules[place]? = some (l.bind code) := by
  refine ⟨?_, by rw [modules_link, if_pos rfl, hcode]; rfl⟩
  unfold link
  rw [hcode]
  exact (whole_bind l (hl place code hcode)).unresolved_eq

/-- A module that is bound as far as it can be stays as it is while there are only links, and one
more link of it changes nothing at all. -/
theorem link_links {l' : Linker} (h : l.SameNames l')
    (hcode : l'.modules[place]? = some (l.bind code)) {links : List Action}
    (hlinks : ∀ a ∈ links, a.isLink = true) :
    (l'.performAll links).link place = ((l.bind code).unresolved, l'.performAll links) := by
  induction links generalizing l' with
  | nil =>
    have hlt := (Array.getElem?_eq_some_iff.1 hcode).1
    have hself : l'.modules.setIfInBounds place (l.bind code) = l'.modules := by
      refine Array.ext_getElem? fun other => ?_
      rw [Array.getElem?_setIfInBounds, if_pos hlt]
      split
      · rename_i heq
        rw [← heq, hcode]
      · rfl
    show l'.link place = _
    unfold link
    simp only [hcode, h.bind_eq, bind_bind, hself]
    rfl
  | cons a links ih =>
    have ha := perform_eq_linkEach l' (hlinks a List.mem_cons_self)
    have hnames : l.SameNames (l'.perform a) := by
      rw [ha]
      exact h.trans (sameNames_linkEach l' _)
    have hagain : (l'.perform a).modules[place]? = some (l.bind code) := by
      rw [ha, modules_linkEach, hcode, Option.map_some, h.bind_eq, bind_bind, ite_self]
    exact ih hnames hagain fun b hb => hlinks b (List.mem_cons_of_mem a hb)

/-- Linking is final. Let a linker be made by any loads, definitions and links, and let a module be
in it. What an import of the module is bound to it stays bound to, whatever is loaded, defined or
linked later; it has the arity of the import, it is a native if the import is for guards, and it is
what answered to the name when a link of the module bound it. A further link of the module tells
exactly its open imports, in their order: those that were open and to whose names nothing answers.
Linking it again, with nothing but links in between, tells the same and leaves the linker as it
is. -/
theorem bindings_final (actions : List Action) {place : Nat} {code : LoadedModule}
    (hcode : (performAll {} actions).modules[place]? = some code) :
    (∀ index target, code.binding? index = some target →
      (∀ more, ∃ code', (performAll {} (actions ++ more)).modules[place]? = some code' ∧
        code'.module = code.module ∧ code'.binding? index = some target) ∧
      ∃ wanted, code.module.imports[index]? = some wanted ∧
        target.arity = wanted.id.arity ∧ (wanted.guard = true → target.isNative = true) ∧
        ∃ before action rest, actions = before ++ action :: rest ∧
          Binds before action place index wanted target) ∧
    ∃ after : LoadedModule,
      ((performAll {} actions).link place).2.modules[place]? = some after ∧
      after.module = code.module ∧
      ((performAll {} actions).link place).1 = after.openImports ∧
      (∀ index wanted, code.module.imports[index]? = some wanted →
        (after.binding? index = none ↔
          code.binding? index = none ∧ ∀ target, ¬ Answers actions wanted target)) ∧
      ∀ links : List Action, (∀ a ∈ links, a.isLink = true) →
        (performAll {} (actions ++ .link place :: links)).link place =
          (after.openImports, performAll {} (actions ++ .link place :: links)) := by
  have hwhole := whole_performAll actions
  refine ⟨fun index target hbound => ⟨fun more => ?_, ?_⟩, (performAll {} actions).bind code, ?_⟩
  · obtain ⟨code', hcode', hmodule, hkept⟩ := hwhole.performAll_keeps more hcode
    rw [← performAll_append] at hcode'
    exact ⟨code', hcode', hmodule, hkept index target hbound⟩
  · obtain ⟨wanted, hwanted, before, action, rest, hactions, hbinds⟩ :=
      exists_binds actions hcode hbound
    exact ⟨wanted, hwanted, hbinds.answers.arity_eq, hbinds.answers.isNative, before, action, rest,
      hactions, hbinds⟩
  · obtain ⟨htold, hafter⟩ := link_eq hwhole hcode
    refine ⟨hafter, rfl, htold, fun index wanted hwanted => binding?_bind_eq_none_iff hcode hwanted,
      fun links hlinks => ?_⟩
    -- The open imports stay open, since links change no name that they could be bound to.
    rw [performAll_append, ← (whole_bind _ (hwhole place code hcode)).unresolved_eq]
    exact link_links (sameNames_link _ place) hafter hlinks

/-- A call of `b:f/0` that was bound to the first module `b` stays so, though another `b` is loaded
and a native of that name defined; the same call in a guard waits for the native, and gets it. -/
theorem bindings_final_replaced :
    let caller : Module := { (default : Module) with
      name := "a", imports := #[⟨⟨"b", "f", 0⟩, false⟩, ⟨⟨"b", "f", 0⟩, true⟩] }
    let called (entry : Nat) : Module := { (default : Module) with
      name := "b", exports := [⟨⟨"f", 0⟩, entry⟩] }
    let before : List Action := [.load caller, .load (called 3)]
    let actions := before ++ [.link 0, .load (called 7), .define ⟨"b", "f", 0⟩ (.constant .nil)]
    ((performAll {} before).link 0).1 = [⟨"b", "f", 0⟩] ∧
      ∃ after : LoadedModule, ((performAll {} actions).link 0).2.modules[0]? = some after ∧
        ((performAll {} actions).link 0).1 = [] ∧
        after.binding? 0 = some (.code ⟨"b", 1⟩ 3 0 []) ∧
        (after.binding? 1).map Callable.isNative = some true ∧
        ∀ more, ∃ code', (performAll {} (actions ++ more)).modules[0]? = some code' ∧
          code'.module = caller ∧ code'.binding? 0 = some (.code ⟨"b", 1⟩ 3 0 []) := by
  intro caller called before actions
  obtain ⟨hstays, after, hafter, -⟩ := @bindings_final actions 0 _ rfl
  refine ⟨by decide +kernel, after, hafter, by decide +kernel, ?_, ?_, (hstays 0 _ rfl).1⟩
  · cases hafter
    rfl
  · cases hafter
    rfl

end Linker

end ErlangMachine
