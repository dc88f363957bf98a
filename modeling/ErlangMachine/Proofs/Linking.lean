import ErlangMachine.Linker

/-!
# What a linker holds

A linker starts empty and is built by defining natives, loading modules and linking them, in any
order and any number of times. `Linker.Built` says so, with a condition on the natives and one on
the modules. Whatever an import is bound to was once the answer to a name in an earlier state of the
same linker (`Linker.Built.binding`), and the modules of that earlier state are still in their
places (`Linker.Extends`), so what holds of all names holds of all bindings.
-/

namespace ErlangMachine

/-- A native of the module `erlang`, under its own name. -/
def Native.IsErlang (id : FunctionId) (f : Native) : Prop :=
  id.module = "erlang" ∧ (⟨id.function, id.arity⟩, f) ∈ Native.erlang

/-- Two natives of `erlang` deal with the world: one asks it for the identity of the process, and
one sends. All others look at their arguments only. -/
theorem Native.IsErlang.kinds {id : FunctionId} {f : Native} (hf : IsErlang id f) :
    (∃ g, f = ofPure g) ∨ f = self ∨ f = send := by
  obtain ⟨-, hmem⟩ := hf
  unfold erlang at hmem
  rw [List.mem_append, List.mem_append, List.mem_map, List.mem_map] at hmem
  rcases hmem with (⟨_, _, heq⟩ | ⟨_, _, heq⟩) | hmem
  · exact .inl ⟨_, (Prod.mk.inj heq).2.symm⟩
  · exact .inl ⟨_, (Prod.mk.inj heq).2.symm⟩
  · simp only [List.mem_cons, Prod.mk.injEq, List.not_mem_nil, or_false] at hmem
    rcases hmem with ⟨-, rfl⟩ | ⟨-, rfl⟩ | ⟨-, rfl⟩ | ⟨-, rfl⟩ | ⟨-, rfl⟩
    · exact .inr (.inl rfl)
    · exact .inl ⟨_, rfl⟩
    · exact .inl ⟨_, rfl⟩
    · exact .inr (.inr rfl)
    · exact .inr (.inr rfl)

namespace Linker

/-- A linker that was built from natives and modules of some kind. -/
inductive Built (native : FunctionId → Native → Prop) (module : Module → Prop) : Linker → Prop where
  /-- Nothing has been defined or loaded. -/
  | empty : Built native module {}
  /-- One more native. -/
  | define {l : Linker} (id : FunctionId) (f : Native) : native id f → Built native module l →
    Built native module (l.define id f)
  /-- One more module. -/
  | load {l : Linker} (m : Module) : module m → Built native module l →
    Built native module (l.load m)
  /-- The open imports of a module are bound. -/
  | link {l : Linker} (place : Nat) : Built native module l → Built native module (l.link place).2

/-- Every module of the first linker is in the second, at the same place. -/
def Extends (l l' : Linker) : Prop :=
  ∀ ref code, l.get? ref = some code →
    ∃ code', l'.get? ref = some code' ∧ code'.module = code.module

namespace Extends

/-- What extends an extension extends. -/
theorem trans {l₁ l₂ l₃ : Linker} (h₁₂ : l₁.Extends l₂) (h₂₃ : l₂.Extends l₃) : l₁.Extends l₃ := by
  intro ref code hcode
  obtain ⟨code₂, hcode₂, hmodule₂⟩ := h₁₂ ref code hcode
  obtain ⟨code₃, hcode₃, hmodule₃⟩ := h₂₃ ref code₂ hcode₂
  exact ⟨code₃, hcode₃, hmodule₃.trans hmodule₂⟩

/-- Loading a module leaves the others where they are. -/
theorem load (l : Linker) (m : Module) : l.Extends (l.load m) := by
  intro ref code hcode
  refine ⟨code, ?_, rfl⟩
  have hlt : ref.place < l.modules.size := (Array.getElem?_eq_some_iff.1 hcode).1
  unfold get? Linker.load at *
  rw [Array.getElem?_push_lt hlt]
  rw [Array.getElem?_eq_getElem hlt] at hcode
  exact hcode

end Extends

/-- What a module is after its place was linked: itself, or itself with its open imports bound. -/
theorem get?_link {l : Linker} {place : Nat} {ref : ModuleRef} {code : LoadedModule}
    (h : (l.link place).2.get? ref = some code) :
    ∃ code₀, l.get? ref = some code₀ ∧ (code = code₀ ∨ code = l.bind code₀) := by
  unfold link at h
  cases hplace : l.modules[place]? with
  | none =>
    rw [hplace] at h
    exact ⟨code, h, .inl rfl⟩
  | some m =>
    rw [hplace] at h
    unfold get? at h ⊢
    rw [Array.getElem?_setIfInBounds] at h
    by_cases heq : place = ref.place
    · have hlt : place < l.modules.size := (Array.getElem?_eq_some_iff.1 hplace).1
      rw [if_pos heq, if_pos hlt] at h
      exact ⟨m, heq ▸ hplace, .inr (Option.some.inj h).symm⟩
    · rw [if_neg heq] at h
      exact ⟨code, h, .inl rfl⟩

/-- Linking leaves every module where it is. -/
theorem Extends.link (l : Linker) (place : Nat) : l.Extends (l.link place).2 := by
  intro ref code hcode
  unfold Linker.link
  cases hplace : l.modules[place]? with
  | none => exact ⟨code, hcode, rfl⟩
  | some m =>
    unfold get? at hcode ⊢
    rw [Array.getElem?_setIfInBounds]
    by_cases heq : place = ref.place
    · have hlt : place < l.modules.size := (Array.getElem?_eq_some_iff.1 hplace).1
      rw [if_pos heq, if_pos hlt]
      obtain rfl : m = code := Option.some.inj (hplace.symm.trans (heq ▸ hcode))
      exact ⟨l.bind m, rfl, rfl⟩
    · rw [if_neg heq]
      exact ⟨code, hcode, rfl⟩

/-- Linking defines no natives. -/
theorem natives_link (l : Linker) (place : Nat) : (l.link place).2.natives = l.natives := by
  unfold link
  cases l.modules[place]? with
  | none => rfl
  | some m => rfl

/-- What is bound after binding was bound before, or stands for the import's name. -/
theorem binding?_bind {l : Linker} {code : LoadedModule} {index : Nat} {target : Callable}
    (h : (l.bind code).binding? index = some target) :
    code.binding? index = some target ∨ ∃ id, l.resolve? id = some target := by
  have hbound := Option.join_eq_some_iff.1 h
  unfold bind at hbound
  rw [List.getElem?_map] at hbound
  obtain ⟨⟨i, old⟩, hlink, heq⟩ := Option.map_eq_some_iff.1 hbound
  cases old with
  | some c =>
    left
    obtain ⟨-, hold⟩ := List.getElem?_zip_eq_some.1 hlink
    unfold LoadedModule.binding?
    rw [hold]
    exact heq
  | none =>
    right
    exact ⟨i.id, (Option.filter_eq_some_iff.1 heq).1⟩

/-- What a name stands for: the native that was defined under it, or else a function that the module
of that name exports. -/
theorem resolve?_forms {l : Linker} {id : FunctionId} {target : Callable}
    (h : l.resolve? id = some target) :
    (∃ f, l.natives.lookup id = some f ∧ target = .native id f) ∨
    ∃ ref code entry, l.get? ref = some code ∧
      code.module.exportEntry? ⟨id.function, id.arity⟩ = some entry ∧
      target = .code ref entry id.arity [] := by
  unfold resolve? at h
  cases hlookup : l.natives.lookup id with
  | some f =>
    rw [hlookup] at h
    exact .inl ⟨f, rfl, (Option.some.inj h).symm⟩
  | none =>
    rw [hlookup] at h
    obtain ⟨ref, _, h⟩ := Option.bind_eq_some_iff.1 h
    obtain ⟨code, hcode, h⟩ := Option.bind_eq_some_iff.1 h
    obtain ⟨entry, hentry, h⟩ := Option.bind_eq_some_iff.1 h
    exact .inr ⟨ref, code, entry, hcode, hentry, (Option.some.inj h).symm⟩

namespace Built

variable {native : FunctionId → Native → Prop} {module : Module → Prop} {l : Linker}

/-- A linker built from natives and modules of some kind is built from those of every wider kind. -/
theorem mono {native' : FunctionId → Native → Prop} {module' : Module → Prop}
    (hl : l.Built native module) (hnative : ∀ id f, native id f → native' id f)
    (hmodule : ∀ m, module m → module' m) : l.Built native' module' := by
  induction hl with
  | empty => exact .empty
  | define id f hf _ ih => exact .define id f (hnative id f hf) ih
  | load m hm _ ih => exact .load m (hmodule m hm) ih
  | link place _ ih => exact .link place ih

/-- Every native was defined for the arity of its name. -/
theorem lookup (hl : l.Built native module) {id : FunctionId} {f : Native}
    (h : l.natives.lookup id = some f) : ∃ g, native id g ∧ f = g.ofArity id.arity := by
  induction hl with
  | empty => cases h
  | @define l id' g hg _ ih =>
    unfold Linker.define at h
    rw [List.lookup_cons] at h
    by_cases heq : id = id'
    · subst heq
      rw [beq_self_eq_true] at h
      exact ⟨g, hg, (Option.some.inj h).symm⟩
    · rw [beq_eq_false_iff_ne.2 heq] at h
      exact ih h
  | load m _ _ ih => exact ih h
  | @link l place _ ih =>
    rw [natives_link] at h
    exact ih h

/-- Every loaded module is of the kind that was loaded. -/
theorem loaded (hl : l.Built native module) {ref : ModuleRef} {code : LoadedModule}
    (h : l.get? ref = some code) : module code.module := by
  induction hl generalizing code with
  | empty => cases h
  | define _ _ _ _ ih => exact ih h
  | @load l m hm _ ih =>
    unfold get? Linker.load at h
    rw [Array.getElem?_push] at h
    split at h
    · cases h
      exact hm
    · exact ih h
  | @link l place _ ih =>
    obtain ⟨code₀, hcode₀, rfl | rfl⟩ := get?_link h
    · exact ih hcode₀
    · show module code₀.module
      exact ih hcode₀

/-- What an import is bound to was the answer to a name, in a linker that was since extended. -/
theorem binding (hl : l.Built native module) {ref : ModuleRef} {code : LoadedModule}
    (h : l.get? ref = some code) {index : Nat} {target : Callable}
    (htarget : code.binding? index = some target) :
    ∃ (l₀ : Linker) (id : FunctionId),
      l₀.Built native module ∧ l₀.Extends l ∧ l₀.resolve? id = some target := by
  induction hl generalizing code with
  | empty => cases h
  | @define l id f _ _ ih =>
    obtain ⟨l₀, id₀, hbuilt, hextends, hresolve⟩ := ih h htarget
    exact ⟨l₀, id₀, hbuilt, hextends, hresolve⟩
  | @load l m hm _ ih =>
    unfold get? Linker.load at h
    rw [Array.getElem?_push] at h
    split at h
    · cases h
      -- A module that was just loaded has no import bound.
      unfold LoadedModule.binding? LoadedModule.ofModule at htarget
      rw [List.getElem?_map] at htarget
      cases hi : m.imports.toList[index]? with
      | none | some i => rw [hi] at htarget; cases htarget
    · obtain ⟨l₀, id₀, hbuilt, hextends, hresolve⟩ := ih h htarget
      exact ⟨l₀, id₀, hbuilt, hextends.trans (.load l m), hresolve⟩
  | @link l place hbuilt ih =>
    have hextends : l.Extends (l.link place).2 := .link l place
    obtain ⟨code₀, hcode₀, rfl | rfl⟩ := get?_link h
    · obtain ⟨l₀, id₀, hbuilt₀, hextends₀, hresolve⟩ := ih hcode₀ htarget
      exact ⟨l₀, id₀, hbuilt₀, hextends₀.trans hextends, hresolve⟩
    · rcases binding?_bind htarget with hold | ⟨id, hid⟩
      · obtain ⟨l₀, id₀, hbuilt₀, hextends₀, hresolve⟩ := ih hcode₀ hold
        exact ⟨l₀, id₀, hbuilt₀, hextends₀.trans hextends, hresolve⟩
      · exact ⟨l, id, hbuilt, hextends, hid⟩

/-- A name stands for a native that was defined under it. -/
theorem resolve?_native (hl : l.Built native module) {id id' : FunctionId} {f : Native}
    (h : l.resolve? id = some (.native id' f)) : ∃ g, native id g ∧ f = g.ofArity id.arity := by
  obtain ⟨g, hlookup, heq⟩ | ⟨_, _, _, -, -, heq⟩ := resolve?_forms h
  · obtain ⟨-, rfl⟩ := Callable.native.inj heq
    exact hl.lookup hlookup
  · cases heq

end Built

/-- A native is known by the name that stands for it. -/
theorem resolve?_id {l : Linker} {id id' : FunctionId} {f : Native}
    (h : l.resolve? id = some (.native id' f)) : id' = id := by
  obtain ⟨g, -, heq⟩ | ⟨_, _, _, -, -, heq⟩ := resolve?_forms h
  · exact (Callable.native.inj heq).1
  · cases heq

/-- A name that stands for code stands for a function that the module of that name exports. -/
theorem resolve?_code {l : Linker} {id : FunctionId} {ref : ModuleRef} {entry arity : Nat}
    {captured : List Term} (h : l.resolve? id = some (.code ref entry arity captured)) :
    captured = [] ∧ ∃ code, l.get? ref = some code ∧
      code.module.exportEntry? ⟨id.function, id.arity⟩ = some entry := by
  obtain ⟨g, -, heq⟩ | ⟨_, code, _, hcode, hentry, heq⟩ := resolve?_forms h
  · cases heq
  · obtain ⟨rfl, rfl, -, rfl⟩ := Callable.code.inj heq
    exact ⟨rfl, code, hcode, hentry⟩

/-- Defining natives one after another builds a linker. -/
theorem built_foldl {module : Module → Prop} {fs : List (LocalName × Native)}
    (hfs : ∀ f ∈ fs, f ∈ Native.erlang) {l : Linker} (hl : l.Built Native.IsErlang module) :
    (fs.foldl (fun l (f, native) => l.define ⟨"erlang", f.name, f.arity⟩ native) l).Built
      Native.IsErlang module := by
  induction fs generalizing l with
  | nil => exact hl
  | cons f fs ih =>
    have hf : Native.IsErlang ⟨"erlang", f.1.name, f.1.arity⟩ f.2 := ⟨rfl, hfs f List.mem_cons_self⟩
    exact ih (fun g hg => hfs g (List.mem_cons_of_mem f hg)) (.define _ _ hf hl)

/-- A linker that knows the natives of `erlang` was built from them. -/
theorem built_withErlang (module : Module → Prop) :
    withErlang.Built Native.IsErlang module :=
  built_foldl (fun _ hf => hf) .empty

end Linker

end ErlangMachine
