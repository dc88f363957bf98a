import ErlangMachine.Module.Basic
import ErlangMachine.Native.Erlang

/-!
# Linking

A linker holds natives and loaded modules, and binds the imports of each module once. A module that
is loaded under a name in use takes over the name, while bindings and closures made before keep the
module that they were made from.
-/

namespace ErlangMachine

/-- Something to call. -/
inductive Callable where
  /-- A native, with the function it is known as. -/
  | native (id : FunctionId) (run : Native)
  /-- Code of a loaded module, which takes `arity` arguments and then the captured terms. -/
  | code (module : ModuleRef) (entry arity : Nat) (captured : List Term)
  deriving Inhabited

namespace Callable

/-- The number of arguments. -/
def arity : Callable → Nat
  | native id _ => id.arity
  | code _ _ arity _ => arity

/-- Whether something is a native. -/
def isNative : Callable → Bool
  | native .. => true
  | code .. => false

/-- A short text: a native by its name, code by its module and entry. -/
def text : Callable → String
  | native id _ => "Native(" ++ id.text ++ ")"
  | code module entry arity _ =>
    "Function(" ++ module.name.name ++ "@" ++ toString entry ++ "/" ++ toString arity ++ ")"

end Callable

/-- A module with what its imports are bound to. -/
structure LoadedModule where
  /-- The module. -/
  module : Module
  /-- For each import, what it is bound to. -/
  bindings : List (Option Callable)
  deriving Inhabited

namespace LoadedModule

/-- A module with no import bound. -/
def ofModule (m : Module) : LoadedModule := ⟨m, m.imports.toList.map fun _ => none⟩

/-- What an import is bound to. -/
def binding? (m : LoadedModule) (index : Nat) : Option Callable := (m.bindings[index]?).join

/-- The imports with their bindings. -/
def links (m : LoadedModule) : List (Import × Option Callable) :=
  m.module.imports.toList.zip m.bindings

/-- The imports that are not bound. -/
def unresolved (m : LoadedModule) : List FunctionId :=
  (m.links.filter (·.2.isNone)).map (·.1.id)

end LoadedModule

/-- The natives and the loaded modules. -/
structure Linker where
  /-- The natives; of two with one name the first counts. -/
  natives : List (FunctionId × Native) := []
  /-- All modules in the order of loading; of two with one name the last has the name. -/
  modules : Array LoadedModule := #[]
  deriving Inhabited

namespace Linker

/-- Defines a native. It sees exactly as many arguments as it was defined for. -/
def define (l : Linker) (id : FunctionId) (f : Native) : Linker :=
  { l with natives := (id, f.ofArity id.arity) :: l.natives }

/-- A linker that knows the natives of `erlang`. -/
def withErlang : Linker :=
  Native.erlang.foldl (fun l (f, native) => l.define ⟨"erlang", f.name, f.arity⟩ native) {}

/-- The place of the module that has a name. -/
def place? (l : Linker) (name : Atom) : Option Nat :=
  (List.range l.modules.size).reverse.find? fun i =>
    (l.modules[i]?.map (·.module.name)) = some name

/-- The module that has a name. -/
def find? (l : Linker) (name : Atom) : Option ModuleRef := (l.place? name).map (⟨name, ·⟩)

/-- The loaded module that a reference stands for. -/
def get? (l : Linker) (ref : ModuleRef) : Option LoadedModule := l.modules[ref.place]?

/-- Loads a module. -/
def load (l : Linker) (m : Module) : Linker :=
  { l with modules := l.modules.push (.ofModule m) }

/-- The native of that name, or else the exported function of it. -/
def resolve? (l : Linker) (id : FunctionId) : Option Callable :=
  match l.natives.lookup id with
  | some native => some (.native id native)
  | none => do
    let ref ← l.find? id.module
    let entry ← (← l.get? ref).module.exportEntry? ⟨id.function, id.arity⟩
    return .code ref entry id.arity []

/-- What an import can be bound to: where only a native may be called, nothing but a native. -/
def target? (l : Linker) (i : Import) : Option Callable :=
  (l.resolve? i.id).filter fun c => c.isNative || !i.guard

/-- The module with its open imports bound, as far as they can be. -/
def bind (l : Linker) (m : LoadedModule) : LoadedModule :=
  { m with bindings := m.links.map fun (i, bound) => bound <|> l.target? i }

/-- Binds the open imports of the module at a place, and tells which stay open. -/
def link (l : Linker) (place : Nat) : List FunctionId × Linker :=
  match l.modules[place]? with
  | none => ([], l)
  | some m =>
    let bound := l.bind m
    (bound.unresolved, { l with modules := l.modules.setIfInBounds place bound })

/-- The places of the modules that have their name. -/
def places (l : Linker) : List Nat :=
  (List.range l.modules.size).filter fun i =>
    (l.modules[i]?.bind fun m => l.place? m.module.name) = some i

/-- Links every module that has its name, and tells which imports stay open. -/
def linkAll (l : Linker) : List FunctionId × Linker :=
  l.places.foldl (fun (missing, l) place =>
    let (more, l) := l.link place
    (missing ++ more, l)) ([], l)

end Linker

end ErlangMachine
