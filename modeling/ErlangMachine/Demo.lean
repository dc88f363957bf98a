import ErlangMachine.Listing.Basic
import ErlangMachine.Machine.Run
import ErlangMachine.Module.Disassembly

/-!
# A small module at work

The module `demo` sums a list of numbers in a loop of tail calls. `Demo.report` assembles it, links
it and runs it on the numbers from one to ten.
-/

namespace ErlangMachine.Demo

/-- `sum/1` starts `sum/2` with nothing summed yet. -/
def sumOne : FunctionListing where
  function := ⟨"sum", 1⟩
  entry := 2
  body := #[
    ⟨.label, [.int 1]⟩,
    ⟨.funcInfo, [.atom "demo", .atom "sum", .int 1]⟩,
    ⟨.label, [.int 2]⟩,
    ⟨.move, [.int 0, .x 1]⟩,
    ⟨.callOnly, [.int 2, .label 4]⟩]

/-- `sum/2` adds the head of the list to the sum so far and goes on with the tail. -/
def sumTwo : FunctionListing where
  function := ⟨"sum", 2⟩
  entry := 4
  body := #[
    ⟨.label, [.int 3]⟩,
    ⟨.funcInfo, [.atom "demo", .atom "sum", .int 2]⟩,
    ⟨.label, [.int 4]⟩,
    ⟨.isNonemptyList, [.label 5, .x 0]⟩,
    ⟨.getList, [.x 0, .x 2, .x 0]⟩,
    ⟨.gcBif2, [.label 0, .int 3, .external ⟨"erlang", "+", 2⟩, .x 1, .x 2, .x 1]⟩,
    ⟨.callOnly, [.int 2, .label 4]⟩,
    ⟨.label, [.int 5]⟩,
    ⟨.isNil, [.label 3, .x 0]⟩,
    ⟨.move, [.x 1, .x 0]⟩,
    ⟨.ret, []⟩]

/-- The module. -/
def listing : Listing := ⟨"demo", #[⟨"sum", 1⟩], #[sumOne, sumTwo]⟩

/-- The numbers to sum. -/
def numbers : Term := .list ((List.range 10).map fun n => .integer (.ofNat (n + 1)))

/-- One line on how the call ended. -/
def outcomeLine (outcome : Machine.Outcome) : String :=
  "demo:sum(" ++ numbers.text ++ ")" ++
    match outcome with
    | .returned value => " = " ++ value.text
    | .suspended k => " suspended: " ++ k.text
    | .faulted fault => " failed: " ++ fault.kind.atom.name ++ ": " ++ fault.reason.text
    | .broken error => " failed: " ++ error.message

/-- The lines to print: the code, the imports that stay open, and the result. -/
def report (fuel : Nat) : Except Assembler.Error (List String) := do
  let module ← listing.toModule
  let (missing, linker) := (Linker.withErlang.load module).linkAll
  let result := Machine.callExport linker fuel "demo" "sum" [numbers] {}
  return ("Module " ++ module.name.name ++ ":\n" ++ module.disassemble) ::
    missing.map (fun id => "Unresolved import: " ++ id.text) ++
    result.toList.map fun halt => outcomeLine halt.outcome

end ErlangMachine.Demo
