import ErlangMachine.Demo

/-!
# The command line

Prints the report on the module `demo`.
-/

/-- Prints the report, or what is wrong with the module. -/
def main : IO Unit :=
  match ErlangMachine.Demo.report 1000 with
  | .ok lines => lines.forM IO.println
  | .error e => IO.eprintln e.message
