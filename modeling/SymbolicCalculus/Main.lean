import SymbolicCalculus.CommandLine

/-! The program itself: arguments and lines in, printed lines and an exit code out. -/
namespace SymbolicCalculus.CommandLine

def write (printed : Shell.Printed) : IO Unit := do
  for line in printed.out do IO.println line
  for line in printed.err do IO.eprintln line

def converse (input : IO.FS.Stream) : IO Unit := do
  let mut context : Bindings Float := .empty
  repeat
    let line ← input.getLine
    if line.isEmpty then break
    let (printed,after) := Shell.enter context line
    write printed
    context := after

end SymbolicCalculus.CommandLine

open SymbolicCalculus CommandLine in
def main (arguments : List String) : IO UInt32 := do
  match Request.ofArguments arguments with
  | .dialogue => do
      converse (← IO.getStdin)
      return 0
  | _ => do
      let outcome := run arguments []
      write outcome.printed
      return if outcome.succeeds then 0 else 1
