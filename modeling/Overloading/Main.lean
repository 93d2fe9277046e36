import Overloading.Check.Command

/-!
# The command line of the signature checker

Reads the files that the arguments name, runs the checker and prints what it leaves.
-/

namespace Overloading

def readFile? (path : String) : IO (Option String) := do
  try
    return some (← IO.FS.readFile path)
  catch _ =>
    return none

end Overloading

open Overloading in
/-- runs the checker on the files its arguments name -/
def main (args : List String) : IO UInt32 := do
  let mut files : List (String × String) := []
  for path in args do
    if let some text ← readFile? path then
      files := (path, text) :: files
  let outcome := Check.run (fun path => files.lookup path) args
  IO.print outcome.output
  IO.eprint outcome.errors
  return outcome.status.toUInt32
