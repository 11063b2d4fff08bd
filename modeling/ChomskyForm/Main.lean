import ChomskyForm.Program

/-!
# The program
-/

open ChomskyForm

/-- The bytes of a file, if it can be read. -/
def ChomskyForm.readFile? (name : String) : IO (Option (List UInt8)) := do
  try
    let bytes ← IO.FS.readBinFile name
    return some bytes.data.toList
  catch _ => return none

/-- Runs the program on the files that there are. -/
def main (arguments : List String) : IO UInt32 := do
  let content ← match CommandLine.ofArguments arguments with
    | .ok settings => readFile? settings.file
    | .error _ => pure none
  let result := Program.run (fun _ => content) arguments
  IO.print result.out
  IO.eprint result.err
  return result.exitCode.toUInt32
