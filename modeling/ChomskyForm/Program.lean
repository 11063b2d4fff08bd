import ChomskyForm.CommandLine.Arguments
import ChomskyForm.Grammar.Printer
import ChomskyForm.GrammarFile.Reader

/-!
# The program as a function

What the program prints and how it ends, as a function of its arguments and of the files there are.
-/

namespace ChomskyForm

namespace Program

/-- What a run of the program leaves behind.  The notices of the reader and of the conversion are logged
on request only, and are no part of it. -/
structure Result where
  exitCode : UInt8
  out : String := ""
  err : String := ""
deriving DecidableEq

/-- The grammar after a stage, under the heading of the stage. -/
def block (stage : Stage) (g : Grammar) : String := s!"\n{stage.heading}\n{g.text}"

/-- What is printed of a conversion: the grammar after every stage, or just the result. -/
def printed (finalOnly : Bool) (c : Conversion) : String :=
  if finalOnly then
    match c.outcome with
    | .ok g => g.text
    | .error _ => ""
  else String.join (c.shown.map fun (stage, g) => block stage g)

/-- A message on a line of its own. -/
def errorLine (message : String) : String := message ++ "\n"

/-- Reads and converts a grammar as the settings say. -/
def convertFile (files : String → Option (List UInt8)) (s : CommandLine.Settings) : Result :=
  match GrammarFile.ofBytes? s.file (files s.file) s.start with
  | .error es => { exitCode := 1, err := String.join (es.map (errorLine ·.display)) }
  | .ok g =>
    let c := g.convert s.options
    let out := printed s.finalOnly c
    match c.outcome with
    | .ok _ => { exitCode := 0, out }
    | .error e =>
      { exitCode := 1, out, err := errorLine (Location.report { file := s.file } e.message) }

def run (files : String → Option (List UInt8)) (arguments : List String) : Result :=
  match CommandLine.ofArguments arguments with
  | .ok s => convertFile files s
  | .error stop =>
    if stop.exitCode = 0 then { exitCode := 0, out := stop.message }
    else { exitCode := stop.exitCode, err := stop.message }

end Program

end ChomskyForm
