import ChomskyForm.GrammarFile.Path

/-!
# Places in files

A message is shown with the place it is about, in square brackets and in red.
-/

namespace ChomskyForm

/-- A line of a file, or the whole file. -/
structure Location where
  file : String
  line : Option Nat := none
deriving DecidableEq

namespace Location

/-- Two places are the same if the paths to their files are, however written, and so are the lines. -/
def Same (a b : Location) : Prop := Path.ofText a.file = Path.ofText b.file ∧ a.line = b.line

instance (a b : Location) : Decidable (a.Same b) := inferInstanceAs (Decidable (_ ∧ _))

def text (l : Location) : String :=
  match l.line with
  | none => l.file
  | some n => s!"{l.file}:{n}"

/-- A message about a place, with the escape codes of a terminal for its colours. -/
def report (l : Location) (message : String) : String :=
  s!"\x1b[31;49;1m[{l.text}]\x1b[39;49;1m  {message}\x1b[0m"

end Location

end ChomskyForm
