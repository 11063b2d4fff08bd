import ChomskyForm.GrammarFile.Lines
import ChomskyForm.GrammarFile.Location
import ChomskyForm.GrammarFile.Rule
import ChomskyForm.Noted

/-!
# Reading a grammar from a file

Blank lines and lines that begin with a semicolon are skipped, every other line is a rule.  All
faulty lines are reported together; only if there are none is the file looked at as a whole.  The
start symbol is the one asked for, or else the left side of the first rule.
-/

namespace ChomskyForm

structure FileError where
  location : Location
  fault : Fault
deriving DecidableEq

namespace FileError

def display (e : FileError) : String := e.location.report e.fault.message

/-- Two errors are about the same place and differ at most in the text they quote. -/
def SameKind (a b : FileError) : Prop := a.location.Same b.location ∧ a.fault.SameKind b.fault

instance (a b : FileError) : Decidable (a.SameKind b) := inferInstanceAs (Decidable (_ ∧ _))

end FileError

namespace GrammarFile

/-- Whether a line is neither blank nor a comment. -/
def isRuleLine (line : List Char) : Bool := !line.all isBlank && line.head? ≠ some ';'

/-- Reads a line with its number; there is no answer for a line that is skipped.  A line that cannot
be decoded is reported for the whole file. -/
def readLine (file : String) : Option (List Char) × Nat → Option (Except FileError Rule)
  | (none, _) => some (.error ⟨{ file }, .unreadable .notUtf8⟩)
  | (some line, n) =>
    if isRuleLine line then
      some ((Rule.ofLine line).mapError fun fault => ⟨{ file, line := some n }, fault⟩)
    else none

/-- The lines that are not skipped, each read by itself; lines are numbered from one. -/
def readLines (file : String) (lines : List (Option (List Char))) : List (Except FileError Rule) :=
  (lines.zipIdx 1).filterMap (readLine file)

def rules (read : List (Except FileError Rule)) : List Rule := read.filterMap Except.toOption

def errors (read : List (Except FileError Rule)) : List FileError :=
  read.filterMap fun
    | .error e => some e
    | .ok _ => none

/-- What is wrong with the rules of a file as a whole. -/
def wholeFaults (rs : List Rule) (start : Option Symbol) : List Fault :=
  let count := (rs.flatMap Rule.productions).length
  (if count < Fault.minRules then [.tooFewRules count] else []) ++
    match start with
    | none => []
    | some s => if rs.any (·.lhs = s) then [] else [.undefinedStart s]

/-- Puts faultless rules together. -/
def assemble (file : String) (rs : List Rule) (start : Option Symbol) :
    Except (List FileError) Grammar :=
  let start := start <|> rs.head?.map Rule.lhs
  match wholeFaults rs start, start with
  | [], some s => .ok (Grammar.ofProductions s (rs.flatMap Rule.productions))
  | faults, _ => .error (faults.map fun fault => ⟨{ file }, fault⟩)

def ofLines (file : String) (lines : List (Option (List Char))) (start : Option Symbol) :
    Except (List FileError) Grammar :=
  let read := readLines file lines
  match errors read with
  | [] => assemble file (rules read) start
  | es => .error es

/-- Reads a file from its bytes; there are none if there is no such file. -/
def ofBytes? (file : String) (bytes : Option (List UInt8)) (start : Option Symbol) :
    Except (List FileError) Grammar :=
  match bytes with
  | none => .error [⟨{ file }, .unreadable .notFound⟩]
  | some bs => ofLines file (linesOfBytes bs) start

/-- Reads a file and tells how much was read. -/
def read (file : String) (bytes : Option (List UInt8)) (start : Option Symbol) :
    Noted (List FileError) Grammar :=
  match ofBytes? file bytes start with
  | .error es => .fail es
  | .ok g => do
    .note (.read g.productionCount file)
    pure g

end GrammarFile

end ChomskyForm
