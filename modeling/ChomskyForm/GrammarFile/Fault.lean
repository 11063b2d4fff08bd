import ChomskyForm.Symbol

/-!
# Faults in a grammar file

A fault is one reason for which a line or a file cannot be read.  `Fault.SameKind` compares two
faults without the text they quote.
-/

namespace ChomskyForm

/-- Why a file, or one of its lines, cannot be read as text. -/
inductive FileTrouble where
  | notFound
  | notUtf8
deriving DecidableEq

def FileTrouble.message : FileTrouble → String
  | notFound => "No such file or directory (os error 2)"
  | notUtf8 => "stream did not contain valid UTF-8"

/-- What is wrong with a line or a file. -/
inductive Fault where
  /-- The line does not begin with a word. -/
  | missingLeftSide
  /-- The left side is not a single character. -/
  | longLeftSide (word : List Char)
  /-- The left side is the empty marker. -/
  | markerOnLeft
  /-- There is nothing where an alternative should be. -/
  | missingRightSide
  /-- A dash is not followed by an angle bracket. -/
  | malformedArrow
  /-- An arrow stands elsewhere than after the left side. -/
  | unexpectedArrow
  /-- A second word in one alternative. -/
  | unexpectedWord (word : List Char)
  /-- A character that is not a letter. -/
  | invalidSymbol (c : Char)
  /-- The empty marker in a longer right side. -/
  | misplacedMarker
  /-- The whole file has too few alternatives. -/
  | tooFewRules (count : Nat)
  /-- The start symbol is no left side. -/
  | undefinedStart (start : Symbol)
  /-- There is no token at all. -/
  | blankLine
  /-- The text of the file or line is not to be had. -/
  | unreadable (trouble : FileTrouble)
deriving DecidableEq

namespace Fault

/-- With fewer alternatives than this a file holds nothing worth converting. -/
def minRules : Nat := 3

def message : Fault → String
  | missingLeftSide => "Expected a nonterminal at the start of the rule"
  | longLeftSide word => s!"Left side `{String.ofList word}` must be a single letter"
  | markerOnLeft =>
    s!"`{Symbol.marker}` is reserved for the empty string and cannot be a left side"
  | missingRightSide => "Expected a right side"
  | malformedArrow => "Expected `->`"
  | unexpectedArrow => "Unexpected `->` encountered"
  | unexpectedWord word => s!"Unexpected `{String.ofList word}`; separate alternatives with `|`"
  | invalidSymbol c => s!"`{c}` is not a letter"
  | misplacedMarker => s!"`{Symbol.marker}` must stand alone on a right side"
  | tooFewRules count => s!"Expected at least {minRules} rules, found {count}"
  | undefinedStart start => s!"Could not find definition for start symbol `{start}`"
  | blankLine =>
    "Blank line encountered in rule parser (this is a problem with chomskify, not the grammar)"
  | unreadable trouble => s!"File error: {trouble.message}"

/-- The fault without the text it quotes; the trouble with a file is kept. -/
def bare : Fault → Fault
  | longLeftSide _ => longLeftSide []
  | unexpectedWord _ => unexpectedWord []
  | invalidSymbol _ => invalidSymbol ' '
  | tooFewRules _ => tooFewRules 0
  | undefinedStart _ => undefinedStart Symbol.marker
  | fault => fault

/-- Two faults differ at most in the text they quote. -/
def SameKind (a b : Fault) : Prop := a.bare = b.bare

instance (a b : Fault) : Decidable (a.SameKind b) := inferInstanceAs (Decidable (_ = _))

end Fault

end ChomskyForm
