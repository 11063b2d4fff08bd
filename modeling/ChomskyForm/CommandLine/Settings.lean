import ChomskyForm.Conversion

/-!
# What a command line asks for
-/

namespace ChomskyForm

namespace CommandLine

/-- Why a text is no start symbol. -/
inductive StartFault where
  | reserved
  | notALetter
deriving DecidableEq

def StartFault.message : StartFault → String
  | reserved => s!"`{Symbol.marker}` is reserved for the empty string"
  | notALetter => "Start symbol must be a single letter"

/-- Reads a start symbol: one letter that is not the empty marker. -/
def readStart : List Char → Except StartFault Symbol
  | [c] =>
    if c = Symbol.marker.char then .error .reserved
    else if c.isAlpha then .ok ⟨c⟩
    else .error .notALetter
  | _ => .error .notALetter

inductive Flag where
  | finalOnly
  | copyClosure
  | liftTerminals
  | prune
deriving DecidableEq

/-- A complete request for a conversion. -/
structure Settings where
  file : String
  start : Option Symbol
  finalOnly : Bool
  options : Options
deriving DecidableEq

/-- The settings that a file, a start symbol and the flags that were set amount to. -/
def Settings.ofFlags (file : String) (start : Option Symbol) (flags : List Flag) : Settings where
  file
  start
  finalOnly := .finalOnly ∈ flags
  options :=
    { closureCopy := if .copyClosure ∈ flags then .everyMember else .whileEmpty
      liftTerminals := .liftTerminals ∈ flags
      prune := .prune ∈ flags }

/-- Why a command line does not lead to a conversion. -/
inductive Stop where
  | help
  | version
  /-- No file was named. -/
  | missingFile
  /-- The name of the file is empty. -/
  | emptyFile
  /-- The start option stands without a symbol. -/
  | missingSymbol
  | badSymbol (fault : StartFault)
  /-- An option that is not known, or a second file. -/
  | unknownArgument
  /-- An option is given twice. -/
  | repeatedOption
  /-- A flag is given a value. -/
  | unexpectedValue
deriving DecidableEq

namespace Stop

/-- The exit status: only asking for help or for the version is no error. -/
def exitCode : Stop → UInt8
  | help => 0
  | version => 0
  | _ => 2

/-- What is printed for a command line that does not lead to a conversion. -/
def message : Stop → String
  | help => "Converts a context-free grammar to Chomsky normal form

Usage: chomskify [OPTIONS] <FILE>

Arguments:
  <FILE>  File containing the grammar

Options:
  -s, --start <SYMBOL>  Start symbol (default: left side of the first rule)
  -f, --final-only      Only print the final rules, not the rules after every stage
      --copy-closure    Copy the productions of every nonterminal the start symbol reaches through unit rules, even once it has productions of its own
      --lift-terminals  Replace terminals in two-symbol right sides with new nonterminals
      --prune           Remove rules that are unreachable or derive no terminal string
  -h, --help            Print help
  -V, --version         Print version
"
  | version => "chomskify 0.1.0\n"
  | missingFile => "error: the following required arguments were not provided:\n  <FILE>\n"
  | emptyFile => "error: a value is required for '<FILE>' but none was supplied\n"
  | missingSymbol => "error: a value is required for '--start <SYMBOL>' but none was supplied\n"
  | badSymbol fault => s!"error: invalid value for '--start <SYMBOL>': {fault.message}\n"
  | unknownArgument => "error: unexpected argument found\n"
  | repeatedOption => "error: an argument cannot be used multiple times\n"
  | unexpectedValue => "error: unexpected value for a flag\n"

end Stop

end CommandLine

end ChomskyForm
