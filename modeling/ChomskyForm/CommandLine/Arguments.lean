import ChomskyForm.CommandLine.Settings

/-!
# Reading the arguments of a command line

Options may stand before and after the file.  A long option takes its value after an equals sign or
in the next argument, a short one also directly behind its letter, and short ones may be joined.
After `--` every argument is a file, and so is a lone dash.

A file, and a start symbol in an argument of its own, is looked at only when the next option or file
is, or at the end.  So an argument that is not known is reported before a start symbol that is not
valid, and a flag that is given a value as well.
-/

namespace ChomskyForm

namespace CommandLine

inductive Form where
  /-- The end of the options. -/
  | escape
  /-- A long option, without its dashes. -/
  | long (name : List Char) (value : Option (List Char))
  /-- Short options, without their dash. -/
  | short (letters : List Char)
  | plain (text : List Char)
deriving DecidableEq

/-- Separates a name from the value after the first equals sign. -/
def splitValue (text : List Char) : List Char × Option (List Char) :=
  (text.takeWhile (· ≠ '='), (text.dropWhile (· ≠ '=')).tail?)

def Form.of : List Char → Form
  | ['-', '-'] => .escape
  | '-' :: '-' :: text => .long (splitValue text).1 (splitValue text).2
  | '-' :: c :: letters => .short (c :: letters)
  | text => .plain text

inductive Switch where
  | start
  | flag (f : Flag)
  | help
  | version
deriving DecidableEq

def Switch.ofName? (name : List Char) : Option Switch :=
  match String.ofList name with
  | "start" => some .start
  | "final-only" => some (.flag .finalOnly)
  | "copy-closure" => some (.flag .copyClosure)
  | "lift-terminals" => some (.flag .liftTerminals)
  | "prune" => some (.flag .prune)
  | "help" => some .help
  | "version" => some .version
  | _ => none

def Switch.ofLetter? : Char → Option Switch
  | 's' => some .start
  | 'f' => some (.flag .finalOnly)
  | 'h' => some .help
  | 'V' => some .version
  | _ => none

/-- What was written but not looked at yet. -/
inductive Pending where
  /-- The start option, with its symbol as soon as that is there. -/
  | start (text : Option (List Char))
  | file (name : List Char)
deriving DecidableEq

/-- How far the arguments have been read. -/
structure Scan where
  file : Option String := none
  start : Option Symbol := none
  flags : List Flag := []
  pending : Option Pending := none
  /-- Whether the options have ended. -/
  escaped : Bool := false
deriving DecidableEq

namespace Scan

def setStart (s : Scan) (text : List Char) : Except Stop Scan :=
  if s.start.isSome then .error .repeatedOption
  else
    match readStart text with
    | .ok symbol => .ok { s with start := some symbol }
    | .error fault => .error (.badSymbol fault)

/-- Looks at what is pending. -/
def settle (s : Scan) : Except Stop Scan :=
  match s.pending with
  | none => .ok s
  | some (.start none) => .error .missingSymbol
  | some (.start (some text)) => setStart { s with pending := none } text
  | some (.file []) => .error .emptyFile
  | some (.file name) => .ok { s with pending := none, file := some (String.ofList name) }

/-- Takes an option that has no value with it. -/
def take (s : Scan) (o : Switch) : Except Stop Scan := do
  let s ← s.settle
  match o with
  | .start => .ok { s with pending := some (.start none) }
  | .flag f => if f ∈ s.flags then .error .repeatedOption else .ok { s with flags := f :: s.flags }
  | .help => .error .help
  | .version => .error .version

def takeStart (s : Scan) (text : List Char) : Except Stop Scan := do
  let s ← s.settle
  s.setStart text

/-- Takes joined short options; what follows the letter of the start option is its value. -/
def takeShort : List Char → Scan → Except Stop Scan
  | [], s => .ok s
  | c :: rest, s =>
    match Switch.ofLetter? c, rest with
    | none, _ => .error .unknownArgument
    | some .start, '=' :: text => s.takeStart text
    | some .start, c' :: text => s.takeStart (c' :: text)
    | some o, _ => do
      let s ← s.take o
      takeShort rest s

def takeLong (s : Scan) (name : List Char) (value : Option (List Char)) : Except Stop Scan :=
  match Switch.ofName? name, value with
  | none, _ => .error .unknownArgument
  | some .start, some text => s.takeStart text
  | some _, some _ => .error .unexpectedValue
  | some o, none => s.take o

/-- Takes the name of the file; there is only one. -/
def takeFile (s : Scan) (name : List Char) : Except Stop Scan :=
  match s.file, s.pending with
  | some _, _ => .error .unknownArgument
  | none, some (.file _) => .error .unknownArgument
  | none, _ => do
    let s ← s.settle
    .ok { s with pending := some (.file name) }

def takeArgument (s : Scan) (argument : List Char) : Except Stop Scan :=
  if s.escaped then s.takeFile argument
  else
    match Form.of argument, s.pending with
    | .escape, _ => .ok { s with escaped := true }
    | .long name value, _ => s.takeLong name value
    | .short letters, _ => takeShort letters s
    | .plain text, some (.start none) => .ok { s with pending := some (.start (some text)) }
    | .plain text, _ => s.takeFile text

def finish (s : Scan) : Except Stop Settings := do
  let s ← s.settle
  match s.file with
  | none => .error .missingFile
  | some file => .ok (.ofFlags file s.start s.flags)

end Scan

def ofArguments (arguments : List String) : Except Stop Settings := do
  let s ← (arguments.map String.toList).foldlM Scan.takeArgument {}
  s.finish

end CommandLine

end ChomskyForm
