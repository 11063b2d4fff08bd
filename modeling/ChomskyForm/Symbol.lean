/-!
# Symbols and right sides

A grammar is written with one-character symbols.  The character `e` is set aside for the empty
string; whether any other symbol is a terminal or a nonterminal is for the grammar to say.
-/

namespace ChomskyForm

/-- A one-character symbol of a grammar. -/
structure Symbol where
  char : Char
deriving DecidableEq

abbrev RightSide := List Symbol

namespace Symbol

/-- The symbol that stands for the empty string. -/
def marker : Symbol := ⟨'e'⟩

instance : Inhabited Symbol := ⟨marker⟩

def text (s : Symbol) : String := String.singleton s.char

instance : ToString Symbol := ⟨text⟩

/-- What a symbol that is not expanded contributes to a word: the marker nothing, any other symbol
itself. -/
def spelled (s : Symbol) : List Symbol := if s = marker then [] else [s]

@[simp] theorem spelled_marker : marker.spelled = [] := rfl

theorem spelled_of_ne {s : Symbol} (h : s ≠ marker) : s.spelled = [s] := by
  simp only [spelled, h, ↓reduceIte]

/-- Writes symbols separated by a comma and a blank. -/
def listed (ss : List Symbol) : String := ", ".intercalate (ss.map text)

end Symbol

namespace RightSide

/-- Reads every character as a symbol. -/
def ofChars (cs : List Char) : RightSide := cs.map Symbol.mk

def chars (rhs : RightSide) : List Char := rhs.map Symbol.char

def text (rhs : RightSide) : String := String.ofList (chars rhs)

/-- Whether a right side is the empty marker and nothing else. -/
def isMarker (rhs : RightSide) : Bool := rhs = [Symbol.marker]

/-- Whether a right side names a member of a list of symbols. -/
def mentions (rhs : RightSide) (symbols : List Symbol) : Bool := rhs.any (· ∈ symbols)

theorem mentions_eq_true_iff {rhs : RightSide} {symbols : List Symbol} :
    mentions rhs symbols = true ↔ ∃ s ∈ rhs, s ∈ symbols := by
  simp only [mentions, List.any_eq_true, decide_eq_true_eq]

end RightSide

end ChomskyForm
