import ChomskyForm.GrammarFile.Token
import ChomskyForm.Grammar.Basic

/-!
# The rule on a line

A rule line is a left side, an arrow that may be left out, and alternatives with bars between them:
`A BCD` or `A -> BCD | e | a`.  The left side is one letter other than the empty marker; an
alternative is one word of letters, in which the marker stands only alone.
-/

namespace ChomskyForm

/-- A left side with the alternatives of one line. -/
structure Rule where
  lhs : Symbol
  alternatives : List RightSide
deriving DecidableEq

namespace Rule

/-- The productions of a rule, in their order. -/
def productions (r : Rule) : List Production := r.alternatives.map fun rhs => (r.lhs, rhs)

def readLetter (c : Char) : Except Fault Symbol :=
  if c.isAlpha then .ok ⟨c⟩ else .error (.invalidSymbol c)

def readLeftSide : List Char → Except Fault Symbol
  | [c] => do
    let s ← readLetter c
    if s = Symbol.marker then .error .markerOnLeft else .ok s
  | cs => .error (.longLeftSide cs)

/-- Reads the word of an alternative. -/
def readRightSide (cs : List Char) : Except Fault RightSide := do
  let rhs ← cs.mapM readLetter
  if 1 < rhs.length ∧ Symbol.marker ∈ rhs then .error .misplacedMarker else .ok rhs

/-- Reads what stands between two bars. -/
def readAlternative : List Token → Except Fault RightSide
  | [] => .error .missingRightSide
  | [.word cs] => readRightSide cs
  | .word _ :: .word extra :: _ => .error (.unexpectedWord extra)
  | .bar :: _ => .error .missingRightSide
  | _ => .error .unexpectedArrow

/-- The runs of tokens between the bars, with an empty run where nothing stands. -/
def splitAtBars : List Token → List (List Token)
  | [] => [[]]
  | .bar :: rest => [] :: splitAtBars rest
  | t :: rest =>
    match splitAtBars rest with
    | [] => [[t]]
    | run :: runs => (t :: run) :: runs

/-- Leaves out an arrow at the front. -/
def dropArrow : List Token → List Token
  | .arrow :: rest => rest
  | ts => ts

def ofTokens : List Token → Except Fault Rule
  | [] => .error .blankLine
  | .word cs :: rest => do
    let lhs ← readLeftSide cs
    let alternatives ← (splitAtBars (dropArrow rest)).mapM readAlternative
    pure ⟨lhs, alternatives⟩
  | _ => .error .missingLeftSide

def ofLine (line : List Char) : Except Fault Rule := do
  let tokens ← Token.lex line
  ofTokens tokens

theorem splitAtBars_ne_nil (ts : List Token) : splitAtBars ts ≠ [] := by
  cases ts with
  | nil => exact List.cons_ne_nil _ _
  | cons t rest =>
    cases t with
    | bar => exact List.cons_ne_nil _ _
    | arrow =>
      cases h : splitAtBars rest <;>
        simp only [splitAtBars, h, ne_eq, reduceCtorEq, not_false_eq_true]
    | word cs =>
      cases h : splitAtBars rest <;>
        simp only [splitAtBars, h, ne_eq, reduceCtorEq, not_false_eq_true]

end Rule

end ChomskyForm
