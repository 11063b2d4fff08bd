import ChomskyForm.GrammarFile.Fault
import ChomskyForm.Text.Blank

/-!
# The tokens of a line

A line consists of arrows `->`, bars `|` and words, with blanks anywhere between them.  A word is a
longest run of characters that are neither blank nor a bar nor a dash; a dash has no other use than
in an arrow.
-/

namespace ChomskyForm

/-- The smallest meaningful part of a line. -/
inductive Token where
  | arrow
  | bar
  | word (chars : List Char)
deriving DecidableEq

namespace Token

/-- Whether a character may stand in a word. -/
def isWordChar (c : Char) : Bool := !isBlank c && c ≠ '|' && c ≠ '-'

def chars : Token → List Char
  | arrow => ['-', '>']
  | bar => ['|']
  | word cs => cs

theorem length_dropWhile_le {α : Type} (p : α → Bool) (xs : List α) :
    (xs.dropWhile p).length ≤ xs.length := by
  induction xs with
  | nil => exact Nat.le_refl _
  | cons x xs ih =>
    rw [List.dropWhile_cons]
    split
    · exact Nat.le_succ_of_le ih
    · exact Nat.le_refl _

def lex : List Char → Except Fault (List Token)
  | [] => .ok []
  | '-' :: '>' :: rest => (arrow :: ·) <$> lex rest
  | '-' :: _ => .error .malformedArrow
  | '|' :: rest => (bar :: ·) <$> lex rest
  | c :: rest =>
    if isBlank c then lex rest
    else (word (c :: rest.takeWhile isWordChar) :: ·) <$> lex (rest.dropWhile isWordChar)
termination_by line => line.length
decreasing_by
  all_goals simp only [List.length_cons]
  · omega
  · omega
  · omega
  · have := length_dropWhile_le isWordChar rest
    omega

end Token

end ChomskyForm
