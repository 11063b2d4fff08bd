import ChomskyForm.Grammar.Basic

/-!
# Writing a grammar

A grammar is written one production to a line, `A->BC`, in table order.
-/

namespace ChomskyForm

/-- A production as it is written. -/
def Production.text (p : Production) : String := s!"{p.1}->{RightSide.text p.2}"

namespace Grammar

def lines (g : Grammar) : List String := g.productions.map Production.text

/-- The whole grammar as text, every line ended. -/
def text (g : Grammar) : String := String.join (g.lines.map (· ++ "\n"))

end Grammar

end ChomskyForm
