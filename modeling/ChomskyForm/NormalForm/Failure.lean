import ChomskyForm.Noted

/-!
# When a conversion has to stop

A conversion fails if it needs a letter and none is free, or if it looks up a nonterminal that the
unit closure it was given does not know.
-/

namespace ChomskyForm

inductive ConversionError where
  /-- A production of this left side needs a new nonterminal, and no letter is left. -/
  | poolExhausted (lhs : Symbol)
  /-- The unit closure has no entry for this nonterminal. -/
  | missingClosure (s : Symbol)
deriving DecidableEq

def ConversionError.message : ConversionError → String
  | poolExhausted lhs => s!"Ran out of letters for new nonterminals while rewriting `{lhs}`"
  | missingClosure s =>
    s!"No unit closure for nonterminal `{s}` (this is a problem with chomskify, not the grammar)"

namespace Grammar

/-- Draws a letter for a production of `lhs` and tells what it is for. -/
def drawFor (g : Grammar) (lhs : Symbol) (purpose : Symbol → Notice) :
    Noted ConversionError (Symbol × Grammar) :=
  match g.draw with
  | none => .fail (.poolExhausted lhs)
  | some (letter, rest) => do
    .note (purpose letter)
    pure (letter, rest)

theorem drawFor_of_none {g : Grammar} (h : g.draw = none) (lhs : Symbol)
    (purpose : Symbol → Notice) : g.drawFor lhs purpose = .fail (.poolExhausted lhs) := by
  rw [drawFor, h]

theorem drawFor_of_some {g rest : Grammar} {letter : Symbol} (h : g.draw = some (letter, rest))
    (lhs : Symbol) (purpose : Symbol → Notice) :
    g.drawFor lhs purpose = ⟨[purpose letter], .ok (letter, rest)⟩ := by
  rw [drawFor, h]
  rfl

end Grammar

end ChomskyForm
