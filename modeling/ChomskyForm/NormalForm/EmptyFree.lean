import ChomskyForm.Analysis.Dead
import ChomskyForm.Analysis.Grounded
import ChomskyForm.Noted

/-!
# Grammars without empty right sides

Every `A → e` is dropped.  To make up for it, each `A → BC` with a nullable side gets a sibling
without that side.  Left sides that are dead after that have derived nothing but the empty string;
they go, with every production that mentions them.  The start symbol alone keeps its entry.
-/

namespace ChomskyForm

namespace RuleTable

/-- The productions that make up for nullable sides.  The trivial `A → A` is left out, and of the
two siblings of `A → BB` only one is made. -/
def bypasses (rules : RuleTable) (nullable : OrderedSet Symbol) : List Production :=
  rules.productions.flatMap fun
    | (lhs, [left, right]) =>
      (if left ∈ nullable ∧ lhs ≠ right then [(lhs, [right])] else []) ++
        (if right ∈ nullable ∧ lhs ≠ left ∧ left ≠ right then [(lhs, [left])] else [])
    | _ => []

end RuleTable

namespace Grammar

/-- Drops the productions whose right side is the empty marker. -/
def dropMarkers (g : Grammar) : Grammar :=
  { g with rules := g.rules.filterAlternatives fun rhs => !RightSide.isMarker rhs }

/-- Drops the markers and adds what makes up for them. -/
def compensated (g : Grammar) : Grammar :=
  g.dropMarkers.addAll (g.dropMarkers.rules.bypasses g.rules.nullable)

/-- Drops the given symbols, except for the entry of the start symbol, and every production that
mentions one of them. -/
def dropSymbols (g : Grammar) (dead : OrderedSet Symbol) : Grammar :=
  { g with
    rules := (g.rules.filterKeys fun s => s ∉ dead ∨ s = g.start).filterAlternatives fun rhs =>
      !rhs.mentions dead.toList
    vocabulary := g.vocabulary.filter fun s => s ∉ dead ∨ s = g.start }

def dropDead (g : Grammar) : Grammar := g.dropSymbols g.rules.dead

/-- Drops the empty right sides without losing any word but the empty one. -/
def dropEmpty (g : Grammar) : Grammar := g.compensated.dropDead

/-- What there is to tell about dropping the empty right sides. -/
def emptyNotices (g : Grammar) : List Notice :=
  let nullable := g.rules.nullable
  .nullable nullable.toList ::
    (if g.start ∈ nullable then [.startNullable g.start] else []) ++
      g.compensated.rules.dead.toList.map .withoutProductions

end Grammar

end ChomskyForm
