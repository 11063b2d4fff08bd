import ChomskyForm.NormalForm.Failure

/-!
# Right sides of at most two symbols

A longer right side `A → BCDE` is cut into a chain `A → BF`, `F → CG`, `G → DE` with a new letter
for each link.  The first link takes the place of the long alternative; the other links follow the
whole table, in the order in which they are made.
-/

namespace ChomskyForm

namespace Grammar

/-- Cuts `rest` into links that hang on `head`; `lhs` and `whole` name the production that is being
cut.  The links are returned and not yet added. -/
def chainFrom (lhs : Symbol) (whole : RightSide) (head : Symbol) :
    (rest : RightSide) → Grammar → Noted ConversionError (Grammar × List Production)
  | a :: b :: c :: rest, g => do
    let (letter, g) ← g.drawFor lhs (.drew · lhs whole)
    let (g, links) ← chainFrom lhs whole letter (b :: c :: rest) g
    pure (g, (head, [a, letter]) :: links)
  | short, g => pure (g, [(head, short)])

/-- Adds an alternative, cut if it is longer than two symbols; the links after the first are
returned. -/
def addCut (g : Grammar) (lhs : Symbol) :
    RightSide → Noted ConversionError (Grammar × List Production)
  | a :: b :: c :: rest => do
    let whole := a :: b :: c :: rest
    let (letter, g) ← g.drawFor lhs (.drew · lhs whole)
    chainFrom lhs whole letter (b :: c :: rest) (g.add lhs [a, letter])
  | short => pure (g.add lhs short, [])

/-- Adds the alternatives of one left side, after the links that are waiting already. -/
def addAllCut (lhs : Symbol) (rhss : List RightSide) (state : Grammar × List Production) :
    Noted ConversionError (Grammar × List Production) :=
  rhss.foldlM
    (fun (g, waiting) rhs => do
      let (g, links) ← g.addCut lhs rhs
      pure (g, waiting ++ links))
    ({ state.1 with rules := state.1.rules.withKey lhs }, state.2)

/-- Cuts every right side of more than two symbols. -/
def binarize (g : Grammar) : Noted ConversionError Grammar := do
  let (cut, links) ← g.rules.entries.foldlM (fun state e => addAllCut e.1 e.2 state)
    ({ g with rules := ∅ }, [])
  pure (cut.addAll links)

end Grammar

end ChomskyForm
