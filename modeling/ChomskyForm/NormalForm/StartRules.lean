import ChomskyForm.Analysis.UnitClosure
import ChomskyForm.NormalForm.Failure

/-!
# Productions for the start symbol

When the unit productions are gone, the start symbol has lost the words of the nonterminals it
reached through them.  It gets their productions back: those of one nonterminal, or of all.
-/

namespace ChomskyForm

/-- How much the start symbol takes from the members of its unit closure. -/
inductive ClosureCopy where
  /-- The productions of the next member, as long as the start symbol has none at all. -/
  | whileEmpty
  /-- The productions of every member. -/
  | everyMember
deriving DecidableEq, Inhabited

namespace Grammar

/-- Adds the right sides to the start symbol and tells of each that is new. -/
def copyRules (source : Symbol) (rhss : List RightSide) (g : Grammar) :
    Noted ConversionError Grammar :=
  rhss.foldlM
    (fun g rhs => do
      unless g.has g.start rhs do
        .note (.copied source g.start)
      pure (g.add g.start rhs))
    g

/-- Takes over the productions of the members of the closure, in its order. -/
def copyMembers (mode : ClosureCopy) : List Symbol → Grammar → Noted ConversionError Grammar
  | [], g => pure g
  | source :: sources, g =>
    if mode = .whileEmpty ∧ g.alternatives g.start ≠ [] then pure g
    else do
      let g ← copyRules source (g.alternatives source) g
      copyMembers mode sources g

/-- Gives the start symbol the productions of the nonterminals that it reaches in the closure. -/
def completeStart (g : Grammar) (D : UnitClosure) (mode : ClosureCopy) :
    Noted ConversionError Grammar :=
  match D.get? g.start with
  | none => .fail (.missingClosure g.start)
  | some members =>
    copyMembers mode (members.erase g.start).toList { g with rules := g.rules.withKey g.start }

end Grammar

end ChomskyForm
