import ChomskyForm.NormalForm.Binary
import ChomskyForm.NormalForm.EmptyFree
import ChomskyForm.NormalForm.Lifted
import ChomskyForm.NormalForm.StartRules
import ChomskyForm.NormalForm.UnitFree
import ChomskyForm.NormalForm.Useful

/-!
# The whole conversion

A conversion takes a grammar through the stages that its options ask for.  The grammar after each
stage can be seen (`Conversion.shown`), also of a conversion that fails at a later stage.
-/

namespace ChomskyForm

/-- What a user can choose about a conversion. -/
structure Options where
  closureCopy : ClosureCopy := .whileEmpty
  liftTerminals : Bool := false
  prune : Bool := false
deriving DecidableEq, Inhabited

inductive Stage where
  | longRules
  | emptyRules
  | unitRules
  | startRules
  | terminalLifting
  | uselessRules
deriving DecidableEq

/-- The heading over the grammar that a stage leaves. -/
def Stage.heading : Stage → String
  | longRules => "Rules after large rules removal"
  | emptyRules => "Rules after empty rules removal"
  | unitRules => "Rules after short rules removal"
  | startRules => "Final rules"
  | terminalLifting => "Rules after terminal lifting"
  | uselessRules => "Rules after useless rules removal"

/-- The stages of a conversion, in their order. -/
def Options.stages (o : Options) : List Stage :=
  [.longRules, .emptyRules, .unitRules, .startRules] ++
    (if o.liftTerminals then [.terminalLifting] else []) ++ if o.prune then [.uselessRules] else []

/-- What is handed from stage to stage: the grammar, and the closure that its unit productions had
before they were dropped. -/
structure Draft where
  grammar : Grammar
  closure : UnitClosure := ∅
deriving DecidableEq

def Stage.apply (o : Options) (d : Draft) : Stage → Noted ConversionError Draft
  | longRules => do
    let g ← d.grammar.binarize
    pure { d with grammar := g }
  | emptyRules =>
    ⟨d.grammar.emptyNotices, .ok { d with grammar := d.grammar.dropEmpty }⟩
  | unitRules =>
    let D := d.grammar.unitClosure
    ⟨Grammar.closureNotices D, (d.grammar.eliminateUnits D).map fun g => ⟨g, D⟩⟩
  | startRules => do
    let g ← d.grammar.completeStart d.closure o.closureCopy
    pure { d with grammar := g }
  | terminalLifting => do
    let g ← d.grammar.liftTerminals
    pure { d with grammar := g }
  | uselessRules =>
    ⟨d.grammar.pruneNotices, .ok { d with grammar := d.grammar.prune }⟩

/-- A conversion: the grammars that the finished stages left, and the outcome with its notices. -/
structure Conversion where
  shown : List (Stage × Grammar)
  notices : List Notice
  outcome : Except ConversionError Grammar

namespace Conversion

/-- Says so if the start symbol of the result has no productions. -/
def closingNotices (g : Grammar) : List Notice :=
  if g.alternatives g.start = [] then [.generatesNothing g.start] else []

/-- Goes through the given stages; the first failure ends the conversion. -/
def through (o : Options) : List Stage → Draft → Conversion
  | [], d => ⟨[], closingNotices d.grammar, .ok d.grammar⟩
  | stage :: stages, d =>
    let work := stage.apply o d
    match work.outcome with
    | .error e => ⟨[], work.notices, .error e⟩
    | .ok d' =>
      let rest := through o stages d'
      ⟨(stage, d'.grammar) :: rest.shown, work.notices ++ rest.notices, rest.outcome⟩

end Conversion

def Grammar.convert (g : Grammar) (o : Options) : Conversion :=
  let run := Conversion.through o o.stages { grammar := g }
  { run with notices := .converting g.productionCount g.pool.size :: run.notices }

end ChomskyForm
