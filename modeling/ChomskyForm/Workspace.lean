import ChomskyForm.NormalForm.Binary
import ChomskyForm.NormalForm.EmptyFree
import ChomskyForm.NormalForm.Lifted
import ChomskyForm.NormalForm.StartRules
import ChomskyForm.NormalForm.UnitFree
import ChomskyForm.NormalForm.Useful

/-!
# Working on a grammar step by step

A workspace holds a grammar, a unit closure and a saved grammar.  Its edits are the stages of a
conversion, in whatever order, and small changes to the grammar.  The closure is the one that was
computed last, whatever has become of the grammar since then.  An edit that fails changes nothing.
-/

namespace ChomskyForm

/-- A grammar that is being worked on. -/
structure Workspace where
  grammar : Grammar
  closure : UnitClosure := ∅
  saved : Grammar := grammar
deriving DecidableEq

/-- A change to a workspace. -/
inductive Edit where
  | binarize
  | dropEmpty
  | eliminateUnits
  | completeStart (mode : ClosureCopy)
  | liftTerminals
  | prune
  /-- Computes the closure of the grammar. -/
  | computeClosure
  /-- Removes an entry of the closure. -/
  | forgetClosure (s : Symbol)
  | add (lhs : Symbol) (rhs : RightSide)
  | draw
  /-- Takes letters out of the pool that do not become nonterminals. -/
  | discardLetters (count : Nat)
  /-- Removes a left side from the table; it stays a nonterminal. -/
  | dropRule (s : Symbol)
  /-- Makes a symbol a terminal; its entry in the table stays. -/
  | dropNonterminal (s : Symbol)
  | setStart (s : Symbol)
  | save
deriving DecidableEq

/-- What an edit has to say besides the new workspace. -/
inductive Answer where
  | done
  /-- Whether the edit found something to do. -/
  | changed (yes : Bool)
  | drawn (letter : Option Symbol)
  | discarded (letters : List (Option Symbol))
  | closure (D : UnitClosure)
deriving DecidableEq

namespace Workspace

def withGrammar (w : Workspace) (g : Grammar) : Workspace := { w with grammar := g }

def apply (w : Workspace) : Edit → Noted ConversionError (Answer × Workspace)
  | .binarize => do
    let g ← w.grammar.binarize
    pure (.done, w.withGrammar g)
  | .dropEmpty => ⟨w.grammar.emptyNotices, .ok (.done, w.withGrammar w.grammar.dropEmpty)⟩
  | .eliminateUnits => do
    let g ← .ofExcept (w.grammar.eliminateUnits w.closure)
    pure (.done, w.withGrammar g)
  | .completeStart mode => do
    let g ← w.grammar.completeStart w.closure mode
    pure (.done, w.withGrammar g)
  | .liftTerminals => do
    let g ← w.grammar.liftTerminals
    pure (.done, w.withGrammar g)
  | .prune => ⟨w.grammar.pruneNotices, .ok (.done, w.withGrammar w.grammar.prune)⟩
  | .computeClosure =>
    let D := w.grammar.unitClosure
    ⟨Grammar.closureNotices D, .ok (.closure D, { w with closure := D })⟩
  | .forgetClosure s =>
    pure (.changed (s ∈ w.closure), { w with closure := w.closure.erase s })
  | .add lhs rhs =>
    pure (.changed (!w.grammar.has lhs rhs), w.withGrammar (w.grammar.add lhs rhs))
  | .draw =>
    match w.grammar.draw with
    | none => pure (.drawn none, w)
    | some (letter, g) => pure (.drawn (some letter), w.withGrammar g)
  | .discardLetters count =>
    let (letters, pool) := w.grammar.pool.drawMany count
    pure (.discarded letters, w.withGrammar { w.grammar with pool })
  | .dropRule s =>
    pure (.changed (s ∈ w.grammar.rules),
      w.withGrammar { w.grammar with rules := w.grammar.rules.erase s })
  | .dropNonterminal s =>
    pure (.changed (s ∈ w.grammar.vocabulary),
      w.withGrammar { w.grammar with vocabulary := w.grammar.vocabulary.erase s })
  | .setStart s => pure (.done, w.withGrammar { w.grammar with start := s })
  | .save => pure (.done, { w with saved := w.grammar })

/-- The workspace after an edit; one that fails leaves it as it was. -/
def after (w : Workspace) (e : Edit) : Workspace :=
  match (w.apply e).outcome with
  | .ok (_, next) => next
  | .error _ => w

def afterAll (w : Workspace) (es : List Edit) : Workspace := es.foldl after w

theorem after_of_error {w : Workspace} {e : Edit} {err : ConversionError}
    (h : (w.apply e).outcome = .error err) : w.after e = w := by
  rw [after, h]

end Workspace

end ChomskyForm
