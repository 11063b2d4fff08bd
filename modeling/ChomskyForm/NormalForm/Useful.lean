import ChomskyForm.Analysis.Grounded
import ChomskyForm.Analysis.Reachable
import ChomskyForm.Noted

/-!
# Grammars without useless productions

First the nonterminals that derive no word go, with every production that mentions one of them,
then the left sides that the start symbol does not reach.  The start symbol alone keeps its entry in
any case.  At the end the vocabulary has just the left sides that are left.
-/

namespace ChomskyForm

namespace Grammar

/-- Drops the nonterminals that derive no word. -/
def dropUnproductive (g : Grammar) : Grammar :=
  let unproductive := g.unproductive
  { g with
    rules := (g.rules.filterAlternatives fun rhs => !rhs.mentions unproductive.toList).filterKeys
      fun s => s ∉ unproductive ∨ s = g.start }

/-- Drops the left sides that the start symbol does not reach, and leaves only left sides in the
vocabulary. -/
def dropUnreachable (g : Grammar) : Grammar :=
  let reachable := g.rules.reachable g.start
  let rules := g.rules.filterKeys (· ∈ reachable)
  { g with rules, vocabulary := g.vocabulary.filter (· ∈ rules) }

/-- Drops the productions that occur in no derivation of a word from the start symbol. -/
def prune (g : Grammar) : Grammar := g.dropUnproductive.dropUnreachable

/-- What there is to tell about dropping useless productions. -/
def pruneNotices (g : Grammar) : List Notice :=
  [.unproductive g.unproductive.toList,
    .reachable (g.dropUnproductive.rules.reachable g.start).toList]

end Grammar

end ChomskyForm
