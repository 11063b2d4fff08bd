import ChomskyForm.Grammar.Basic
import ChomskyForm.Saturation

/-!
# Symbols that come to an end

A left side is grounded if one of its alternatives consists of base symbols and grounded symbols
only.  With the empty marker as the only base symbol these are the nullable symbols; with the
terminals as base symbols they are the productive ones.

A sweep over the table uses what it has found so far, so the order in which the symbols are found
depends on the order of the table.
-/

namespace ChomskyForm

namespace RuleTable

/-- Whether one of the alternatives consists of base symbols and members of `found`. -/
def isGrounded (base : Symbol → Bool) (found : OrderedSet Symbol) (rhss : List RightSide) : Bool :=
  rhss.any fun rhs => rhs.all fun s => base s || decide (s ∈ found)

/-- One pass over the table; what is found early counts for what comes later. -/
def groundedSweep (base : Symbol → Bool) (rules : RuleTable) (found : OrderedSet Symbol) :
    OrderedSet Symbol :=
  rules.entries.foldl (fun found e => if isGrounded base found e.2 then found.insert e.1 else found)
    found

/-- The grounded left sides, in the order in which the sweeps find them. -/
def grounded (base : Symbol → Bool) (rules : RuleTable) : OrderedSet Symbol :=
  saturate (groundedSweep base rules) (rules.size + 1) ∅

theorem isGrounded_eq_true_iff {base : Symbol → Bool} {found : OrderedSet Symbol}
    {rhss : List RightSide} :
    isGrounded base found rhss = true ↔ ∃ rhs ∈ rhss, ∀ s ∈ rhs, base s = true ∨ s ∈ found := by
  simp only [isGrounded, List.any_eq_true, List.all_eq_true, Bool.or_eq_true, decide_eq_true_eq]

/-- The symbols that derive the empty string. -/
def nullable (rules : RuleTable) : OrderedSet Symbol := grounded (· = Symbol.marker) rules

end RuleTable

/-- The left sides that derive a word of terminals. -/
def Grammar.productive (g : Grammar) : OrderedSet Symbol :=
  g.rules.grounded fun s => !g.isNonterminal s

/-- The nonterminals that derive no word of terminals, in vocabulary order. -/
def Grammar.unproductive (g : Grammar) : OrderedSet Symbol :=
  let productive := g.productive
  g.vocabulary.filter (· ∉ productive)

end ChomskyForm
