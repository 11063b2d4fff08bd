import ChomskyForm.Grammar.Basic
import ChomskyForm.Saturation

/-!
# Left sides within reach of a symbol
-/

namespace ChomskyForm

namespace RuleTable

/-- The left sides that the alternatives of a symbol mention. -/
def successors (rules : RuleTable) (s : Symbol) : List Symbol :=
  (rules.alternatives s).flatten.filter (· ∈ rules)

/-- A symbol and the left sides that it reaches, nearest first. -/
def reachable (rules : RuleTable) (start : Symbol) : OrderedSet Symbol :=
  explore rules.successors (rules.size + 1) 0 (OrderedSet.singleton start)

theorem mem_successors {rules : RuleTable} {s t : Symbol} :
    t ∈ rules.successors s ↔ (∃ rhs ∈ rules.alternatives s, t ∈ rhs) ∧ t ∈ rules := by
  simp only [successors, List.mem_filter, List.mem_flatten, decide_eq_true_eq]

end RuleTable

end ChomskyForm
