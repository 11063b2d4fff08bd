import ChomskyForm.Analysis.Reachable
import ChomskyForm.Proofs.FixedPoint
import ChomskyForm.Proofs.RuleTable

/-!
# The left sides within reach are closed under productions
-/

namespace ChomskyForm

namespace RuleTable

variable {rules : RuleTable} {start : Symbol}

theorem start_mem_reachable : start ∈ rules.reachable start :=
  mem_explore_of_mem (List.mem_singleton.mpr rfl)

theorem mem_reachable_of_mem_successors {s t : Symbol} (hs : s ∈ rules.reachable start)
    (ht : t ∈ rules.successors s) : t ∈ rules.reachable start := by
  refine explore_closed (start :: rules.keys) ?_ ?_ ?_ ?_ s hs t ht
  · intro a b hb
    exact List.mem_cons_of_mem _ (mem_successors.mp hb).2
  · intro a ha
    rw [List.mem_singleton.mp ha]
    exact List.mem_cons_self ..
  · intro a ha
    exact absurd ha List.not_mem_nil
  · have hkeys : rules.keys.length = rules.size := OrderedMap.length_keys rules
    rw [List.length_cons]
    omega

/-- A left side on a right side of a reachable symbol is reachable. -/
theorem mem_reachable_of_mem_rhs {s t : Symbol} {rhs : RightSide} (hs : s ∈ rules.reachable start)
    (hrhs : rhs ∈ rules.alternatives s) (ht : t ∈ rhs) (hkey : t ∈ rules) :
    t ∈ rules.reachable start :=
  mem_reachable_of_mem_successors hs (mem_successors.mpr ⟨⟨rhs, hrhs, ht⟩, hkey⟩)

end RuleTable

end ChomskyForm
