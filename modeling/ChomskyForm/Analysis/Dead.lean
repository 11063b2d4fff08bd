import ChomskyForm.Grammar.Basic
import ChomskyForm.Saturation

/-!
# Dead symbols

A left side is dead if each of its alternatives mentions a dead symbol; one without alternatives is
dead at once.  A round finds all left sides that die of the symbols found in the rounds before it.
-/

namespace ChomskyForm

namespace RuleTable

/-- One round: the left sides of which every alternative mentions a symbol found before. -/
def deadRound (rules : RuleTable) (dead : OrderedSet Symbol) : OrderedSet Symbol :=
  dead.insertAll ((rules.entries.filter fun e => e.2.all (RightSide.mentions · dead.toList)).map
    Prod.fst)

/-- The dead left sides, in the order in which the rounds find them. -/
def dead (rules : RuleTable) : OrderedSet Symbol := saturate (deadRound rules) (rules.size + 1) ∅

theorem mem_deadRound {rules : RuleTable} {found : OrderedSet Symbol} {s : Symbol} :
    s ∈ rules.deadRound found ↔
      s ∈ found ∨ ∃ rhss, (s, rhss) ∈ rules.entries ∧ ∀ rhs ∈ rhss, ∃ t ∈ rhs, t ∈ found := by
  simp only [deadRound, OrderedSet.mem_insertAll, List.mem_map, List.mem_filter, List.all_eq_true,
    RightSide.mentions_eq_true_iff, OrderedSet.mem_toList]
  constructor
  · rintro (h | ⟨e, ⟨he, hall⟩, rfl⟩)
    · exact Or.inl h
    · exact Or.inr ⟨e.2, he, hall⟩
  · rintro (h | ⟨rhss, he, hall⟩)
    · exact Or.inl h
    · exact Or.inr ⟨(s, rhss), ⟨he, hall⟩, rfl⟩

end RuleTable

end ChomskyForm
