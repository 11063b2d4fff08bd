import ChomskyForm.Grammar.Basic
import ChomskyForm.Saturation

/-!
# Chains of unit productions

For every nonterminal the closure lists the nonterminals that it reaches by zero or more unit
productions, itself first.  All lists grow together, one step of the chains in each sweep, so that
a list names its members by the length of the shortest chain.
-/

namespace ChomskyForm

/-- For each nonterminal those that it reaches through unit productions. -/
abbrev UnitClosure := OrderedMap Symbol (OrderedSet Symbol)

namespace Grammar

/-- The right sides of the unit productions of a symbol. -/
def unitTargets (g : Grammar) (s : Symbol) : List Symbol :=
  ((g.alternatives s).filter g.isUnit).flatten

/-- Adds what the members of a set reach in one step. -/
def unitSweep (g : Grammar) (reached : OrderedSet Symbol) : OrderedSet Symbol :=
  reached.insertAll (reached.toList.flatMap g.unitTargets)

/-- The closure of every member of the vocabulary. -/
def unitClosure (g : Grammar) : UnitClosure :=
  saturate (fun D => D.mapValues fun _ reached => g.unitSweep reached) (g.vocabulary.size + 1)
    (OrderedMap.ofKeys g.vocabulary OrderedSet.singleton)

theorem mem_unitTargets {g : Grammar} {s t : Symbol} :
    t ∈ g.unitTargets s ↔ [t] ∈ g.alternatives s ∧ t ∈ g.vocabulary := by
  simp only [unitTargets, List.mem_flatten, List.mem_filter, isUnit_eq_true_iff]
  constructor
  · rintro ⟨rhs, ⟨hrhs, u, hu, rfl⟩, ht⟩
    rw [List.mem_singleton] at ht
    exact ⟨ht ▸ hrhs, ht ▸ hu⟩
  · rintro ⟨hrhs, ht⟩
    exact ⟨[t], ⟨hrhs, t, ht, rfl⟩, List.mem_singleton.mpr rfl⟩

theorem mem_unitSweep {g : Grammar} {reached : OrderedSet Symbol} {t : Symbol} :
    t ∈ g.unitSweep reached ↔ t ∈ reached ∨ ∃ s ∈ reached, t ∈ g.unitTargets s := by
  simp only [unitSweep, OrderedSet.mem_insertAll, List.mem_flatMap, OrderedSet.mem_toList]

end Grammar

end ChomskyForm
