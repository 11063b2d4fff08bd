import ChomskyForm.Analysis.Dead
import ChomskyForm.Proofs.FixedPoint
import ChomskyForm.Proofs.RuleTable
import Mathlib.Order.Bounds.Defs

/-!
# The dead left sides are those without a live alternative

A left side that is dead has a dead symbol in each alternative, and since the rounds end at a fixed
point, one that is not dead has an alternative without any.  The dead left sides are therefore the
least set that can be closed in this way (`isLeast_doomed`): a circle of left sides that only mention
each other is not dead.
-/

namespace ChomskyForm

namespace RuleTable

variable {rules : RuleTable}

theorem blocked_of_mem_dead {s : Symbol} (h : s ∈ rules.dead) :
    s ∈ rules ∧ ∀ rhs ∈ rules.alternatives s, ∃ t ∈ rhs, t ∈ rules.dead := by
  have hall : ∀ s ∈ rules.dead,
      s ∈ rules ∧ ∀ rhs ∈ rules.alternatives s, ∃ t ∈ rhs, t ∈ rules.dead := by
    refine saturate_induction
      (P := fun found => ∀ s ∈ found,
        s ∈ rules ∧ ∀ rhs ∈ rules.alternatives s, ∃ t ∈ rhs, t ∈ found) ?_ ?_ _
    · intro found hfound s hs
      rcases mem_deadRound.mp hs with hs | ⟨rhss, hentry, hblocked⟩
      · obtain ⟨hkey, hblocked⟩ := hfound s hs
        refine ⟨hkey, fun rhs hrhs => ?_⟩
        obtain ⟨t, ht, htfound⟩ := hblocked rhs hrhs
        exact ⟨t, ht, mem_deadRound.mpr (Or.inl htfound)⟩
      · have hget := OrderedMap.mem_entries_iff.mp hentry
        refine ⟨OrderedMap.mem_iff_get?.mpr ⟨rhss, hget⟩, fun rhs hrhs => ?_⟩
        rw [alternatives_of_get? hget] at hrhs
        obtain ⟨t, ht, htfound⟩ := hblocked rhs hrhs
        exact ⟨t, ht, mem_deadRound.mpr (Or.inl htfound)⟩
    · intro s hs
      exact absurd hs List.not_mem_nil
  exact hall s h

theorem toList_prefix_deadRound (found : OrderedSet Symbol) :
    found.toList <+: (rules.deadRound found).toList := OrderedSet.toList_prefix_insertAll _ _

theorem size_iterate_deadRound_le (k : Nat) : (rules.deadRound^[k] ∅).size ≤ rules.size := by
  rw [← OrderedMap.length_keys]
  refine OrderedSet.size_le_of_subset (OrderedMap.keys rules) ?_
  refine iterate_induction (P := fun found => ∀ s ∈ found, s ∈ rules.keys) ?_ ?_ k
  · intro found hfound s hs
    rcases mem_deadRound.mp hs with hs | ⟨rhss, hentry, _⟩
    · exact hfound s hs
    · exact List.mem_map_of_mem (f := Prod.fst) hentry
  · intro s hs
    exact absurd hs List.not_mem_nil

theorem deadRound_dead : rules.deadRound rules.dead = rules.dead :=
  saturate_fixed toList_prefix_deadRound size_iterate_deadRound_le (Nat.le_succ _)

theorem exists_live_of_not_mem_dead {s : Symbol} (hkey : s ∈ rules) (h : s ∉ rules.dead) :
    ∃ rhs ∈ rules.alternatives s, ∀ t ∈ rhs, t ∉ rules.dead := by
  by_contra hnone
  obtain ⟨rhss, hget⟩ := OrderedMap.mem_iff_get?.mp hkey
  have hround : s ∈ rules.deadRound rules.dead := by
    refine mem_deadRound.mpr (Or.inr ⟨rhss, OrderedMap.mem_entries_iff.mpr hget, ?_⟩)
    intro rhs hrhs
    by_contra hlive
    rw [← alternatives_of_get? hget] at hrhs
    exact hnone ⟨rhs, hrhs, fun t ht hdead => hlive ⟨t, ht, hdead⟩⟩
  rw [deadRound_dead] at hround
  exact h hround

/-! ### The least set -/

/-- The set has each left side of which every alternative mentions a member. -/
def AbsorbsBlocked (rules : RuleTable) (D : Set Symbol) : Prop :=
  ∀ s ∈ rules, (∀ rhs ∈ rules.alternatives s, ∃ t ∈ rhs, t ∈ D) → s ∈ D

/-- What all these sets have in common. -/
def doomed (rules : RuleTable) : Set Symbol := {s | ∀ D, rules.AbsorbsBlocked D → s ∈ D}

theorem absorbsBlocked_dead : rules.AbsorbsBlocked {s | s ∈ rules.dead} := by
  intro s hkey hblocked
  by_contra hlive
  obtain ⟨rhs, hrhs, hfree⟩ := exists_live_of_not_mem_dead hkey hlive
  obtain ⟨t, ht, hdead⟩ := hblocked rhs hrhs
  exact hfree t ht hdead

theorem mem_of_mem_dead {D : Set Symbol} (hD : rules.AbsorbsBlocked D) :
    ∀ s ∈ rules.dead, s ∈ D := by
  refine saturate_induction (P := fun found => ∀ s ∈ found, s ∈ D) ?_ ?_ _
  · intro found hfound s hs
    rcases mem_deadRound.mp hs with hs | ⟨rhss, hentry, hblocked⟩
    · exact hfound s hs
    · have hget := OrderedMap.mem_entries_iff.mp hentry
      refine hD s (OrderedMap.mem_iff_get?.mpr ⟨rhss, hget⟩) fun rhs hrhs => ?_
      rw [alternatives_of_get? hget] at hrhs
      obtain ⟨t, ht, htfound⟩ := hblocked rhs hrhs
      exact ⟨t, ht, hfound t htfound⟩
  · intro s hs
    exact absurd hs List.not_mem_nil

theorem mem_dead_iff {s : Symbol} : s ∈ rules.dead ↔ s ∈ rules.doomed := by
  constructor
  · exact fun hs D hD => mem_of_mem_dead hD s hs
  · exact fun hs => hs _ absorbsBlocked_dead

instance (rules : RuleTable) (s : Symbol) : Decidable (s ∈ rules.doomed) :=
  decidable_of_iff (s ∈ rules.dead) mem_dead_iff

theorem isLeast_doomed (rules : RuleTable) :
    IsLeast {D : Set Symbol | (∀ s ∈ D, s ∈ rules) ∧ rules.AbsorbsBlocked D} rules.doomed := by
  refine ⟨⟨fun s hs => ?_, fun s hkey hblocked D hD => ?_⟩, fun D hD s hs => hs D hD.2⟩
  · exact (blocked_of_mem_dead (mem_dead_iff.mpr hs)).1
  · refine hD s hkey fun rhs hrhs => ?_
    obtain ⟨t, ht, hdoomed⟩ := hblocked rhs hrhs
    exact ⟨t, ht, hdoomed D hD⟩

end RuleTable

end ChomskyForm
