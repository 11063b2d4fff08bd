import ChomskyForm.Analysis.UnitClosure
import ChomskyForm.Proofs.FixedPoint
import ChomskyForm.Proofs.RuleTable
import Mathlib.Logic.Relation

/-!
# The unit closure is reachability by unit productions

All entries of the closure are swept together, but each of them grows by itself, so the closure is a
table of iterated sweeps (`unitClosure_eq`).  As many sweeps as there are nonterminals find
everything that can be reached (`mem_unitReach_iff`).
-/

namespace ChomskyForm

namespace Grammar

variable {g : Grammar}

/-- One unit production leads from `s` to `t`. -/
def UnitStep (g : Grammar) (s t : Symbol) : Prop := [t] ∈ g.alternatives s ∧ t ∈ g.vocabulary

/-- The nonterminals that the sweeps find from `s`, in the order in which they find them. -/
def unitReach (g : Grammar) (s : Symbol) : OrderedSet Symbol :=
  g.unitSweep^[g.vocabulary.size + 1] (OrderedSet.singleton s)

theorem iterate_mapValues_ofKeys {κ ν : Type} (V : OrderedSet κ) (sweep : ν → ν) (f : κ → ν)
    (k : Nat) :
    (fun D : OrderedMap κ ν => D.mapValues fun _ v => sweep v)^[k] (OrderedMap.ofKeys V f) =
      OrderedMap.ofKeys V fun s => sweep^[k] (f s) := by
  induction k generalizing f with
  | zero => rfl
  | succ k ih =>
    have hone : (OrderedMap.ofKeys V f).mapValues (fun _ v => sweep v) =
        OrderedMap.ofKeys V fun s => sweep (f s) := by
      ext1
      simp only [OrderedMap.mapValues, OrderedMap.ofKeys, List.map_map]
      rfl
    rw [Function.iterate_succ_apply, hone, ih]
    rfl

theorem unitClosure_eq : g.unitClosure = OrderedMap.ofKeys g.vocabulary g.unitReach := by
  rw [unitClosure, saturate_eq_iterate, iterate_mapValues_ofKeys]
  rfl

theorem get?_unitClosure_eq_some_iff {s : Symbol} {members : OrderedSet Symbol} :
    g.unitClosure.get? s = some members ↔ s ∈ g.vocabulary ∧ members = g.unitReach s := by
  rw [unitClosure_eq, OrderedMap.get?_ofKeys]

theorem mem_unitClosure_iff {s : Symbol} : s ∈ g.unitClosure ↔ s ∈ g.vocabulary := by
  rw [unitClosure_eq, ← OrderedMap.mem_keys, OrderedMap.keys_ofKeys, OrderedSet.mem_toList]

/-! ### What the sweeps find -/

theorem toList_prefix_unitSweep (reached : OrderedSet Symbol) :
    reached.toList <+: (g.unitSweep reached).toList := OrderedSet.toList_prefix_insertAll _ _

theorem mem_unitSweep_iff {reached : OrderedSet Symbol} {t : Symbol} :
    t ∈ g.unitSweep reached ↔ t ∈ reached ∨ ∃ s ∈ reached, g.UnitStep s t := by
  simp only [mem_unitSweep, mem_unitTargets, UnitStep]

theorem unitReach_head (s : Symbol) : ∃ rest, (g.unitReach s).toList = s :: rest := by
  obtain ⟨rest, hrest⟩ := prefix_iterate g.unitSweep toList_prefix_unitSweep
    (OrderedSet.singleton s) (g.vocabulary.size + 1)
  exact ⟨rest, hrest.symm⟩

theorem size_iterate_unitSweep_le {s : Symbol} (hs : s ∈ g.vocabulary) (k : Nat) :
    (g.unitSweep^[k] (OrderedSet.singleton s)).size ≤ g.vocabulary.size := by
  refine OrderedSet.size_le_of_subset g.vocabulary.toList ?_
  refine iterate_induction (P := fun reached => ∀ t ∈ reached, t ∈ g.vocabulary.toList) ?_ ?_ k
  · intro reached hreached t ht
    rcases mem_unitSweep_iff.mp ht with ht | ⟨_, _, hstep⟩
    · exact hreached t ht
    · exact hstep.2
  · intro t ht
    rw [List.mem_singleton.mp ht]
    exact hs

theorem unitSweep_unitReach {s : Symbol} (hs : s ∈ g.vocabulary) :
    g.unitSweep (g.unitReach s) = g.unitReach s := by
  rw [unitReach, ← saturate_eq_iterate]
  exact saturate_fixed toList_prefix_unitSweep (size_iterate_unitSweep_le hs) (Nat.le_succ _)

theorem mem_unitReach_iff {s t : Symbol} (hs : s ∈ g.vocabulary) :
    t ∈ g.unitReach s ↔ Relation.ReflTransGen g.UnitStep s t := by
  constructor
  · intro ht
    have hall : ∀ t ∈ g.unitReach s, Relation.ReflTransGen g.UnitStep s t := by
      refine iterate_induction
        (P := fun reached => ∀ t ∈ reached, Relation.ReflTransGen g.UnitStep s t) ?_ ?_ _
      · intro reached hreached t ht
        rcases mem_unitSweep_iff.mp ht with ht | ⟨u, hu, hstep⟩
        · exact hreached t ht
        · exact (hreached u hu).tail hstep
      · intro t ht
        rw [List.mem_singleton.mp ht]
    exact hall t ht
  · intro h
    induction h with
    | refl =>
      obtain ⟨rest, hrest⟩ := unitReach_head (g := g) s
      rw [← OrderedSet.mem_toList, hrest]
      exact List.mem_cons_self ..
    | tail _ hstep ih =>
      rw [← unitSweep_unitReach hs]
      exact mem_unitSweep_iff.mpr (Or.inr ⟨_, ih, hstep⟩)

/-! ### The closure as a relation -/

/-- The symbol `t` may stand for `s`: a nonterminal that `s` reaches, or `s` itself if that is no
nonterminal. -/
def StandsFor (g : Grammar) (s t : Symbol) : Prop :=
  if s ∈ g.vocabulary then t ∈ g.unitReach s else t = s

theorem standsFor_of_mem {s t : Symbol} (hs : s ∈ g.vocabulary) :
    g.StandsFor s t ↔ Relation.ReflTransGen g.UnitStep s t := by
  rw [StandsFor, if_pos hs, mem_unitReach_iff hs]

theorem standsFor_of_not_mem {s t : Symbol} (hs : s ∉ g.vocabulary) :
    g.StandsFor s t ↔ t = s := by
  rw [StandsFor, if_neg hs]

theorem StandsFor.refl (s : Symbol) : g.StandsFor s s := by
  by_cases hs : s ∈ g.vocabulary
  · exact (standsFor_of_mem hs).mpr .refl
  · exact (standsFor_of_not_mem hs).mpr rfl

theorem StandsFor.mem_iff {s t : Symbol} (h : g.StandsFor s t) :
    t ∈ g.vocabulary ↔ s ∈ g.vocabulary := by
  by_cases hs : s ∈ g.vocabulary
  · have hreach := (standsFor_of_mem hs).mp h
    refine iff_of_true ?_ hs
    cases hreach with
    | refl => exact hs
    | tail _ hstep => exact hstep.2
  · rw [(standsFor_of_not_mem hs).mp h]

theorem StandsFor.trans {s t u : Symbol} (h : g.StandsFor s t) (h' : g.StandsFor t u) :
    g.StandsFor s u := by
  by_cases hs : s ∈ g.vocabulary
  · have ht := h.mem_iff.mpr hs
    have hst := (standsFor_of_mem hs).mp h
    have htu := (standsFor_of_mem ht).mp h'
    exact (standsFor_of_mem hs).mpr (hst.trans htu)
  · have hts := (standsFor_of_not_mem hs).mp h
    rw [hts] at h'
    exact h'

end Grammar

end ChomskyForm
