import ChomskyForm.Grammar.Basic

/-!
# Chomsky normal form

A grammar is in Chomsky normal form if each right side is a terminal or a pair of nonterminals.  The
conditions `IsBinary`, `IsEmptyFree`, `IsUnitFree` and `IsLifted` say what the single stages of a
conversion bring about; together they make up the normal form (`inChomskyForm_of_parts`).
-/

namespace ChomskyForm

namespace Grammar

/-- Every right side has one or two symbols. -/
def IsBinary (g : Grammar) : Prop := ∀ p ∈ g.productions, p.2.length = 1 ∨ p.2.length = 2

/-- The empty marker occurs on no right side. -/
def IsEmptyFree (g : Grammar) : Prop := ∀ p ∈ g.productions, Symbol.marker ∉ p.2

/-- No right side is a single nonterminal. -/
def IsUnitFree (g : Grammar) : Prop := ∀ p ∈ g.productions, g.isUnit p.2 = false

/-- A right side of two symbols has only nonterminals. -/
def IsLifted (g : Grammar) : Prop :=
  ∀ p ∈ g.productions, p.2.length = 2 → ∀ s ∈ p.2, s ∈ g.vocabulary

/-- A right side in Chomsky normal form: one terminal, or two nonterminals. -/
inductive IsNormal (g : Grammar) : RightSide → Prop
  | terminal {s : Symbol} (fixed : s ∉ g.vocabulary) (spelled : s ≠ Symbol.marker) : IsNormal g [s]
  | pair {s t : Symbol} (left : s ∈ g.vocabulary) (right : t ∈ g.vocabulary) : IsNormal g [s, t]

def InChomskyForm (g : Grammar) : Prop := ∀ p ∈ g.productions, g.IsNormal p.2

instance (g : Grammar) : Decidable g.IsBinary :=
  inferInstanceAs (Decidable (∀ p ∈ g.productions, _))

instance (g : Grammar) : Decidable g.IsEmptyFree :=
  inferInstanceAs (Decidable (∀ p ∈ g.productions, _))

instance (g : Grammar) : Decidable g.IsUnitFree :=
  inferInstanceAs (Decidable (∀ p ∈ g.productions, _))

instance (g : Grammar) : Decidable g.IsLifted :=
  inferInstanceAs (Decidable (∀ p ∈ g.productions, _))

theorem inChomskyForm_of_parts {g : Grammar} (binary : g.IsBinary) (emptyFree : g.IsEmptyFree)
    (unitFree : g.IsUnitFree) (lifted : g.IsLifted) : g.InChomskyForm := by
  intro p hp
  obtain ⟨lhs, rhs⟩ := p
  have hlen := binary _ hp
  have hmarker := emptyFree _ hp
  have hunit := unitFree _ hp
  have hlift := lifted _ hp
  match rhs with
  | [] => simp only [List.length_nil, Nat.reduceEqDiff, or_self] at hlen
  | [s] =>
    refine .terminal ?_ ?_
    · intro hs
      rw [isUnit, isNonterminal_eq_true_iff.mpr hs] at hunit
      exact Bool.noConfusion hunit
    · rintro rfl
      exact hmarker (List.mem_singleton.mpr rfl)
  | [s, t] =>
    have hs := hlift rfl s (List.mem_cons_self ..)
    have ht := hlift rfl t (List.mem_cons_of_mem _ (List.mem_cons_self ..))
    exact .pair hs ht
  | s :: t :: u :: rest =>
    simp only [List.length_cons] at hlen
    omega

end Grammar

end ChomskyForm
