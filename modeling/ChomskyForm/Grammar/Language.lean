import ChomskyForm.Grammar.Basic

/-!
# The words of a grammar

`Yields N rules α w` says that the right side `α` derives the word `w` by the productions of a
table, where `N` tells which symbols are expanded.  Everything else stands for itself, the empty
marker for nothing.  `Grammar.Generates` takes the vocabulary for `N`.

`yields_append_iff` splits the derivation of a longer right side.
-/

namespace ChomskyForm

/-- The right side `α` derives the word `w`. -/
inductive Yields (N : Symbol → Prop) (rules : RuleTable) : RightSide → List Symbol → Prop
  | nil : Yields N rules [] []
  | terminal {s : Symbol} {rest : RightSide} {w : List Symbol} (fixed : ¬N s)
      (tail : Yields N rules rest w) : Yields N rules (s :: rest) (s.spelled ++ w)
  | nonterminal {s : Symbol} {rhs rest : RightSide} {u w : List Symbol} (expanded : N s)
      (choice : rhs ∈ rules.alternatives s) (head : Yields N rules rhs u)
      (tail : Yields N rules rest w) : Yields N rules (s :: rest) (u ++ w)

namespace Yields

variable {N : Symbol → Prop} {rules : RuleTable}

theorem append {α β : RightSide} {u v : List Symbol} (hα : Yields N rules α u)
    (hβ : Yields N rules β v) : Yields N rules (α ++ β) (u ++ v) := by
  induction hα with
  | nil => exact hβ
  | terminal fixed _ ih =>
    rw [List.append_assoc]
    exact terminal fixed ih
  | nonterminal expanded choice head _ _ ih =>
    rw [List.append_assoc]
    exact nonterminal expanded choice head ih

theorem exists_of_append {α β : RightSide} {w : List Symbol} (h : Yields N rules (α ++ β) w) :
    ∃ u v, w = u ++ v ∧ Yields N rules α u ∧ Yields N rules β v := by
  induction α generalizing w with
  | nil => exact ⟨[], w, rfl, nil, h⟩
  | cons s α ih =>
    cases h with
    | terminal fixed tail =>
      obtain ⟨u, v, rfl, hu, hv⟩ := ih tail
      exact ⟨s.spelled ++ u, v, (List.append_assoc ..).symm, terminal fixed hu, hv⟩
    | @nonterminal _ _ _ x _ expanded choice head tail =>
      obtain ⟨u, v, rfl, hu, hv⟩ := ih tail
      exact ⟨x ++ u, v, (List.append_assoc ..).symm, nonterminal expanded choice head hu, hv⟩

end Yields

theorem yields_append_iff {N : Symbol → Prop} {rules : RuleTable} {α β : RightSide}
    {w : List Symbol} :
    Yields N rules (α ++ β) w ↔ ∃ u v, w = u ++ v ∧ Yields N rules α u ∧ Yields N rules β v := by
  constructor
  · exact Yields.exists_of_append
  · rintro ⟨u, v, rfl, hu, hv⟩
    exact hu.append hv

namespace Grammar

/-- The word `w` can be derived from the symbol `s`; the members of the vocabulary are the symbols
that are expanded. -/
def Generates (g : Grammar) (s : Symbol) (w : List Symbol) : Prop :=
  Yields (· ∈ g.vocabulary) g.rules [s] w

/-- The words that can be derived from the start symbol. -/
def Accepts (g : Grammar) (w : List Symbol) : Prop := g.Generates g.start w

end Grammar

end ChomskyForm
