import ChomskyForm.Proofs.Simulation
import Mathlib.Logic.Relation

/-!
# Derivations step by step

A step replaces one nonterminal of a form by one of its alternatives.  A form derives a word of
terminals in this way just if it yields a word at all (`terminates_iff`), so that the symbols and
productions that occur in some derivation of a word can be spoken of (`Occurs`, `IsApplied`).
-/

namespace ChomskyForm

namespace Grammar

variable {g : Grammar} {α β γ : RightSide}

/-! ### Steps -/

/-- A nonterminal of a form is replaced by one of its alternatives. -/
inductive Step (g : Grammar) : RightSide → RightSide → Prop
  | replace {before after rhs : RightSide} {s : Symbol} (expanded : s ∈ g.vocabulary)
      (choice : rhs ∈ g.alternatives s) : Step g (before ++ s :: after) (before ++ rhs ++ after)

def Derives (g : Grammar) : RightSide → RightSide → Prop := Relation.ReflTransGen g.Step

/-- The form has no nonterminal, which ends a derivation. -/
def IsTerminalForm (g : Grammar) (α : RightSide) : Prop := ∀ s ∈ α, s ∉ g.vocabulary

/-- A derivation that has come to the form can be brought to a word of terminals. -/
def Terminates (g : Grammar) (α : RightSide) : Prop := ∃ β, g.Derives α β ∧ g.IsTerminalForm β

/-- The symbol occurs in some derivation of a word of terminals from the start symbol. -/
def Occurs (g : Grammar) (s : Symbol) : Prop :=
  ∃ before after, g.Derives [g.start] (before ++ s :: after) ∧ g.Terminates (before ++ s :: after)

/-- The production is used in some derivation of a word of terminals from the start symbol. -/
def IsApplied (g : Grammar) (s : Symbol) (rhs : RightSide) : Prop :=
  s ∈ g.vocabulary ∧ rhs ∈ g.alternatives s ∧ ∃ before after,
    g.Derives [g.start] (before ++ s :: after) ∧ g.Terminates (before ++ rhs ++ after)

theorem Step.context (h : g.Step α β) (before after : RightSide) :
    g.Step (before ++ α ++ after) (before ++ β ++ after) := by
  cases h with
  | @replace u v rhs s expanded choice =>
    have hstep : g.Step ((before ++ u) ++ s :: (v ++ after)) ((before ++ u) ++ rhs ++ (v ++ after)) :=
      .replace expanded choice
    simp only [List.append_assoc, List.cons_append] at hstep ⊢
    exact hstep

theorem Derives.context (h : g.Derives α β) (before after : RightSide) :
    g.Derives (before ++ α ++ after) (before ++ β ++ after) := by
  induction h with
  | refl => exact .refl
  | tail _ hstep ih => exact ih.tail (hstep.context before after)

theorem Derives.append {α' β' : RightSide} (h : g.Derives α β) (h' : g.Derives α' β') :
    g.Derives (α ++ α') (β ++ β') := by
  have hleft := h.context [] α'
  have hright := h'.context β []
  simp only [List.nil_append, List.append_nil] at hleft hright
  exact hleft.trans hright

/-- One nonterminal of a form is replaced at the end of a derivation. -/
theorem Derives.replace {before after rhs : RightSide} {s : Symbol}
    (h : g.Derives α (before ++ s :: after)) (expanded : s ∈ g.vocabulary)
    (choice : rhs ∈ g.alternatives s) : g.Derives α (before ++ rhs ++ after) :=
  Relation.ReflTransGen.tail h (.replace expanded choice)

/-! ### Words -/

theorem Step.yields {w : List Symbol} (h : g.Step α β)
    (hw : Yields (· ∈ g.vocabulary) g.rules β w) : Yields (· ∈ g.vocabulary) g.rules α w := by
  cases h with
  | replace expanded choice =>
    rw [List.append_assoc] at hw
    obtain ⟨u, v, rfl, hu, hv⟩ := yields_append_iff.mp hw
    obtain ⟨x, y, rfl, hx, hy⟩ := yields_append_iff.mp hv
    exact hu.append (.nonterminal expanded choice hx hy)

theorem Derives.yields {w : List Symbol} (h : g.Derives α β)
    (hw : Yields (· ∈ g.vocabulary) g.rules β w) : Yields (· ∈ g.vocabulary) g.rules α w := by
  induction h using Relation.ReflTransGen.head_induction_on with
  | refl => exact hw
  | head hstep _ ih => exact hstep.yields ih

theorem IsTerminalForm.yields (h : g.IsTerminalForm α) :
    Yields (· ∈ g.vocabulary) g.rules α (α.flatMap Symbol.spelled) := by
  induction α with
  | nil => exact .nil
  | cons s α ih =>
    obtain ⟨hs, hα⟩ := List.forall_mem_cons.mp h
    exact .terminal hs (ih hα)

/-- The form at the end of the derivation spells the word. -/
theorem exists_derives_of_yields {w : List Symbol}
    (h : Yields (· ∈ g.vocabulary) g.rules α w) :
    ∃ β, g.Derives α β ∧ g.IsTerminalForm β ∧ β.flatMap Symbol.spelled = w := by
  induction h with
  | nil => exact ⟨[], .refl, fun s hs => absurd hs List.not_mem_nil, rfl⟩
  | @terminal s rest w fixed _ ih =>
    obtain ⟨β, hβ, hend, hspelled⟩ := ih
    have hkept : g.Derives [s] [s] := .refl
    refine ⟨s :: β, hkept.append hβ, List.forall_mem_cons.mpr ⟨fixed, hend⟩, ?_⟩
    rw [List.flatMap_cons, hspelled]
  | @nonterminal s rhs rest u w expanded choice _ _ ihHead ihTail =>
    obtain ⟨β, hβ, hend, hspelled⟩ := ihHead
    obtain ⟨γ, hγ, hend', hspelled'⟩ := ihTail
    have hfirst : g.Step ([] ++ s :: rest) ([] ++ rhs ++ rest) := .replace expanded choice
    refine ⟨β ++ γ, Relation.ReflTransGen.head hfirst (hβ.append hγ), ?_, ?_⟩
    · exact List.forall_mem_append.mpr ⟨hend, hend'⟩
    · rw [List.flatMap_append, hspelled, hspelled']

theorem yields_iff_exists_derives {w : List Symbol} :
    Yields (· ∈ g.vocabulary) g.rules α w ↔
      ∃ β, g.Derives α β ∧ g.IsTerminalForm β ∧ β.flatMap Symbol.spelled = w := by
  constructor
  · exact exists_derives_of_yields
  · rintro ⟨β, hβ, hend, rfl⟩
    exact hβ.yields hend.yields

theorem terminates_iff :
    g.Terminates α ↔ ∃ w, Yields (· ∈ g.vocabulary) g.rules α w := by
  simp only [yields_iff_exists_derives]
  constructor
  · rintro ⟨β, hβ, hend⟩
    exact ⟨_, β, hβ, hend, rfl⟩
  · rintro ⟨w, β, hβ, hend, _⟩
    exact ⟨β, hβ, hend⟩

theorem Derives.terminates (h : g.Derives α β) (hβ : g.Terminates β) : g.Terminates α := by
  obtain ⟨γ, hγ, hend⟩ := hβ
  exact ⟨γ, h.trans hγ, hend⟩

end Grammar

end ChomskyForm
