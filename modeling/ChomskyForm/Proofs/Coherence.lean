import ChomskyForm.NormalForm.Shape
import ChomskyForm.Proofs.RuleTable
import Mathlib.Data.List.Forall2

/-!
# Coherent grammars

In a coherent grammar every left side is a nonterminal, the empty marker is none, and the letters of
the pool occur nowhere.  Every stage of a conversion may count on it: what it makes of a grammar is
new only in letters that left the pool (`MadeFrom`), and so is coherent again.
-/

namespace ChomskyForm

/-! ### Letters that left a pool -/

theorem LetterPool.nodup_of_letters_eq_append {p q : LetterPool} {drawn : List Symbol}
    (h : p.letters = drawn ++ q.letters) : drawn.Nodup := by
  have hnodup := p.nodup
  rw [h] at hnodup
  exact (List.nodup_append.mp hnodup).1

theorem LetterPool.not_mem_of_letters_eq_append {p q : LetterPool} {drawn : List Symbol}
    (h : p.letters = drawn ++ q.letters) {s : Symbol} (hs : s ∈ q.letters) : s ∉ drawn := by
  have hnodup := p.nodup
  rw [h] at hnodup
  intro hdrawn
  exact (List.nodup_append.mp hnodup).2.2 s hdrawn s hs rfl

/-! ### Coherence -/

namespace Grammar

structure Coherent (g : Grammar) : Prop where
  keys : ∀ s ∈ g.rules, s ∈ g.vocabulary
  marker : Symbol.marker ∉ g.vocabulary
  fresh : ∀ s ∈ g.pool.letters, s ∉ g.vocabulary ∧ s ≠ g.start ∧ ¬g.Uses s

variable {g : Grammar}

theorem Coherent.start_not_mem_pool (h : g.Coherent) : g.start ∉ g.pool.letters := by
  intro hpool
  exact (h.fresh g.start hpool).2.1 rfl

/-- A grammar that is coherent but for the marker, which may be a nonterminal. -/
structure Supplied (g : Grammar) : Prop where
  keys : ∀ s ∈ g.rules, s ∈ g.vocabulary
  fresh : ∀ s ∈ g.pool.letters, s ∉ g.vocabulary ∧ s ≠ g.start ∧ ¬g.Uses s

theorem Coherent.supplied (h : g.Coherent) : g.Supplied := ⟨h.keys, h.fresh⟩

theorem Supplied.mem_vocabulary (h : g.Supplied) {s : Symbol} {rhs : RightSide}
    (hrhs : rhs ∈ g.alternatives s) : s ∈ g.vocabulary := h.keys s (mem_of_mem_alternatives hrhs)

theorem Supplied.not_mem_pool (h : g.Supplied) {lhs s : Symbol} {rhs : RightSide}
    (hrhs : rhs ∈ g.alternatives lhs) (hs : s ∈ rhs) : s ∉ g.pool.letters := by
  intro hpool
  exact (h.fresh s hpool).2.2 (uses_of_mem hrhs hs)

theorem Supplied.not_mem_pool_of_mem_vocabulary (h : g.Supplied) {s : Symbol}
    (hs : s ∈ g.vocabulary) : s ∉ g.pool.letters := by
  intro hpool
  exact (h.fresh s hpool).1 hs

/-- The grammar `g'` is made from `g`: all that is new in it are letters that left the pool. -/
structure MadeFrom (g : Grammar) (drawn : List Symbol) (g' : Grammar) : Prop where
  start : g'.start = g.start
  pool : g.pool.letters = drawn ++ g'.pool.letters
  keys : ∀ s ∈ g'.rules, s ∈ g'.vocabulary
  vocabulary : ∀ s ∈ g'.vocabulary, s ∈ g.vocabulary ∨ s ∈ drawn
  uses : ∀ s, g'.Uses s → g.Uses s ∨ s ∈ g.vocabulary ∨ s ∈ drawn

theorem Supplied.of_madeFrom {g' : Grammar} {drawn : List Symbol} (hg : g.Supplied)
    (h : MadeFrom g drawn g') : g'.Supplied where
  keys := h.keys
  fresh s hs := by
    have hnew := LetterPool.not_mem_of_letters_eq_append h.pool hs
    have hletter : s ∈ g.pool.letters := by
      rw [h.pool]
      exact List.mem_append_right _ hs
    obtain ⟨hexp, hne, hunused⟩ := hg.fresh s hletter
    refine ⟨?_, ?_, ?_⟩
    · intro hmem
      exact (h.vocabulary s hmem).elim hexp hnew
    · rw [h.start]
      exact hne
    · intro hmem
      rcases h.uses s hmem with hmem | hmem | hmem
      · exact hunused hmem
      · exact hexp hmem
      · exact hnew hmem

theorem Coherent.of_madeFrom {g' : Grammar} {drawn : List Symbol} (hg : g.Coherent)
    (h : MadeFrom g drawn g') : g'.Coherent where
  keys := h.keys
  marker hmem := by
    rcases h.vocabulary _ hmem with hold | hnew
    · exact hg.marker hold
    · have hletter : Symbol.marker ∈ g.pool.letters := by
        rw [h.pool]
        exact List.mem_append_left _ hnew
      exact LetterPool.ne_marker hletter rfl
  fresh := (hg.supplied.of_madeFrom h).fresh

theorem MadeFrom.trans {g₁ g₂ : Grammar} {drawn drawn' : List Symbol} (h : MadeFrom g drawn g₁)
    (h' : MadeFrom g₁ drawn' g₂) : MadeFrom g (drawn ++ drawn') g₂ where
  start := h'.start.trans h.start
  pool := by rw [h.pool, h'.pool, List.append_assoc]
  keys := h'.keys
  vocabulary s hs := by
    rw [List.mem_append, ← or_assoc]
    exact (h'.vocabulary s hs).imp_left (h.vocabulary s)
  uses s hs := by
    rw [List.mem_append]
    rcases h'.uses s hs with hs | hs | hs
    · exact (h.uses s hs).imp_right (Or.imp_right Or.inl)
    · exact Or.inr ((h.vocabulary s hs).imp_right Or.inl)
    · exact Or.inr (Or.inr (Or.inr hs))

/-- The start symbol becomes no nonterminal, as it is no letter of the pool. -/
theorem MadeFrom.start_not_mem {g₁ : Grammar} {drawn : List Symbol} (h : MadeFrom g drawn g₁)
    (hg : g.Supplied) (hstart : g.start ∉ g.vocabulary) : g₁.start ∉ g₁.vocabulary := by
  rw [h.start]
  intro hmem
  rcases h.vocabulary _ hmem with hold | hdrawn
  · exact hstart hold
  · have hletter : g.start ∈ g.pool.letters := by
      rw [h.pool]
      exact List.mem_append_left _ hdrawn
    exact (hg.fresh _ hletter).2.1 rfl

/-- No right side is empty, and the marker stands only alone. -/
def MarkerAlone (g : Grammar) : Prop :=
  ∀ s, ∀ rhs ∈ g.alternatives s, rhs ≠ [] ∧ (Symbol.marker ∈ rhs → rhs = [Symbol.marker])

theorem supplied_ofProductions (start : Symbol) (ps : List Production) :
    (ofProductions start ps).Supplied where
  keys s hs := mem_vocabulary_ofProductions.mpr (mem_rules_ofProductions.mp hs)
  fresh s hs := by
    rw [pool_ofProductions, LetterPool.mem_excluding, List.mem_cons, List.mem_flatMap] at hs
    have hunused := hs.2
    refine ⟨?_, ?_, ?_⟩
    · intro hmem
      obtain ⟨p, hp, hlhs⟩ := List.mem_map.mp (mem_vocabulary_ofProductions.mp hmem)
      exact hunused (Or.inr ⟨p, hp, List.mem_cons.mpr (Or.inl hlhs.symm)⟩)
    · rw [start_ofProductions]
      intro hstart
      exact hunused (Or.inl hstart)
    · rintro ⟨lhs, rhs, hrhs, hmem⟩
      have hp := mem_alternatives_ofProductions.mp hrhs
      exact hunused (Or.inr ⟨(lhs, rhs), hp, List.mem_cons_of_mem _ hmem⟩)

/-- A grammar given by productions without the marker on the left is coherent. -/
theorem coherent_ofProductions {start : Symbol} {ps : List Production}
    (h : ∀ p ∈ ps, p.1 ≠ Symbol.marker) : (ofProductions start ps).Coherent where
  keys := (supplied_ofProductions start ps).keys
  marker hmem := by
    obtain ⟨p, hp, hlhs⟩ := List.mem_map.mp (mem_vocabulary_ofProductions.mp hmem)
    exact h p hp hlhs
  fresh := (supplied_ofProductions start ps).fresh

/-! ### Shapes of right sides -/

theorem isBinary_iff :
    g.IsBinary ↔ ∀ s, ∀ rhs ∈ g.alternatives s, rhs.length = 1 ∨ rhs.length = 2 :=
  forall_mem_productions_iff (P := fun rhs => rhs.length = 1 ∨ rhs.length = 2)

/-- What stands for a right side of a binary grammar is one right side or two in a row. -/
theorem IsBinary.forall₂_cases (h : g.IsBinary) {R : Symbol → RightSide → Prop} {s : Symbol}
    {rhs : RightSide} {βs : List RightSide} (hrhs : rhs ∈ g.alternatives s)
    (hβs : List.Forall₂ R rhs βs) :
    (∃ x, rhs = [x] ∧ R x βs.flatten) ∨
      ∃ x y β γ, rhs = [x, y] ∧ βs.flatten = β ++ γ ∧ R x β ∧ R y γ := by
  have hlen := isBinary_iff.mp h s rhs hrhs
  cases hβs with
  | nil => simp only [List.length_nil, Nat.reduceEqDiff, or_self] at hlen
  | @cons x β rest _ hx hrest =>
    cases hrest with
    | nil =>
      rw [List.flatten_singleton]
      exact Or.inl ⟨x, rfl, hx⟩
    | @cons y γ rest _ hy hrest =>
      cases hrest with
      | nil =>
        rw [List.flatten_cons, List.flatten_singleton]
        exact Or.inr ⟨x, y, β, γ, rfl, rfl, hx, hy⟩
      | cons _ _ =>
        simp only [List.length_cons] at hlen
        omega

theorem isEmptyFree_iff : g.IsEmptyFree ↔ ∀ s, ∀ rhs ∈ g.alternatives s, Symbol.marker ∉ rhs :=
  forall_mem_productions_iff (P := fun rhs => Symbol.marker ∉ rhs)

theorem isUnitFree_iff :
    g.IsUnitFree ↔ ∀ s, ∀ rhs ∈ g.alternatives s, ∀ t ∈ g.vocabulary, rhs ≠ [t] := by
  have hunit : ∀ rhs : RightSide, g.isUnit rhs = false ↔ ∀ t ∈ g.vocabulary, rhs ≠ [t] := by
    intro rhs
    rw [Bool.eq_false_iff, ne_eq, isUnit_eq_true_iff]
    constructor
    · intro h t ht heq
      exact h ⟨t, ht, heq⟩
    · rintro h ⟨t, ht, heq⟩
      exact h t ht heq
  simp only [← hunit]
  exact forall_mem_productions_iff (P := fun rhs => g.isUnit rhs = false)

theorem isLifted_iff :
    g.IsLifted ↔ ∀ s, ∀ rhs ∈ g.alternatives s, rhs.length = 2 → ∀ t ∈ rhs, t ∈ g.vocabulary :=
  forall_mem_productions_iff (P := fun rhs => rhs.length = 2 → ∀ t ∈ rhs, t ∈ g.vocabulary)

end Grammar

end ChomskyForm
