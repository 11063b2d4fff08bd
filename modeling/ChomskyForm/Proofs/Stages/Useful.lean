import ChomskyForm.NormalForm.Useful
import ChomskyForm.Proofs.Analysis.Grounded
import ChomskyForm.Proofs.Analysis.Reachable
import ChomskyForm.Proofs.Coherence
import ChomskyForm.Proofs.Simulation

/-!
# Dropping useless productions

The unproductive nonterminals derive no word, so that they can go with every production that
mentions them (`drops_unproductive`).  What is then mentioned and is a nonterminal is a left side,
so that a symbol within reach is of the same kind before and after (`accepts_prune_iff`).
-/

namespace ChomskyForm

namespace Grammar

variable {g : Grammar} {s t : Symbol} {rhs : RightSide}

/-! ### Unproductive nonterminals -/

theorem mem_unproductive_iff : s ∈ g.unproductive ↔ s ∈ g.vocabulary ∧ s ∉ g.productive := by
  rw [unproductive, OrderedSet.mem_filter, decide_eq_true_eq]

theorem mem_rules_of_mem_productive (hs : s ∈ g.productive) : s ∈ g.rules :=
  (RuleTable.mem_grounded_iff.mp hs).mem_rules

/-- Productive symbols are grounded on the terminals. -/
theorem not_base_iff : (!g.isNonterminal s) ≠ true ↔ s ∈ g.vocabulary := by
  rw [ne_eq, Bool.not_eq_true', Bool.not_eq_false, isNonterminal_eq_true_iff]

/-- A productive left side has an alternative without unproductive nonterminals. -/
theorem mem_productive_iff_exists_alternative :
    s ∈ g.productive ↔ ∃ rhs ∈ g.alternatives s, ∀ t ∈ rhs, t ∉ g.unproductive := by
  have hfree : ∀ t, (t ∈ g.vocabulary → t ∈ g.productive) ↔ t ∉ g.unproductive := by
    intro t
    rw [mem_unproductive_iff, not_and, not_not]
  constructor
  · intro hs
    cases RuleTable.mem_grounded_iff.mp hs with
    | @intro _ rhs choice rest =>
      refine ⟨rhs, choice, fun t ht => (hfree t).mp fun hexp => ?_⟩
      exact RuleTable.mem_grounded_iff.mpr (rest t ht (not_base_iff.mpr hexp))
  · rintro ⟨rhs, hrhs, hall⟩
    refine RuleTable.mem_grounded_iff.mpr (.intro hrhs fun t ht ht' => ?_)
    exact RuleTable.mem_grounded_iff.mp ((hfree t).mpr (hall t ht) (not_base_iff.mp ht'))

theorem mem_alternatives_dropUnproductive : rhs ∈ g.dropUnproductive.alternatives s ↔
    rhs ∈ g.alternatives s ∧ (∀ t ∈ rhs, t ∉ g.unproductive) ∧
      (s ∉ g.unproductive ∨ s = g.start) := by
  rw [alternatives, dropUnproductive, RuleTable.mem_alternatives_filterKeys,
    RuleTable.alternatives_filterAlternatives, List.mem_filter, RightSide.not_mentions_iff,
    decide_eq_true_eq, and_assoc]
  rfl

theorem mem_rules_dropUnproductive :
    s ∈ g.dropUnproductive.rules ↔ s ∈ g.rules ∧ (s ∉ g.unproductive ∨ s = g.start) := by
  rw [dropUnproductive, RuleTable.mem_filterKeys, RuleTable.mem_filterAlternatives,
    decide_eq_true_eq]

theorem drops_unproductive :
    Drops (· ∈ g.unproductive) (· ∈ g.vocabulary) (· ∈ g.dropUnproductive.vocabulary) g.rules
      g.dropUnproductive.rules where
  expanded s hs := (mem_unproductive_iff.mp hs).1
  blocked s hs rhs hrhs := by
    by_contra hnone
    refine (mem_unproductive_iff.mp hs).2 (mem_productive_iff_exists_alternative.mpr
      ⟨rhs, hrhs, fun t ht hun => hnone ⟨t, ht, hun⟩⟩)
  kept s hs rhs hrhs hfree := mem_alternatives_dropUnproductive.mpr ⟨hrhs, hfree, Or.inl hs⟩
  only s rhs hrhs := by
    obtain ⟨hold, hfree, _⟩ := mem_alternatives_dropUnproductive.mp hrhs
    exact ⟨hold, hfree⟩
  sameKind s _ := Iff.rfl

/-- A nonterminal that is still mentioned is a left side. -/
theorem mem_rules_of_uses_dropUnproductive (huses : g.dropUnproductive.Uses s)
    (hexp : s ∈ g.vocabulary) : s ∈ g.dropUnproductive.rules := by
  obtain ⟨lhs, rhs, hrhs, hs⟩ := huses
  have hfree := (mem_alternatives_dropUnproductive.mp hrhs).2.1 s hs
  have hprod : s ∈ g.productive := by
    by_contra hnot
    exact hfree (mem_unproductive_iff.mpr ⟨hexp, hnot⟩)
  exact mem_rules_dropUnproductive.mpr ⟨mem_rules_of_mem_productive hprod, Or.inl hfree⟩

/-! ### Left sides out of reach -/

theorem mem_alternatives_dropUnreachable : rhs ∈ g.dropUnreachable.alternatives s ↔
    rhs ∈ g.alternatives s ∧ s ∈ g.rules.reachable g.start := by
  rw [alternatives, dropUnreachable, RuleTable.mem_alternatives_filterKeys, decide_eq_true_eq]
  rfl

theorem mem_rules_dropUnreachable :
    s ∈ g.dropUnreachable.rules ↔ s ∈ g.rules ∧ s ∈ g.rules.reachable g.start := by
  rw [dropUnreachable, RuleTable.mem_filterKeys, decide_eq_true_eq]

theorem mem_vocabulary_dropUnreachable :
    s ∈ g.dropUnreachable.vocabulary ↔ s ∈ g.vocabulary ∧ s ∈ g.dropUnreachable.rules := by
  rw [dropUnreachable, OrderedSet.mem_filter, decide_eq_true_eq]

/-- The symbols of a production within reach keep their kind. -/
theorem mem_vocabulary_dropUnreachable_of_mem
    (hmentioned : ∀ s, g.Uses s → s ∈ g.vocabulary → s ∈ g.rules) {lhs : Symbol}
    (hlhs : lhs ∈ g.rules.reachable g.start) (hrhs : rhs ∈ g.alternatives lhs) (hs : s ∈ rhs)
    (hexp : s ∈ g.vocabulary) : s ∈ g.dropUnreachable.vocabulary := by
  have hkey := hmentioned s (uses_of_mem hrhs hs) hexp
  have hreach := RuleTable.mem_reachable_of_mem_rhs hlhs hrhs hs hkey
  exact mem_vocabulary_dropUnreachable.mpr ⟨hexp, mem_rules_dropUnreachable.mpr ⟨hkey, hreach⟩⟩

theorem generates_dropUnreachable_iff
    (hmentioned : ∀ s, g.Uses s → s ∈ g.vocabulary → s ∈ g.rules)
    (hs : s ∈ g.vocabulary → s ∈ g.dropUnreachable.vocabulary) {w : List Symbol} :
    g.dropUnreachable.Generates s w ↔ g.Generates s w := by
  have hclosed : ∀ lhs, (lhs ∈ g.vocabulary → lhs ∈ g.dropUnreachable.vocabulary) →
      lhs ∈ g.vocabulary → ∀ rhs ∈ g.alternatives lhs, ∀ t ∈ rhs,
      t ∈ g.vocabulary → t ∈ g.dropUnreachable.vocabulary := by
    intro lhs hlhs hexp rhs hrhs t ht
    have hkey := (mem_vocabulary_dropUnreachable.mp (hlhs hexp)).2
    exact mem_vocabulary_dropUnreachable_of_mem hmentioned (mem_rules_dropUnreachable.mp hkey).2
      hrhs ht
  have hone : ∀ t ∈ [s], t ∈ g.vocabulary → t ∈ g.dropUnreachable.vocabulary := by
    intro t ht
    rw [List.mem_singleton.mp ht]
    exact hs
  constructor
  · intro hw
    refine Yields.transfer
      (Q := fun t => t ∈ g.vocabulary → t ∈ g.dropUnreachable.vocabulary) ?_ ?_ ?_ hw hone
    · intro lhs hlhs hexp rhs hrhs
      exact hclosed lhs hlhs (mem_vocabulary_dropUnreachable.mp hexp).1 rhs
        (mem_alternatives_dropUnreachable.mp hrhs).1
    · intro t ht hfixed hexp
      exact hfixed (ht hexp)
    · intro lhs _ hexp rhs hrhs u hu
      exact .of_alternative (mem_vocabulary_dropUnreachable.mp hexp).1
        (mem_alternatives_dropUnreachable.mp hrhs).1 hu
  · intro hw
    refine Yields.transfer
      (Q := fun t => t ∈ g.vocabulary → t ∈ g.dropUnreachable.vocabulary) hclosed ?_ ?_ hw hone
    · intro t _ hfixed hexp
      exact hfixed (mem_vocabulary_dropUnreachable.mp hexp).1
    · intro lhs hlhs hexp rhs hrhs u hu
      have hnew := hlhs hexp
      have hkey := (mem_vocabulary_dropUnreachable.mp hnew).2
      exact .of_alternative hnew (mem_alternatives_dropUnreachable.mpr
        ⟨hrhs, (mem_rules_dropUnreachable.mp hkey).2⟩) hu

/-! ### Both together -/

theorem mem_alternatives_of_prune (hrhs : rhs ∈ g.prune.alternatives s) : rhs ∈ g.alternatives s :=
  (mem_alternatives_dropUnproductive.mp (mem_alternatives_dropUnreachable.mp hrhs).1).1

theorem mem_vocabulary_prune : s ∈ g.prune.vocabulary ↔ s ∈ g.vocabulary ∧ s ∈ g.prune.rules :=
  mem_vocabulary_dropUnreachable (g := g.dropUnproductive)

theorem uses_prune (huses : g.prune.Uses s) : g.Uses s := by
  obtain ⟨lhs, rhs, hrhs, hs⟩ := huses
  exact uses_of_mem (mem_alternatives_of_prune hrhs) hs

/-- A nonterminal that is dropped is on no right side any more. -/
theorem mem_vocabulary_prune_of_uses (huses : g.prune.Uses s) (hexp : s ∈ g.vocabulary) :
    s ∈ g.prune.vocabulary := by
  obtain ⟨lhs, rhs, hrhs, hs⟩ := huses
  obtain ⟨hold, hreach⟩ := mem_alternatives_dropUnreachable.mp hrhs
  exact mem_vocabulary_dropUnreachable_of_mem
    (fun _ huses hexp => mem_rules_of_uses_dropUnproductive huses hexp) hreach hold hs hexp

theorem start_mem_prune (hstart : g.start ∈ g.rules) : g.start ∈ g.prune.rules :=
  mem_rules_dropUnreachable.mpr
    ⟨mem_rules_dropUnproductive.mpr ⟨hstart, Or.inr rfl⟩, RuleTable.start_mem_reachable⟩

/-- A symbol keeps its words, unless it is dropped. -/
theorem generates_prune_iff (hs : s ∈ g.vocabulary → s ∈ g.prune.vocabulary) {w : List Symbol} :
    g.prune.Generates s w ↔ g.Generates s w := by
  have hunreachable : g.prune.Generates s w ↔ g.dropUnproductive.Generates s w :=
    generates_dropUnreachable_iff
      (fun _ huses hexp => mem_rules_of_uses_dropUnproductive huses hexp) hs
  rw [hunreachable]
  exact drops_unproductive.yields_symbol_iff fun hs => (mem_unproductive_iff.mp hs).1

/-- The words of the grammar stay. -/
theorem accepts_prune_iff (hstart : g.start ∈ g.rules) {w : List Symbol} :
    g.prune.Accepts w ↔ g.Accepts w :=
  generates_prune_iff fun hexp => mem_vocabulary_prune.mpr ⟨hexp, start_mem_prune hstart⟩

/-! ### What pruning keeps -/

theorem madeFrom_prune (hkeys : ∀ s ∈ g.rules, s ∈ g.vocabulary) : MadeFrom g [] g.prune where
  start := rfl
  pool := rfl
  keys s hs := by
    have hold := (mem_rules_dropUnproductive.mp (mem_rules_dropUnreachable.mp hs).1).1
    exact mem_vocabulary_prune.mpr ⟨hkeys s hold, hs⟩
  vocabulary _ hs := Or.inl (mem_vocabulary_prune.mp hs).1
  uses _ hs := Or.inl (uses_prune hs)

theorem coherent_prune (hg : g.Coherent) : g.prune.Coherent :=
  hg.of_madeFrom (madeFrom_prune hg.keys)

theorem isBinary_prune (hbinary : g.IsBinary) : g.prune.IsBinary := by
  rw [isBinary_iff] at hbinary ⊢
  intro s rhs hrhs
  exact hbinary s rhs (mem_alternatives_of_prune hrhs)

theorem isEmptyFree_prune (hfree : g.IsEmptyFree) : g.prune.IsEmptyFree := by
  rw [isEmptyFree_iff] at hfree ⊢
  intro s rhs hrhs
  exact hfree s rhs (mem_alternatives_of_prune hrhs)

theorem isUnitFree_prune (hfree : g.IsUnitFree) : g.prune.IsUnitFree := by
  rw [isUnitFree_iff] at hfree ⊢
  intro s rhs hrhs t ht
  exact hfree s rhs (mem_alternatives_of_prune hrhs) t (mem_vocabulary_prune.mp ht).1

theorem isLifted_prune (hlifted : g.IsLifted) : g.prune.IsLifted := by
  rw [isLifted_iff] at hlifted ⊢
  intro s rhs hrhs hlen t ht
  exact mem_vocabulary_prune_of_uses (uses_of_mem hrhs ht)
    (hlifted s rhs (mem_alternatives_of_prune hrhs) hlen t ht)

/-- A left side other than the start symbol is productive, and its productive alternative stays. -/
theorem alternatives_prune_ne_nil (hg : g.Coherent) (hs : s ∈ g.prune.rules) (hne : s ≠ g.start) :
    g.prune.alternatives s ≠ [] := by
  obtain ⟨hkey, hreach⟩ := mem_rules_dropUnreachable.mp hs
  obtain ⟨hold, hor⟩ := mem_rules_dropUnproductive.mp hkey
  have hfree := hor.resolve_right hne
  have hprod : s ∈ g.productive := by
    by_contra hnot
    exact hfree (mem_unproductive_iff.mpr ⟨hg.keys s hold, hnot⟩)
  obtain ⟨rhs, hrhs, hall⟩ := mem_productive_iff_exists_alternative.mp hprod
  exact List.ne_nil_of_mem (mem_alternatives_dropUnreachable.mpr
    ⟨mem_alternatives_dropUnproductive.mpr ⟨hrhs, hall, Or.inl hfree⟩, hreach⟩)

end Grammar

end ChomskyForm
