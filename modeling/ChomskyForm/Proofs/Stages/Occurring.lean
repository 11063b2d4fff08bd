import ChomskyForm.Proofs.Derivation
import ChomskyForm.Proofs.Stages.Useful

/-!
# Pruning keeps what occurs in derivations

A form can be brought to a word just if it has no unproductive nonterminal.  What a derivation of a
word comes to is therefore within reach of the start symbol by productions without such
nonterminals, and the other way round (`mem_vocabulary_prune_iff_occurs`,
`mem_alternatives_prune_iff_isApplied`).
-/

namespace ChomskyForm

/-! ### The order of what is kept -/

namespace RuleTable

theorem productions_filterAlternatives (rules : RuleTable) (p : RightSide → Bool) :
    (rules.filterAlternatives p).productions = rules.productions.filter fun q => p q.2 := by
  rw [productions, productions, List.filter_flatMap, filterAlternatives, OrderedMap.mapValues,
    List.flatMap_map]
  refine List.flatMap_congr fun e _ => ?_
  rw [List.filter_map]
  rfl

theorem productions_filterKeys (rules : RuleTable) (p : Symbol → Bool) :
    (rules.filterKeys p).productions = rules.productions.filter fun q => p q.1 := by
  show (rules.entries.filter fun e => p e.1).flatMap _ = _
  rw [productions]
  induction rules.entries with
  | nil => rfl
  | cons e es ih =>
    have hentry : ((e.2.map fun rhs => (e.1, rhs)).filter fun q : Production => p q.1) =
        if p e.1 = true then e.2.map fun rhs => (e.1, rhs) else [] := by
      split
      · rename_i hp
        exact List.filter_eq_self.mpr (by simp [hp])
      · rename_i hp
        exact List.filter_eq_nil_iff.mpr (by simp [hp])
    rw [List.flatMap_cons, List.filter_append, hentry, ← ih, List.filter_cons]
    split
    · rw [List.flatMap_cons]
    · rfl

theorem keys_filterAlternatives (rules : RuleTable) (p : RightSide → Bool) :
    (rules.filterAlternatives p).keys = rules.keys := OrderedMap.keys_mapValues ..

theorem keys_filterKeys_sublist (rules : RuleTable) (p : Symbol → Bool) :
    (rules.filterKeys p).keys.Sublist rules.keys := List.filter_sublist.map Prod.fst

end RuleTable

namespace Grammar

variable {g : Grammar} {s : Symbol} {rhs : RightSide}

theorem keys_prune_sublist : g.prune.rules.keys.Sublist g.rules.keys := by
  have hproductive : g.dropUnproductive.rules.keys.Sublist g.rules.keys := by
    refine (RuleTable.keys_filterKeys_sublist _ _).trans ?_
    rw [RuleTable.keys_filterAlternatives]
  exact (RuleTable.keys_filterKeys_sublist _ _).trans hproductive

theorem productions_prune_sublist : g.prune.productions.Sublist g.productions := by
  show (g.dropUnproductive.rules.filterKeys _).productions.Sublist _
  rw [RuleTable.productions_filterKeys]
  refine List.filter_sublist.trans ?_
  rw [dropUnproductive, RuleTable.productions_filterKeys, RuleTable.productions_filterAlternatives]
  exact List.filter_sublist.trans List.filter_sublist

/-! ### Forms that can be brought to a word -/

theorem terminates_iff_forall_not_mem (hkeys : ∀ s ∈ g.rules, s ∈ g.vocabulary) {α : RightSide} :
    g.Terminates α ↔ ∀ s ∈ α, s ∉ g.unproductive := by
  rw [terminates_iff]
  constructor
  · rintro ⟨w, hw⟩
    exact (drops_unproductive.yields_of_yields hw).1
  · intro h
    induction α with
    | nil => exact ⟨[], .nil⟩
    | cons s α ih =>
      obtain ⟨hs, hα⟩ := List.forall_mem_cons.mp h
      have hone : ∃ u, g.Generates s u := by
        by_cases hexp : s ∈ g.vocabulary
        · have hproductive : s ∈ g.productive := by
            by_contra hnot
            exact hs (mem_unproductive_iff.mpr ⟨hexp, hnot⟩)
          exact (mem_productive_iff hkeys hexp).mp hproductive
        · exact ⟨_, .of_fixed hexp⟩
      obtain ⟨u, hu⟩ := hone
      obtain ⟨v, hv⟩ := ih hα
      exact ⟨u ++ v, Yields.append hu hv⟩

/-- The walk follows a derivation in which the symbols to both sides can be brought to words. -/
theorem exists_derives_of_mem_reachable (hkeys : ∀ s ∈ g.rules, s ∈ g.vocabulary)
    (hs : s ∈ g.dropUnproductive.rules.reachable g.start) :
    ∃ before after, g.Derives [g.start] (before ++ s :: after) ∧
      ∀ t ∈ before ++ after, t ∉ g.unproductive := by
  have hall : ∀ s ∈ g.dropUnproductive.rules.reachable g.start,
      ∃ before after, g.Derives [g.start] (before ++ s :: after) ∧
        ∀ t ∈ before ++ after, t ∉ g.unproductive := by
    refine explore_induction (P := fun seen => ∀ s ∈ seen,
      ∃ before after, g.Derives [g.start] (before ++ s :: after) ∧
        ∀ t ∈ before ++ after, t ∉ g.unproductive) ?_ ?_
    · intro seen hseen a ha b hb
      rcases OrderedSet.mem_insertAll.mp hb with hb | hb
      · exact hseen b hb
      · obtain ⟨⟨rhs, hrhs, hmem⟩, _⟩ := RuleTable.mem_successors.mp hb
        obtain ⟨hold, hfree, _⟩ := mem_alternatives_dropUnproductive.mp hrhs
        obtain ⟨before, after, hder, hsides⟩ := hseen a ha
        obtain ⟨left, right, rfl⟩ := List.append_of_mem hmem
        have hnext := hder.replace (hkeys a (mem_of_mem_alternatives hold)) hold
        refine ⟨before ++ left, right ++ after, ?_, fun t ht => ?_⟩
        · simp only [List.append_assoc, List.cons_append] at hnext ⊢
          exact hnext
        · simp only [List.mem_append, List.mem_cons] at ht hsides hfree
          rcases ht with (ht | ht) | ht | ht
          · exact hsides t (Or.inl ht)
          · exact hfree t (Or.inl ht)
          · exact hfree t (Or.inr (Or.inr ht))
          · exact hsides t (Or.inr ht)
    · intro s hs
      rw [List.mem_singleton.mp hs]
      exact ⟨[], [], .refl, fun t ht => absurd ht List.not_mem_nil⟩
  exact hall s hs

/-- All forms on the way to a word can be brought to it, so that their productions are kept. -/
theorem mem_reachable_of_derives (hkeys : ∀ s ∈ g.rules, s ∈ g.vocabulary) {α : RightSide}
    (h : g.Derives [g.start] α) : g.Terminates α → ∀ s ∈ α, s ∈ g.vocabulary →
      s ∈ g.dropUnproductive.rules.reachable g.start := by
  induction h with
  | refl =>
    intro _ s hs _
    rw [List.mem_singleton.mp hs]
    exact RuleTable.start_mem_reachable
  | tail _ hstep ih =>
    intro hend s hs hexp
    have hbefore := ih (Derives.terminates (.single hstep) hend)
    have hfree := (terminates_iff_forall_not_mem hkeys).mp hend
    have hfree' := (terminates_iff_forall_not_mem hkeys).mp
      (Derives.terminates (.single hstep) hend)
    cases hstep with
    | @replace before after rhs t expanded choice =>
      have ht : t ∈ before ++ t :: after := List.mem_append_right _ (List.mem_cons_self ..)
      have hkept : rhs ∈ g.dropUnproductive.alternatives t :=
        mem_alternatives_dropUnproductive.mpr ⟨choice, fun u hu => hfree u
          (List.mem_append_left _ (List.mem_append_right _ hu)), Or.inl (hfree' t ht)⟩
      rw [List.append_assoc, List.mem_append, List.mem_append] at hs
      rcases hs with hs | hs | hs
      · exact hbefore s (List.mem_append_left _ hs) hexp
      · exact RuleTable.mem_reachable_of_mem_rhs (hbefore t ht expanded) hkept hs
          (mem_rules_of_uses_dropUnproductive (uses_of_mem hkept hs) hexp)
      · exact hbefore s (List.mem_append_right _ (List.mem_cons_of_mem _ hs)) hexp

/-! ### What pruning keeps, by derivations -/

theorem mem_vocabulary_prune_iff_occurs (hkeys : ∀ s ∈ g.rules, s ∈ g.vocabulary)
    (hs : s ∈ g.vocabulary) (hne : s ≠ g.start) : s ∈ g.prune.vocabulary ↔ g.Occurs s := by
  constructor
  · intro hkept
    obtain ⟨hkey, hreach⟩ := mem_rules_dropUnreachable.mp (mem_vocabulary_prune.mp hkept).2
    have hself := (mem_rules_dropUnproductive.mp hkey).2.resolve_right hne
    obtain ⟨before, after, hder, hsides⟩ := exists_derives_of_mem_reachable hkeys hreach
    refine ⟨before, after, hder, (terminates_iff_forall_not_mem hkeys).mpr fun t ht => ?_⟩
    rcases List.mem_append.mp ht with ht | ht
    · exact hsides t (List.mem_append_left _ ht)
    · rcases List.mem_cons.mp ht with ht | ht
      · rw [ht]
        exact hself
      · exact hsides t (List.mem_append_right _ ht)
  · rintro ⟨before, after, hder, hend⟩
    have hmem : s ∈ before ++ s :: after := List.mem_append_right _ (List.mem_cons_self ..)
    have hfree := (terminates_iff_forall_not_mem hkeys).mp hend s hmem
    have hproductive : s ∈ g.productive := by
      by_contra hnot
      exact hfree (mem_unproductive_iff.mpr ⟨hs, hnot⟩)
    have hkey := mem_rules_dropUnproductive.mpr
      ⟨mem_rules_of_mem_productive hproductive, Or.inl hfree⟩
    exact mem_vocabulary_prune.mpr ⟨hs, mem_rules_dropUnreachable.mpr
      ⟨hkey, mem_reachable_of_derives hkeys hder hend s hmem hs⟩⟩

theorem mem_alternatives_prune_iff_isApplied (hkeys : ∀ s ∈ g.rules, s ∈ g.vocabulary) :
    rhs ∈ g.prune.alternatives s ↔ g.IsApplied s rhs := by
  constructor
  · intro hrhs
    obtain ⟨hkept, hreach⟩ := mem_alternatives_dropUnreachable.mp hrhs
    obtain ⟨hold, hfree, _⟩ := mem_alternatives_dropUnproductive.mp hkept
    obtain ⟨before, after, hder, hsides⟩ := exists_derives_of_mem_reachable hkeys hreach
    refine ⟨hkeys s (mem_of_mem_alternatives hold), hold, before, after, hder,
      (terminates_iff_forall_not_mem hkeys).mpr fun t ht => ?_⟩
    rw [List.append_assoc, List.mem_append, List.mem_append] at ht
    rcases ht with ht | ht | ht
    · exact hsides t (List.mem_append_left _ ht)
    · exact hfree t ht
    · exact hsides t (List.mem_append_right _ ht)
  · rintro ⟨hexp, hold, before, after, hder, hend⟩
    have hwhole : g.Terminates (before ++ s :: after) :=
      Derives.terminates (.single (.replace hexp hold)) hend
    have hmem : s ∈ before ++ s :: after := List.mem_append_right _ (List.mem_cons_self ..)
    have hself := (terminates_iff_forall_not_mem hkeys).mp hwhole s hmem
    have hfree : ∀ t ∈ rhs, t ∉ g.unproductive := fun t ht =>
      (terminates_iff_forall_not_mem hkeys).mp hend t
        (List.mem_append_left _ (List.mem_append_right _ ht))
    exact mem_alternatives_dropUnreachable.mpr
      ⟨mem_alternatives_dropUnproductive.mpr ⟨hold, hfree, Or.inl hself⟩,
        mem_reachable_of_derives hkeys hder hwhole s hmem hexp⟩

/-- Just the nonterminals and productions that occur in derivations of words are kept, in their
order, and each nonterminal with the words that it had; the start symbol is kept in any case. -/
theorem useful_prune (hkeys : ∀ s ∈ g.rules, s ∈ g.vocabulary) (hstart : g.start ∈ g.rules) :
    (∀ s ∈ g.vocabulary, s ≠ g.start → (s ∈ g.prune.vocabulary ↔ g.Occurs s)) ∧
    (∀ s rhs, rhs ∈ g.prune.alternatives s ↔ g.IsApplied s rhs) ∧
    g.start ∈ g.prune.rules ∧ (∀ s, s ∈ g.prune.vocabulary ↔ s ∈ g.prune.rules) ∧
    g.prune.rules.keys.Sublist g.rules.keys ∧ g.prune.productions.Sublist g.productions ∧
    ∀ s, s = g.start ∨ s ∈ g.prune.vocabulary → ∀ w,
      g.prune.Generates s w ↔ g.Generates s w := by
  have hkept := start_mem_prune hstart
  refine ⟨fun s hs hne => mem_vocabulary_prune_iff_occurs hkeys hs hne,
    fun s rhs => mem_alternatives_prune_iff_isApplied hkeys, hkept, fun s => ?_,
    keys_prune_sublist, productions_prune_sublist, fun s hs w => ?_⟩
  · constructor
    · exact fun hs => (mem_vocabulary_prune.mp hs).2
    · exact (madeFrom_prune hkeys).keys s
  · refine generates_prune_iff fun hexp => ?_
    rcases hs with hs | hs
    · rw [hs] at hexp ⊢
      exact mem_vocabulary_prune.mpr ⟨hexp, hkept⟩
    · exact hs

/-- Only the unproductive `B` leads to `A`, and nothing to `C`. -/
def entangledProductions : List Production :=
  [(⟨'S'⟩, [⟨'A'⟩, ⟨'B'⟩]), (⟨'S'⟩, [⟨'D'⟩, ⟨'a'⟩]), (⟨'A'⟩, [⟨'a'⟩]), (⟨'B'⟩, [⟨'B'⟩, ⟨'A'⟩]),
    (⟨'C'⟩, [⟨'S'⟩]), (⟨'D'⟩, [⟨'e'⟩]), (⟨'D'⟩, [⟨'B'⟩])]

theorem useful_prune_entangled :
    let g := ofProductions ⟨'S'⟩ entangledProductions
    (∀ s ∈ g.rules, s ∈ g.vocabulary) ∧ g.start ∈ g.rules ∧ ¬g.Occurs ⟨'A'⟩ ∧ g.Occurs ⟨'D'⟩ ∧
      g.IsApplied ⟨'D'⟩ [⟨'e'⟩] ∧ ¬g.IsApplied ⟨'D'⟩ [⟨'B'⟩] ∧
      ∀ w, g.prune.Generates ⟨'D'⟩ w ↔ g.Generates ⟨'D'⟩ w := by
  intro g
  have hkeys : ∀ s ∈ g.rules, s ∈ g.vocabulary := by decide +kernel
  have hstart : g.start ∈ g.rules := by decide +kernel
  obtain ⟨hoccurs, happlied, _, _, _, _, hwords⟩ := useful_prune hkeys hstart
  refine ⟨hkeys, hstart, ?_, ?_, ?_, ?_, hwords ⟨'D'⟩ (Or.inr (by decide +kernel))⟩
  · rw [← hoccurs ⟨'A'⟩ (by decide +kernel) (by decide +kernel)]
    decide +kernel
  · rw [← hoccurs ⟨'D'⟩ (by decide +kernel) (by decide +kernel)]
    decide +kernel
  · rw [← happlied]
    decide +kernel
  · rw [← happlied]
    decide +kernel

end Grammar

end ChomskyForm
