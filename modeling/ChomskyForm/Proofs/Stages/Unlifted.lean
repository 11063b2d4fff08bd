import ChomskyForm.Proofs.Histories
import ChomskyForm.Proofs.Inlining

/-!
# Stand-ins replaced by their terminals again

Lifting leaves the entries of a table in their places, with as many alternatives as before, and adds
an entry for each stand-in (`StoodIn.entries_eq`).  With the terminals in the places of their stand-ins
the old table comes back (`unlifted_liftTerminals`).
-/

namespace ChomskyForm

namespace Grammar

namespace StoodIn

variable {g g₅ : Grammar} {σ : StandIns} {s t u : Symbol}

/-- The terminals that have stand-ins are those of the pairs. -/
theorem mem_iff (h : StoodIn g σ g₅) : t ∈ σ ↔ t ∉ g.vocabulary ∧ g.UsesInPair t := by
  constructor
  · exact h.terminals t
  · rintro ⟨hfixed, lhs, rhs, hrhs, hlen, hmem⟩
    exact (h.covered lhs rhs hrhs hlen t hmem).resolve_left hfixed

theorem nodup_values (h : StoodIn g σ g₅) : σ.values.Nodup :=
  LetterPool.nodup_of_letters_eq_append h.pool

theorem not_uses_of_mem_values (h : StoodIn g σ g₅) (hg : g.Supplied) (hu : u ∈ σ.values) :
    ¬g.Uses u := (hg.fresh u (h.mem_pool_of_mem_values hu)).2.2

theorem not_mem_rules (h : StoodIn g σ g₅) (hg : g.Supplied) (hu : u ∈ σ.values) : u ∉ g.rules :=
  fun hmem => hg.not_mem_pool_of_mem_vocabulary (hg.keys u hmem) (h.mem_pool_of_mem_values hu)

/-- A lifted terminal is no stand-in itself. -/
theorem not_mem_values_of_mem (h : StoodIn g σ g₅) (hg : g.Supplied) (ht : t ∈ σ) :
    t ∉ σ.values := fun hval =>
  h.not_uses_of_mem_values hg hval (h.terminals t ht).2.uses

theorem readsAs (h : StoodIn g σ g₅) (hg : g.Supplied) :
    RuleTable.ReadsAs h.reading (g.liftedEntries σ g.rules.entries) g.rules := by
  have hentry : ∀ e ∈ g.rules.entries,
      (e.2.map (g.lifted σ)).map (fun rhs => rhs.flatMap h.reading) = e.2 := by
    intro e he
    have hself : ∀ rhs ∈ e.2, (g.lifted σ rhs).flatMap h.reading = rhs := by
      intro rhs hrhs
      rw [← RuleTable.alternatives_of_mem_entries he] at hrhs
      exact h.flatMap_lifted hg hrhs
    rw [List.map_map]
    exact (List.map_congr_left hself).trans (List.map_id' _)
  rw [RuleTable.ReadsAs, liftedEntries, List.map_map]
  refine (List.map_congr_left fun e he => ?_).trans (List.map_id' _)
  exact Prod.ext rfl (hentry e he)

theorem entries_eq (h : StoodIn g σ g₅) (hg : g.Supplied) (hd : g.rules.Distinct) :
    g₅.rules.entries = g.liftedEntries σ g.rules.entries ++ standInEntries σ := by
  rw [h.rules]
  refine (h.readsAs hg).entries_ofEntries hd ?_ ?_ fun e he => ?_
  · rw [map_fst_standInEntries]
    exact h.nodup_values
  · rw [map_fst_standInEntries]
    exact fun u hu => h.not_mem_rules hg hu
  · obtain ⟨e', _, rfl⟩ := List.mem_map.mp he
    exact ⟨[e'.1], rfl⟩

theorem keys_eq (h : StoodIn g σ g₅) (hg : g.Supplied) (hd : g.rules.Distinct) :
    g₅.rules.keys = g.rules.keys ++ σ.values := by
  rw [OrderedMap.keys, h.entries_eq hg hd, List.map_append, map_fst_liftedEntries,
    map_fst_standInEntries, OrderedMap.keys]

theorem alternatives_eq (h : StoodIn g σ g₅) (hg : g.Supplied) (hd : g.rules.Distinct)
    (hs : s ∈ g.rules) : g₅.alternatives s = (g.alternatives s).map (g.lifted σ) := by
  obtain ⟨rhss, hget⟩ := OrderedMap.mem_iff_get?.mp hs
  have hentry : (s, rhss.map (g.lifted σ)) ∈ g₅.rules.entries := by
    rw [h.entries_eq hg hd]
    exact List.mem_append_left _ (List.mem_map_of_mem (OrderedMap.mem_entries_iff.mpr hget))
  have hold : g.alternatives s = rhss := RuleTable.alternatives_of_get? hget
  rw [hold]
  exact RuleTable.alternatives_of_mem_entries hentry

theorem alternatives_standIn (h : StoodIn g σ g₅) (hg : g.Supplied) (hd : g.rules.Distinct)
    (hget : σ.get? t = some u) : g₅.alternatives u = [[t]] := by
  have hentry : (u, [[t]]) ∈ g₅.rules.entries := by
    rw [h.entries_eq hg hd]
    exact List.mem_append_right _ (List.mem_map_of_mem (OrderedMap.mem_entries_iff.mpr hget))
  exact RuleTable.alternatives_of_mem_entries hentry

/-- A stand-in leads to its terminal at once. -/
theorem unfolds (h : StoodIn g σ g₅) (hg : g.Supplied) (hd : g.rules.Distinct) :
    RuleTable.Unfolds g₅.rules σ.values h.reading fun _ => 0 where
  self _ hs := h.reading_of_not_mem hs
  rule u hu := by
    obtain ⟨t, hget⟩ := OrderedMap.mem_values_iff.mp hu
    have ht := h.not_mem_values_of_mem hg (OrderedMap.mem_iff_get?.mpr ⟨u, hget⟩)
    refine ⟨[t], h.alternatives_standIn hg hd hget, ?_, fun t' ht' hletter => ?_⟩
    · rw [List.flatMap_singleton, h.reading_of_not_mem ht, h.reading_of_get? hget]
    · rw [List.mem_singleton.mp ht'] at hletter
      exact absurd hletter ht
  rank_lt _ hu := List.length_pos_of_mem hu

theorem inlined_eq (h : StoodIn g σ g₅) (hg : g.Supplied) (hd : g.rules.Distinct) :
    g₅.rules.inlined σ.values = g.rules :=
  (h.unfolds hg hd).inlined_eq (h.entries_eq hg hd) (h.readsAs hg) (map_fst_standInEntries σ)
    fun _ hu => h.not_mem_rules hg hu

end StoodIn

/-- In whatever history of stages, lifting assigns a letter to each terminal of a pair, and adds an
entry for each of these letters after those of the old left sides, which keep their alternatives but
for the terminals of the pairs.  With the terminals in the places of their letters the old table comes
back. -/
theorem unlifted_liftTerminals (start : Symbol) (ps : List Production) {actions : List Action}
    (hactions : ∀ a ∈ actions, a.IsInternal) :
    let g := (Progress.runActions { grammar := ofProductions start ps } actions).grammar
    ∀ g₅, g.liftTerminals.outcome = .ok g₅ →
      ∃ σ : StandIns, (∀ t, t ∈ σ ↔ t ∉ g.vocabulary ∧ g.UsesInPair t) ∧
        (σ.values.Nodup ∧ g.pool.letters = σ.values ++ g₅.pool.letters) ∧
        g₅.rules.keys = g.rules.keys ++ σ.values ∧
        (∀ s ∈ g.rules, g₅.alternatives s = (g.alternatives s).map (g.lifted σ)) ∧
        (∀ t u, σ.get? t = some u → g₅.alternatives u = [[t]]) ∧
        (g₅.rules.inlined σ.values = g.rules ∧ ∀ u ∈ σ.values, ¬g.Uses u) ∧
        g₅.IsLifted ∧ ∀ s ∈ g.vocabulary, ∀ w, g₅.Generates s w ↔ g.Generates s w := by
  intro g g₅ h
  have hsound := (Sound.of_ofProductions start ps).run hactions
  have hg : g.Supplied := hsound.supplied
  have hd : g.rules.Distinct := hsound.tidy.distinct
  obtain ⟨σ, hstood⟩ := stoodIn_of_liftTerminals hg h
  exact ⟨σ, fun t => hstood.mem_iff, ⟨hstood.nodup_values, hstood.pool⟩, hstood.keys_eq hg hd,
    fun s hs => hstood.alternatives_eq hg hd hs,
    fun t u hget => hstood.alternatives_standIn hg hd hget,
    ⟨hstood.inlined_eq hg hd, fun u hu => hstood.not_uses_of_mem_values hg hu⟩,
    hstood.isLifted,
    fun s hs w => hstood.generates_iff hg (hg.not_mem_pool_of_mem_vocabulary hs)⟩

/-! Terminals stand on both sides of pairs, alone, and in a pair that a link brought about; the start
symbol is completed by a closure that is out of date. -/

def doubledProductions : List Production :=
  [(⟨'S'⟩, [⟨'T'⟩]), (⟨'T'⟩, [⟨'a'⟩, ⟨'a'⟩]), (⟨'T'⟩, [⟨'a'⟩, ⟨'T'⟩, ⟨'b'⟩]), (⟨'T'⟩, [⟨'a'⟩])]

def doubledActions : List Action :=
  [.move .computeClosure, .move .binarize, .move .eliminateUnits,
    .move (.completeStart 0 .everyMember)]

theorem unlifted_liftTerminals_doubled :
    let g := (Progress.runActions { grammar := ofProductions ⟨'S'⟩ doubledProductions }
      doubledActions).grammar
    (∀ a ∈ doubledActions, a.IsInternal) ∧ ∃ g₅, g.liftTerminals.outcome = .ok g₅ ∧
      g₅.rules.keys = [⟨'S'⟩, ⟨'T'⟩, ⟨'A'⟩, ⟨'B'⟩, ⟨'C'⟩] ∧
      g₅.rules.inlined [⟨'B'⟩, ⟨'C'⟩] = g.rules ∧ g₅.IsLifted := by
  intro g
  have hactions : ∀ a ∈ doubledActions, a.IsInternal := by decide
  obtain ⟨g₅, h⟩ := exists_of_toOption_isSome (x := g.liftTerminals.outcome) (by decide +kernel)
  have hlook := eq_of_map_toOption h (fun g => g.rules.keys)
    (b := [⟨'S'⟩, ⟨'T'⟩, ⟨'A'⟩, ⟨'B'⟩, ⟨'C'⟩]) (by decide +kernel)
  have hold : g.rules.keys = [⟨'S'⟩, ⟨'T'⟩, ⟨'A'⟩] := by decide +kernel
  obtain ⟨σ, _, _, hkeys, _, _, ⟨hback, _⟩, hlifted, _⟩ :=
    unlifted_liftTerminals ⟨'S'⟩ doubledProductions hactions g₅ h
  have hvalues : σ.values = [⟨'B'⟩, ⟨'C'⟩] := by
    have hsame := hlook.symm.trans hkeys
    rw [hold] at hsame
    exact (List.cons.inj (List.cons.inj (List.cons.inj hsame).2).2).2.symm
  rw [hvalues] at hback
  exact ⟨hactions, g₅, h, hlook, hback, hlifted⟩

end Grammar

end ChomskyForm
