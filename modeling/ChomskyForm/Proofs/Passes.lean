import ChomskyForm.Proofs.Analysis.Grounded
import ChomskyForm.Proofs.Analysis.Reachable
import ChomskyForm.Proofs.Analysis.UnitClosure
import ChomskyForm.Proofs.Stages.DeadRounds

/-!
# How many passes the loops make

The symbols that derive a word are found by sweeps over the table, each of which but the last finds a
left side; so are the dead ones, in rounds.  The sweeps of the unit closure let all sets grow at the
same time, and each set by one step of the chains: although there may be many more members to find than
nonterminals, each set is complete after as many sweeps as there are nonterminals, and so are all of
them.
-/

namespace ChomskyForm

open Loop

namespace RuleTable

/-! ### Sweeps over the table -/

/-- One sweep over the table; it was the last if the set has not grown. -/
def groundedPass (base : Symbol → Bool) (rules : RuleTable) (found : OrderedSet Symbol) :
    ForInStep (OrderedSet Symbol) :=
  let next := groundedSweep base rules found
  if next.size = found.size then .done next else .yield next

theorem sweeping_groundedPass (base : Symbol → Bool) (rules : RuleTable) :
    Sweeping (groundedPass base rules) (fun found => found) (groundedSweep base rules) where
  still found h := by
    simp only [groundedPass, h, ↓reduceIte]
  moving found h := by
    have hgrown : (groundedSweep base rules found).size ≠ found.size := fun hsize =>
      h (OrderedSet.eq_of_prefix_of_size_le (toList_prefix_groundedSweep found)
        (Nat.le_of_eq hsize))
    simp only [groundedPass, hgrown, ↓reduceIte]

theorem endsWithin_groundedPass (base : Symbol → Bool) (rules : RuleTable) :
    EndsWithin (groundedPass base rules) (rules.size + 1) ∅ (rules.grounded base) :=
  (sweeping_groundedPass base rules).endsWithin
    (iterate_fixed toList_prefix_groundedSweep size_iterate_groundedSweep_le)

/-! ### The walk from the start symbol -/

/-- The walk visits the start symbol and left sides. -/
theorem exists_ends_visit_successors (rules : RuleTable) (start : Symbol) :
    ∃ visits ≤ rules.size + 1, Ends (visit rules.successors) (visits + 1)
      (0, OrderedSet.singleton start) (visits, rules.reachable start) := by
  have hstart : ∀ s ∈ OrderedSet.singleton start, s ∈ start :: rules.keys := by
    intro s hs
    rw [List.mem_singleton.mp hs]
    exact List.mem_cons_self ..
  have hstay : ∀ s, ∀ t ∈ rules.successors s, t ∈ start :: rules.keys := by
    intro s t ht
    exact List.mem_cons_of_mem _ (mem_successors.mp ht).2
  have hlength : (start :: rules.keys).length ≤ rules.size + 1 + 0 :=
    Nat.succ_le_succ (Nat.le_of_eq (OrderedMap.length_keys rules))
  obtain ⟨visits, hvisits, hends⟩ := exists_ends_visit (start :: rules.keys) hstay hstart hlength
  rw [Nat.zero_add] at hends
  exact ⟨visits, hvisits, hends⟩

end RuleTable

namespace Grammar

variable {g : Grammar}

/-! ### The unit closure -/

/-- Whether a sweep adds anything to a set. -/
def grows (g : Grammar) (reached : OrderedSet Symbol) : Bool :=
  (reached.toList.flatMap g.unitTargets).any (· ∉ reached)

/-- One sweep over all sets; it was the last if none of them has grown. -/
def closurePass (g : Grammar) (D : UnitClosure) : ForInStep UnitClosure :=
  let next := D.mapValues fun _ reached => g.unitSweep reached
  if D.values.any g.grows then .yield next else .done next

theorem unitSweep_eq_self_iff {reached : OrderedSet Symbol} :
    g.unitSweep reached = reached ↔ g.grows reached = false := by
  rw [unitSweep, OrderedSet.insertAll_eq_self_iff, grows, List.any_eq_false]
  simp only [decide_eq_true_eq, not_not]

theorem mapValues_unitSweep_eq_self_iff {D : UnitClosure} :
    (D.mapValues fun _ reached => g.unitSweep reached) = D ↔ D.values.any g.grows = false := by
  rw [List.any_eq_false, OrderedMap.values, List.forall_mem_map]
  simp only [Bool.not_eq_true, ← unitSweep_eq_self_iff]
  constructor
  · intro h e he
    have hentries := congrArg OrderedMap.entries h
    have hsame := List.map_inj_left.mp (hentries.trans (List.map_id _).symm) e he
    exact congrArg Prod.snd hsame
  · exact fun h => OrderedMap.mapValues_eq_self h

theorem sweeping_closurePass (g : Grammar) :
    Sweeping g.closurePass (fun D => D)
      (fun D => D.mapValues fun _ reached => g.unitSweep reached) where
  still D h := by
    simp only [closurePass, h, mapValues_unitSweep_eq_self_iff.mp h, Bool.false_eq_true, ↓reduceIte]
  moving D h := by
    have hgrows : D.values.any g.grows = true := by
      by_contra hstill
      exact h (mapValues_unitSweep_eq_self_iff.mpr (Bool.eq_false_iff.mpr hstill))
    simp only [closurePass, hgrows, ↓reduceIte]

/-- Each set is complete after as many sweeps as there are nonterminals, and so they all are. -/
theorem endsWithin_closurePass (g : Grammar) :
    EndsWithin g.closurePass (g.vocabulary.size + 1)
      (OrderedMap.ofKeys g.vocabulary OrderedSet.singleton) g.unitClosure := by
  refine (sweeping_closurePass g).endsWithin ?_
  rw [iterate_mapValues_ofKeys]
  refine OrderedMap.mapValues_eq_self fun e he => ?_
  obtain ⟨s, hs, rfl⟩ := List.mem_map.mp he
  exact iterate_fixed toList_prefix_unitSweep (size_iterate_unitSweep_le hs)

/-! ### All loops -/

/-- The loops that look for a fixed point come to an end, after no more passes than there are left sides
or nonterminals and one more, and under any limit that allows these passes they have the same result. -/
theorem loops_end (g : Grammar) :
    EndsWithin (g.rules.groundedPass (· = Symbol.marker)) (g.rules.size + 1) ∅ g.rules.nullable ∧
    EndsWithin (g.rules.groundedPass fun s => !g.isNonterminal s) (g.rules.size + 1) ∅
      g.productive ∧
    EndsWithin dropRound (g.rules.size + 1) (g, ∅) (g.dropDead, g.rules.dead) ∧
    EndsWithin g.closurePass (g.vocabulary.size + 1)
      (OrderedMap.ofKeys g.vocabulary OrderedSet.singleton) g.unitClosure ∧
    ∃ visits ≤ g.rules.size + 1,
      Ends (visit g.rules.successors) (visits + 1) (0, OrderedSet.singleton g.start)
        (visits, g.rules.reachable g.start) ∧
      ∀ limit, g.rules.size + 1 ≤ limit →
        limited (visit g.rules.successors) limit (0, OrderedSet.singleton g.start) =
          (visits, g.rules.reachable g.start) := by
  refine ⟨g.rules.endsWithin_groundedPass _, g.rules.endsWithin_groundedPass _,
    endsWithin_dropRound g, endsWithin_closurePass g, ?_⟩
  obtain ⟨visits, hvisits, hends⟩ := g.rules.exists_ends_visit_successors g.start
  refine ⟨visits, hvisits, hends, fun limit hlimit => ?_⟩
  exact hends.limited_eq_of_keeps (fun _ _ => eq_of_visit_eq_done)
    (Nat.succ_le_succ (Nat.le_trans hvisits hlimit))

/-- The left sides stand in the worst order: each sweep finds no more than one of them.  `C` has no
alternatives, and `D` dies of it. -/
def backwards : Grammar where
  start := ⟨'S'⟩
  rules := ⟨[(⟨'S'⟩, [[⟨'A'⟩], [⟨'D'⟩, ⟨'x'⟩]]), (⟨'A'⟩, [[⟨'B'⟩], [⟨'C'⟩]]), (⟨'B'⟩, [[⟨'e'⟩]]),
    (⟨'D'⟩, [[⟨'C'⟩]]), (⟨'C'⟩, [])], by decide⟩
  vocabulary := ⟨[⟨'S'⟩, ⟨'A'⟩, ⟨'B'⟩, ⟨'D'⟩, ⟨'C'⟩], by decide⟩
  pool := LetterPool.excluding []

theorem loops_end_backwards :
    limited (backwards.rules.groundedPass (· = Symbol.marker)) 6 ∅ = backwards.rules.nullable ∧
    backwards.rules.nullable.toList = [⟨'B'⟩, ⟨'A'⟩, ⟨'S'⟩] ∧
    (limited (backwards.rules.groundedPass (· = Symbol.marker)) 2 ∅).toList = [⟨'B'⟩, ⟨'A'⟩] ∧
    limited backwards.closurePass 6 (OrderedMap.ofKeys backwards.vocabulary OrderedSet.singleton) =
      backwards.unitClosure ∧
    (backwards.unitClosure.get? ⟨'S'⟩).map OrderedSet.toList =
      some [⟨'S'⟩, ⟨'A'⟩, ⟨'B'⟩, ⟨'C'⟩] ∧
    limited dropRound 6 (backwards, ∅) = (backwards.dropDead, backwards.rules.dead) ∧
    (limited dropRound 1 (backwards, ∅)).2.toList = [⟨'C'⟩] ∧
    backwards.rules.dead.toList = [⟨'C'⟩, ⟨'D'⟩] ∧
    backwards.dropDead.productions =
      [(⟨'S'⟩, [⟨'A'⟩]), (⟨'A'⟩, [⟨'B'⟩]), (⟨'B'⟩, [⟨'e'⟩])] ∧
    ∃ visits ≤ 6, limited (visit backwards.rules.successors) 6 (0, OrderedSet.singleton ⟨'S'⟩) =
        (visits, backwards.rules.reachable ⟨'S'⟩) ∧
      (backwards.rules.reachable ⟨'S'⟩).toList = [⟨'S'⟩, ⟨'A'⟩, ⟨'D'⟩, ⟨'B'⟩, ⟨'C'⟩] := by
  have hrules : backwards.rules.size + 1 ≤ 6 := by decide +kernel
  have hvocabulary : backwards.vocabulary.size + 1 ≤ 6 := by decide +kernel
  obtain ⟨hnullable, _, hrounds, hclosure, visits, hvisits, _, hwalk⟩ := loops_end backwards
  exact ⟨hnullable.cutOff 6 hrules, by decide +kernel, by decide +kernel,
    hclosure.cutOff 6 hvocabulary, by decide +kernel, hrounds.cutOff 6 hrules, by decide +kernel,
    by decide +kernel, by decide +kernel, visits, Nat.le_trans hvisits hrules, hwalk 6 hrules,
    by decide +kernel⟩

end Grammar

end ChomskyForm
