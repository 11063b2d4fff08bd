import ChomskyForm.Proofs.Rebuild
import ChomskyForm.Proofs.Stages.Binary
import ChomskyForm.Proofs.Stages.EmptyFree
import ChomskyForm.Proofs.Stages.Lifted
import ChomskyForm.Proofs.Stages.StartRules
import ChomskyForm.Proofs.Stages.UnitFree
import ChomskyForm.Proofs.Stages.Useful

/-!
# Grammars that a stage leaves as they are

A stage that finds nothing to do returns the very grammar it was given, with all keys, alternatives and
nonterminals in their order.  Two of the stages build the table anew even then
(`Noted.rebuild_eq_ok`).
-/

namespace ChomskyForm

/-! ### Operations without effect -/

theorem OrderedSet.filter_eq_self {α : Type} {s : OrderedSet α} {p : α → Bool}
    (h : ∀ a ∈ s, p a = true) : s.filter p = s := OrderedSet.ext (List.filter_eq_self.mpr h)

theorem not_mem_or_eq {α : Type} [DecidableEq α] {s : OrderedSet α} {a : α} (h : ∀ b ∈ s, b = a)
    (b : α) : b ∉ s ∨ b = a := by
  by_cases hb : b ∈ s
  · exact Or.inr (h b hb)
  · exact Or.inl hb

namespace OrderedMap

variable {κ ν : Type}

theorem filter_eq_self {m : OrderedMap κ ν} {p : κ → ν → Bool}
    (h : ∀ e ∈ m.entries, p e.1 e.2 = true) : m.filter p = m :=
  OrderedMap.ext (List.filter_eq_self.mpr h)

theorem mapValues_eq_self {m : OrderedMap κ ν} {f : κ → ν → ν}
    (h : ∀ e ∈ m.entries, f e.1 e.2 = e.2) : m.mapValues f = m := by
  refine OrderedMap.ext ?_
  have hsame : ∀ e ∈ m.entries, (e.1, f e.1 e.2) = e := fun e he => Prod.ext rfl (h e he)
  exact (List.map_congr_left hsame).trans (List.map_id _)

theorem insert_eq_self [DecidableEq κ] {m : OrderedMap κ ν} {k : κ} {v : ν}
    (h : m.get? k = some v) : m.insert k v = m := by
  have key : ∀ es : List (κ × ν), es.lookup k = some v → insertEntry k v es = es := by
    intro es
    induction es with
    | nil =>
      intro hes
      cases hes
    | cons e es ih =>
      obtain ⟨k₀, v₀⟩ := e
      intro hes
      by_cases hk : k₀ = k
      · subst hk
        rw [List.lookup_cons, BEq.rfl] at hes
        cases hes
        exact if_pos rfl
      · have hbeq : (k == k₀) = false := beq_eq_false_iff_ne.mpr fun h => hk h.symm
        rw [List.lookup_cons, hbeq] at hes
        rw [insertEntry, if_neg hk, ih hes]
  exact OrderedMap.ext (key m.entries h)

end OrderedMap

namespace RuleTable

variable {rules : RuleTable}

theorem filterAlternatives_eq_self {p : RightSide → Bool}
    (h : ∀ s, ∀ rhs ∈ rules.alternatives s, p rhs = true) : rules.filterAlternatives p = rules := by
  refine OrderedMap.mapValues_eq_self fun e he => List.filter_eq_self.mpr ?_
  rw [← alternatives_of_mem_entries he]
  exact h e.1

theorem filterAlternatives_mentions_eq_self {symbols : OrderedSet Symbol}
    (h : ∀ s, ∀ rhs ∈ rules.alternatives s, ∀ t ∈ rhs, t ∉ symbols) :
    (rules.filterAlternatives fun rhs => !rhs.mentions symbols.toList) = rules :=
  filterAlternatives_eq_self fun s rhs hrhs => RightSide.not_mentions_iff.mpr (h s rhs hrhs)

theorem filterKeys_eq_self {p : Symbol → Bool} (h : ∀ s ∈ rules, p s = true) :
    rules.filterKeys p = rules :=
  OrderedMap.filter_eq_self fun e he => h e.1 (List.mem_map_of_mem he)

theorem filterKeys_not_mem_eq_self {symbols : OrderedSet Symbol} {start : Symbol}
    (h : ∀ s ∈ symbols, s = start) :
    (rules.filterKeys fun s => s ∉ symbols ∨ s = start) = rules :=
  filterKeys_eq_self fun s _ => decide_eq_true (not_mem_or_eq h s)

theorem get?_of_mem {s : Symbol} (h : s ∈ rules) : rules.get? s = some (rules.alternatives s) := by
  obtain ⟨rhss, hget⟩ := OrderedMap.mem_iff_get?.mp h
  rw [hget, alternatives_of_get? hget]

theorem withKey_eq_self {s : Symbol} (h : s ∈ rules) : rules.withKey s = rules :=
  OrderedMap.insert_eq_self (get?_of_mem h)

theorem add_eq_self {lhs : Symbol} {rhs : RightSide} (h : rhs ∈ rules.alternatives lhs) :
    rules.add lhs rhs = rules := by
  rw [add, if_pos (has_eq_true_iff.mpr h)]
  exact OrderedMap.insert_eq_self (get?_of_mem (mem_of_mem_alternatives h))

/-- Only a left side without alternatives can be the first to be dead. -/
theorem dead_eq_empty (h : ∀ s ∈ rules, rules.alternatives s ≠ []) : rules.dead = ∅ := by
  refine saturate_of_fixed (OrderedSet.ext (List.eq_nil_iff_forall_not_mem.mpr fun s hs => ?_)) _
  rcases mem_deadRound.mp hs with hs | ⟨rhss, he, hall⟩
  · exact absurd hs List.not_mem_nil
  · have hrhss : rules.alternatives s = rhss := alternatives_of_mem_entries he
    obtain ⟨rhs, hrhs⟩ := List.exists_mem_of_ne_nil _ (h s (List.mem_map_of_mem (f := Prod.fst) he))
    rw [hrhss] at hrhs
    obtain ⟨t, _, ht⟩ := hall rhs hrhs
    exact absurd ht List.not_mem_nil

end RuleTable

/-! ### Building a table anew -/

namespace Grammar

theorem vocabulary_addEntry {g : Grammar} {e : Symbol × List RightSide} (he : e.1 ∈ g.vocabulary) :
    (g.addEntry e).vocabulary = g.vocabulary := by
  rw [addEntry, foldl_add_of_mem (g := { g with rules := g.rules.withKey e.1 }) he]

/-- A stage that copies all alternatives as they are gives the grammar that it was given. -/
theorem rebuild_eq_ok {ε σ : Type} {g : Grammar} {a : σ}
    (copy : Symbol → Grammar × σ → RightSide → Noted ε (Grammar × σ))
    (hkeys : ∀ s ∈ g.rules, s ∈ g.vocabulary) (hdistinct : g.rules.Distinct)
    (hcopy : ∀ (cur : Grammar) lhs, ∀ rhs ∈ g.alternatives lhs, cur.vocabulary = g.vocabulary →
      (copy lhs (cur, a) rhs).outcome = .ok (cur.add lhs rhs, a)) :
    (g.rules.entries.foldlM (fun (state : Grammar × σ) (e : Symbol × List RightSide) =>
      e.2.foldlM (copy e.1) ({ state.1 with rules := state.1.rules.withKey e.1 }, state.2))
        ({ g with rules := ∅ }, a)).outcome = .ok (g, a) := by
  have hentry : ∀ e ∈ g.rules.entries, ∀ cur : Grammar, cur.vocabulary = g.vocabulary →
      (e.2.foldlM (copy e.1) (cur, a)).outcome =
        .ok (e.2.foldl (fun cur rhs => cur.add e.1 rhs) cur, a) := by
    intro e he cur hcur
    rw [Noted.outcome_foldlM]
    refine foldlM_eq_ok (fun cur => (cur, a)) (P := fun cur => cur.vocabulary = g.vocabulary) ?_ hcur
    intro cur rhs hrhs hcur
    rw [← RuleTable.alternatives_of_mem_entries he] at hrhs
    have hlhs : e.1 ∈ cur.vocabulary := by
      rw [hcur]
      exact hkeys e.1 (List.mem_map_of_mem he)
    refine ⟨hcopy cur e.1 rhs hrhs hcur, ?_⟩
    rw [add_of_mem hlhs]
    exact hcur
  rw [Noted.outcome_foldlM]
  refine (foldlM_eq_ok (fun cur => (cur, a)) (g := addEntry) (a := { g with rules := ∅ })
    (P := fun cur => cur.vocabulary = g.vocabulary) ?_ rfl).trans ?_
  · intro cur e he hcur
    have hlhs : e.1 ∈ cur.vocabulary := by
      rw [hcur]
      exact hkeys e.1 (List.mem_map_of_mem he)
    exact ⟨hentry e he _ hcur, (vocabulary_addEntry hlhs).trans hcur⟩
  · rw [foldl_addEntry_eq hkeys hdistinct]

/-! ### The stages -/

variable {g : Grammar}

/-- Without long right sides no letter is drawn, and no link waits. -/
theorem binarize_eq_self (hkeys : ∀ s ∈ g.rules, s ∈ g.vocabulary) (hdistinct : g.rules.Distinct)
    (hshort : ∀ s, ∀ rhs ∈ g.alternatives s, rhs.length ≤ 2) : g.binarize.outcome = .ok g := by
  let copy (lhs : Symbol) (state : Grammar × List Production) (rhs : RightSide) :
      Noted ConversionError (Grammar × List Production) := do
    let next ← state.1.addCut lhs rhs
    pure (next.1, state.2 ++ next.2)
  have hcopy : ∀ (cur : Grammar) lhs, ∀ rhs ∈ g.alternatives lhs, cur.vocabulary = g.vocabulary →
      (copy lhs (cur, []) rhs).outcome = .ok (cur.add lhs rhs, []) := by
    intro cur lhs rhs hrhs _
    show (cur.addCut lhs rhs >>= _).outcome = _
    rw [addCut_of_length_le (hshort lhs rhs hrhs)]
    rfl
  have hfold := rebuild_eq_ok copy hkeys hdistinct hcopy
  exact Noted.outcome_bind_eq_ok_iff.mpr ⟨_, hfold, rfl⟩

theorem compensated_eq_self (hnonempty : ∀ s, ∀ rhs ∈ g.alternatives s, rhs ≠ [])
    (hfree : g.IsEmptyFree) : g.compensated = g := by
  rw [isEmptyFree_iff] at hfree
  have hdrop : g.dropMarkers = g := by
    have hrules : g.rules.filterAlternatives (fun rhs => !RightSide.isMarker rhs) = g.rules := by
      refine RuleTable.filterAlternatives_eq_self fun s rhs hrhs => ?_
      simp only [RightSide.isMarker, Bool.not_eq_true', decide_eq_false_iff_not]
      intro heq
      exact hfree s rhs hrhs (by rw [heq]; exact List.mem_singleton.mpr rfl)
    rw [dropMarkers, hrules]
  have hnullable : g.rules.nullable = ∅ :=
    nullable_eq_empty fun s rhs hrhs => ⟨hnonempty s rhs hrhs, hfree s rhs hrhs⟩
  have hbypasses : g.dropMarkers.rules.bypasses g.rules.nullable = [] := by
    refine List.eq_nil_iff_forall_not_mem.mpr fun p hp => ?_
    obtain ⟨lhs, rhs⟩ := p
    cases mem_bypasses_iff.mp hp with
    | left _ hside _ =>
      rw [hnullable] at hside
      exact List.not_mem_nil hside
    | right _ hside _ _ =>
      rw [hnullable] at hside
      exact List.not_mem_nil hside
  rw [compensated, hbypasses, hdrop]
  rfl

/-- Nothing is dropped with the given symbols if only the start symbol is among them and no right side
mentions it. -/
theorem dropSymbols_eq_self {dead : OrderedSet Symbol} (hstart : ∀ s ∈ dead, s = g.start)
    (hfree : ∀ s, ∀ rhs ∈ g.alternatives s, ∀ t ∈ rhs, t ∉ dead) : g.dropSymbols dead = g := by
  have hvocabulary : (g.vocabulary.filter fun s => s ∉ dead ∨ s = g.start) = g.vocabulary :=
    OrderedSet.filter_eq_self fun s _ => decide_eq_true (not_mem_or_eq hstart s)
  rw [dropSymbols, RuleTable.filterKeys_not_mem_eq_self hstart,
    RuleTable.filterAlternatives_mentions_eq_self hfree, hvocabulary]

/-- Each left side has an alternative, or the start symbol is the only left side and has none. -/
def IsFull (g : Grammar) : Prop :=
  (∀ s ∈ g.rules, s ≠ g.start → g.alternatives s ≠ []) ∧
    (g.alternatives g.start ≠ [] ∨ ∀ s, g.alternatives s = [])

theorem dropDead_eq_self (hfull : g.IsFull) : g.dropDead = g := by
  rcases hfull.2 with hstart | hnone
  · have hdead : g.rules.dead = ∅ := by
      refine RuleTable.dead_eq_empty fun s hs => ?_
      by_cases hne : s = g.start
      · rw [hne]
        exact hstart
      · exact hfull.1 s hs hne
    refine dropSymbols_eq_self ?_ ?_
    · intro s hs
      rw [hdead] at hs
      exact absurd hs List.not_mem_nil
    · intro s rhs _ t _ ht
      rw [hdead] at ht
      exact absurd ht List.not_mem_nil
  · refine dropSymbols_eq_self ?_ ?_
    · intro s hs
      by_contra hne
      exact hfull.1 s (RuleTable.blocked_of_mem_dead hs).1 hne (hnone s)
    · intro s rhs hrhs
      rw [hnone s] at hrhs
      exact absurd hrhs List.not_mem_nil

theorem dropEmpty_eq_self (hnonempty : ∀ s, ∀ rhs ∈ g.alternatives s, rhs ≠ [])
    (hfree : g.IsEmptyFree) (hfull : g.IsFull) : g.dropEmpty = g := by
  rw [dropEmpty, compensated_eq_self hnonempty hfree, dropDead_eq_self hfull]

/-! Without unit productions each nonterminal reaches only itself. -/

theorem unitReach_eq_singleton (hfree : g.IsUnitFree) (s : Symbol) :
    g.unitReach s = OrderedSet.singleton s := by
  have htargets : ∀ t, g.unitTargets t = [] := by
    intro t
    refine List.eq_nil_iff_forall_not_mem.mpr fun u hu => ?_
    obtain ⟨hrhs, hexp⟩ := mem_unitTargets.mp hu
    exact isUnitFree_iff.mp hfree t [u] hrhs u hexp rfl
  have hsweep : ∀ reached : OrderedSet Symbol, g.unitSweep reached = reached := by
    intro reached
    have hnone : reached.toList.flatMap g.unitTargets = [] :=
      List.flatMap_eq_nil_iff.mpr fun t _ => htargets t
    rw [unitSweep, hnone]
    rfl
  exact Function.iterate_fixed (hsweep _) _

theorem substitutes_eq_self (hfree : g.IsUnitFree) (s : Symbol) :
    g.substitutes g.unitClosure s = .ok [s] := by
  by_cases hs : s ∈ g.vocabulary
  · have hget := get?_unitClosure_eq_some_iff.mpr ⟨hs, rfl⟩
    rw [substitutes, if_pos (isNonterminal_eq_true_iff.mpr hs), hget, unitReach_eq_singleton hfree]
    rfl
  · rw [substitutes, if_neg fun hk => hs (isNonterminal_eq_true_iff.mp hk)]

theorem dropUnits_eq_self (hfree : g.IsUnitFree)
    (hfull : ∀ s ∈ g.rules, s ≠ g.start → g.alternatives s ≠ []) : g.dropUnits = g := by
  have hrules : (g.rules.filterAlternatives fun rhs => !g.isUnit rhs) = g.rules := by
    refine RuleTable.filterAlternatives_eq_self fun s rhs hrhs => ?_
    rw [hfree (s, rhs) (mem_productions_iff.mpr hrhs)]
    rfl
  have hkeys : (OrderedMap.filter g.rules fun lhs rhss => !rhss.isEmpty || lhs = g.start) =
      g.rules := by
    refine OrderedMap.filter_eq_self fun e he => ?_
    rw [Bool.or_eq_true, Bool.not_eq_true', List.isEmpty_eq_false_iff, decide_eq_true_eq,
      ← RuleTable.alternatives_of_mem_entries he]
    by_cases hs : e.1 = g.start
    · exact Or.inr hs
    · exact Or.inl (hfull e.1 (List.mem_map_of_mem he) hs)
  rw [dropUnits, hrules, hkeys]

/-- A pair is its only instance. -/
theorem eliminateUnits_eq_self (hkeys : ∀ s ∈ g.rules, s ∈ g.vocabulary) (hfree : g.IsUnitFree)
    (hfull : ∀ s ∈ g.rules, s ≠ g.start → g.alternatives s ≠ []) :
    g.eliminateUnits g.unitClosure = .ok g := by
  have hstep : ∀ p ∈ g.productions, addInstances g.unitClosure g p = .ok g := by
    intro p hp
    obtain ⟨lhs, rhs⟩ := p
    match rhs with
    | [] | [_] | _ :: _ :: _ :: _ => rfl
    | [left, right] =>
      have hrhs := mem_productions_iff.mp hp
      have hadd : g.add lhs [left, right] = g := by
        rw [add_of_mem (hkeys lhs (mem_of_mem_alternatives hrhs)), RuleTable.add_eq_self hrhs]
      rw [addInstances, substitutes_eq_self hfree, substitutes_eq_self hfree]
      exact congrArg Except.ok hadd
  rw [eliminateUnits, dropUnits_eq_self hfree hfull]
  refine (foldlM_eq_ok id (g := fun cur _ => cur) (P := fun cur => cur = g) ?_ rfl).trans ?_
  · intro cur p hp hcur
    rw [hcur]
    exact ⟨hstep p hp, rfl⟩
  · rw [List.foldl_fixed]
    rfl

/-- The start symbol is the only member of its closure, so that there is nothing to copy. -/
theorem completeStart_eq_self (hstart : g.start ∈ g.rules) (hexp : g.start ∈ g.vocabulary)
    (hfree : g.IsUnitFree) (mode : ClosureCopy) :
    (g.completeStart g.unitClosure mode).outcome = .ok g := by
  have hget := get?_unitClosure_eq_some_iff.mpr ⟨hexp, rfl⟩
  have hmembers : ((OrderedSet.singleton g.start).erase g.start).toList = [] := by
    simp only [OrderedSet.erase, OrderedSet.toList_filter, OrderedSet.toList_singleton,
      List.filter_cons, ne_eq, not_true_eq_false, decide_false, Bool.false_eq_true, ↓reduceIte,
      List.filter_nil]
  rw [completeStart, hget, unitReach_eq_singleton hfree]
  simp only [hmembers, RuleTable.withKey_eq_self hstart]
  rfl

theorem lift_eq_self {cur : Grammar} {lhs s : Symbol} (hs : s ∈ cur.vocabulary) :
    (lift lhs s (cur, ∅)).outcome = .ok (s, cur, ∅) := by
  have hkind : cur.isNonterminal s = true := isNonterminal_eq_true_iff.mpr hs
  simp only [lift, hkind, ↓reduceIte]
  rfl

theorem addLifted_eq_self {cur : Grammar} {lhs : Symbol} {rhs : RightSide}
    (hlifted : rhs.length = 2 → ∀ s ∈ rhs, s ∈ cur.vocabulary) :
    (addLifted lhs (cur, ∅) rhs).outcome = .ok (cur.add lhs rhs, ∅) := by
  match rhs with
  | [] | [_] | _ :: _ :: _ :: _ => rfl
  | [left, right] =>
    have hleft := hlifted rfl left (List.mem_cons_self ..)
    have hright := hlifted rfl right (List.mem_cons_of_mem _ (List.mem_cons_self ..))
    refine Noted.outcome_bind_eq_ok_iff.mpr ⟨_, lift_eq_self hleft, ?_⟩
    exact Noted.outcome_bind_eq_ok_iff.mpr ⟨_, lift_eq_self hright, rfl⟩

/-- No terminal is left to stand in for. -/
theorem liftTerminals_eq_self (hkeys : ∀ s ∈ g.rules, s ∈ g.vocabulary)
    (hdistinct : g.rules.Distinct) (hlifted : g.IsLifted) : g.liftTerminals.outcome = .ok g := by
  have hfold := rebuild_eq_ok (fun lhs state rhs => addLifted lhs state rhs) hkeys hdistinct
    fun cur lhs rhs hrhs hcur => addLifted_eq_self (by
      rw [hcur]
      exact isLifted_iff.mp hlifted lhs rhs hrhs)
  exact Noted.outcome_bind_eq_ok_iff.mpr ⟨_, hfold, rfl⟩

/-! ### Pruning twice -/

/-- A productive symbol within reach keeps an alternative by which it is productive. -/
theorem mem_productive_prune {s : Symbol} (hs : s ∈ g.productive)
    (hreach : s ∈ g.dropUnproductive.rules.reachable g.start) : s ∈ g.prune.productive := by
  refine RuleTable.mem_grounded_iff.mpr ?_
  have hground := RuleTable.mem_grounded_iff.mp hs
  clear hs
  induction hground with
  | @intro s rhs choice rest ih =>
    have hproductive : ∀ t ∈ rhs, t ∈ g.vocabulary → t ∈ g.productive := by
      intro t ht hexp
      exact RuleTable.mem_grounded_iff.mpr (rest t ht (not_base_iff.mpr hexp))
    have hkept : rhs ∈ g.dropUnproductive.alternatives s := by
      refine mem_alternatives_dropUnproductive.mpr ⟨choice, ?_, ?_⟩
      · intro t ht hun
        obtain ⟨hexp, hnot⟩ := mem_unproductive_iff.mp hun
        exact hnot (hproductive t ht hexp)
      · left
        intro hun
        exact (mem_unproductive_iff.mp hun).2 (RuleTable.mem_grounded_iff.mpr (.intro choice rest))
    refine .intro (mem_alternatives_dropUnreachable.mpr ⟨hkept, hreach⟩) fun t ht hexp => ?_
    have hold := (mem_vocabulary_prune.mp (not_base_iff.mp hexp)).1
    have hkey := mem_rules_of_uses_dropUnproductive (uses_of_mem hkept ht) hold
    exact ih t ht (not_base_iff.mpr hold) (RuleTable.mem_reachable_of_mem_rhs hreach hkept ht hkey)

theorem eq_start_of_mem_unproductive_prune {s : Symbol} (hs : s ∈ g.prune.unproductive) :
    s = g.prune.start := by
  obtain ⟨hexp, hnot⟩ := mem_unproductive_iff.mp hs
  obtain ⟨hold, hkey⟩ := mem_vocabulary_prune.mp hexp
  obtain ⟨hkept, hreach⟩ := mem_rules_dropUnreachable.mp hkey
  by_contra hne
  have hfree := (mem_rules_dropUnproductive.mp hkept).2.resolve_right hne
  have hproductive : s ∈ g.productive := by
    by_contra hunproductive
    exact hfree (mem_unproductive_iff.mpr ⟨hold, hunproductive⟩)
  exact hnot (mem_productive_prune hproductive hreach)

theorem not_mem_unproductive_prune {s t : Symbol} {rhs : RightSide}
    (hrhs : rhs ∈ g.prune.alternatives s) (ht : t ∈ rhs) : t ∉ g.prune.unproductive := by
  intro hun
  obtain ⟨hexp, hnot⟩ := mem_unproductive_iff.mp hun
  obtain ⟨hkept, hreach⟩ := mem_alternatives_dropUnreachable.mp hrhs
  have hold := (mem_vocabulary_prune.mp hexp).1
  have hkey := mem_rules_of_uses_dropUnproductive (uses_of_mem hkept ht) hold
  have hproductive : t ∈ g.productive := by
    by_contra hunproductive
    exact (mem_alternatives_dropUnproductive.mp hkept).2.1 t ht
      (mem_unproductive_iff.mpr ⟨hold, hunproductive⟩)
  exact hnot (mem_productive_prune hproductive
    (RuleTable.mem_reachable_of_mem_rhs hreach hkept ht hkey))

/-- What is within reach before the others are dropped is within reach after. -/
theorem mem_reachable_prune {s : Symbol}
    (hs : s ∈ g.dropUnproductive.rules.reachable g.start) :
    s ∈ g.prune.rules.reachable g.prune.start := by
  have hboth : ∀ s ∈ g.dropUnproductive.rules.reachable g.start,
      s ∈ g.dropUnproductive.rules.reachable g.start ∧
        s ∈ g.prune.rules.reachable g.prune.start := by
    refine explore_induction (P := fun seen => ∀ s ∈ seen,
      s ∈ g.dropUnproductive.rules.reachable g.start ∧
        s ∈ g.prune.rules.reachable g.prune.start) ?_ ?_
    · intro seen hseen a ha b hb
      rcases OrderedSet.mem_insertAll.mp hb with hb | hb
      · exact hseen b hb
      · obtain ⟨⟨rhs, hrhs, hmem⟩, hkey⟩ := RuleTable.mem_successors.mp hb
        obtain ⟨hreach, hpruned⟩ := hseen a ha
        have hreach' := RuleTable.mem_reachable_of_mem_rhs hreach hrhs hmem hkey
        exact ⟨hreach', RuleTable.mem_reachable_of_mem_rhs hpruned
          (mem_alternatives_dropUnreachable.mpr ⟨hrhs, hreach⟩) hmem
          (mem_rules_dropUnreachable.mpr ⟨hkey, hreach'⟩)⟩
    · intro s hs
      rw [List.mem_singleton.mp hs]
      exact ⟨RuleTable.start_mem_reachable, RuleTable.start_mem_reachable⟩
  exact (hboth s hs).2

theorem dropUnproductive_eq_self (hstart : ∀ s ∈ g.unproductive, s = g.start)
    (hfree : ∀ s, ∀ rhs ∈ g.alternatives s, ∀ t ∈ rhs, t ∉ g.unproductive) :
    g.dropUnproductive = g := by
  simp only [dropUnproductive, RuleTable.filterAlternatives_mentions_eq_self hfree,
    RuleTable.filterKeys_not_mem_eq_self hstart]

theorem dropUnreachable_eq_self (hreach : ∀ s ∈ g.rules, s ∈ g.rules.reachable g.start)
    (hvocabulary : ∀ s ∈ g.vocabulary, s ∈ g.rules) : g.dropUnreachable = g := by
  have hkeys : (g.rules.filterKeys (· ∈ g.rules.reachable g.start)) = g.rules :=
    RuleTable.filterKeys_eq_self fun s hs => decide_eq_true (hreach s hs)
  have hkept : (g.vocabulary.filter (· ∈ g.rules)) = g.vocabulary :=
    OrderedSet.filter_eq_self fun s hs => decide_eq_true (hvocabulary s hs)
  simp only [dropUnreachable, hkeys, hkept]

theorem prune_prune : g.prune.prune = g.prune := by
  have hproductive : g.prune.dropUnproductive = g.prune := by
    refine dropUnproductive_eq_self ?_ ?_
    · intro s hs
      exact eq_start_of_mem_unproductive_prune hs
    · intro s rhs hrhs t ht
      exact not_mem_unproductive_prune hrhs ht
  have hreachable : g.prune.dropUnreachable = g.prune := by
    refine dropUnreachable_eq_self ?_ ?_
    · intro s hs
      exact mem_reachable_prune (mem_rules_dropUnreachable.mp hs).2
    · intro s hs
      exact (mem_vocabulary_prune.mp hs).2
  rw [prune, hproductive, hreachable]

/-- Where the start symbol has nothing, nothing else is within its reach. -/
theorem isFull_prune (hg : g.Coherent) : g.prune.IsFull := by
  refine ⟨fun s hs hne => alternatives_prune_ne_nil hg hs hne, ?_⟩
  by_cases hstart : g.prune.alternatives g.prune.start = []
  · right
    have hreach : ∀ s ∈ g.prune.rules.reachable g.prune.start, s = g.prune.start := by
      refine explore_induction (P := fun seen => ∀ s ∈ seen, s = g.prune.start) ?_ ?_
      · intro seen hseen a ha b hb
        rcases OrderedSet.mem_insertAll.mp hb with hb | hb
        · exact hseen b hb
        · obtain ⟨⟨rhs, hrhs, _⟩, _⟩ := RuleTable.mem_successors.mp hb
          have hnone : rhs ∈ g.prune.alternatives g.prune.start := hseen a ha ▸ hrhs
          rw [hstart] at hnone
          exact absurd hnone List.not_mem_nil
      · intro s hs
        exact List.mem_singleton.mp hs
    intro s
    refine List.eq_nil_iff_forall_not_mem.mpr fun rhs hrhs => ?_
    have hreached := (mem_alternatives_dropUnreachable.mp hrhs).2
    rw [hreach s (mem_reachable_prune hreached), hstart] at hrhs
    exact List.not_mem_nil hrhs
  · exact Or.inl hstart

end Grammar

end ChomskyForm
