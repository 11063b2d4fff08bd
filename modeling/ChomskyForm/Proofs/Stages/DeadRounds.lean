import ChomskyForm.Proofs.Loop
import ChomskyForm.Proofs.Stages.Unchanged

/-!
# Dead symbols go round by round

The dead symbols can be dropped while they are found: each round takes out the left sides that have no
alternatives left, and with them the productions that mention them.  A grammar that shrinks in this way
is at every time what remains of the first one without the symbols found so far
(`sweeping_dropRound`), so that the rounds end with what is left when all dead symbols are dropped at
once.  The start symbol stays in the table with no alternatives and is not found a second time.
-/

namespace ChomskyForm

namespace RuleTable

theorem keys_filterKeys (rules : RuleTable) (p : Symbol → Bool) :
    (rules.filterKeys p).keys = rules.keys.filter p := (List.filter_map ..).symm

theorem alternatives_filterKeys {rules : RuleTable} {p : Symbol → Bool} {s : Symbol}
    (hs : s ∈ rules.filterKeys p) : (rules.filterKeys p).alternatives s = rules.alternatives s := by
  obtain ⟨rhss, hget⟩ := OrderedMap.mem_iff_get?.mp hs
  have hold := (OrderedMap.get?_filter_eq_some_iff.mp hget).1
  rw [alternatives_of_get? hget, alternatives_of_get? hold]

theorem filterKeys_filterKeys (rules : RuleTable) (p q : Symbol → Bool) :
    (rules.filterKeys p).filterKeys q = rules.filterKeys fun s => q s && p s :=
  OrderedMap.ext (List.filter_filter ..)

theorem filterKeys_filterAlternatives (rules : RuleTable) (p : RightSide → Bool)
    (q : Symbol → Bool) :
    (rules.filterAlternatives p).filterKeys q = (rules.filterKeys q).filterAlternatives p :=
  OrderedMap.ext (List.filter_map ..)

theorem filterAlternatives_filterAlternatives {rules : RuleTable} {p q : RightSide → Bool}
    (h : ∀ rhs, q rhs = true → p rhs = true) :
    (rules.filterAlternatives p).filterAlternatives q = rules.filterAlternatives q := by
  refine OrderedMap.ext ?_
  simp only [filterAlternatives, OrderedMap.mapValues, List.map_map]
  refine List.map_congr_left fun e _ => Prod.ext rfl ?_
  show (e.2.filter p).filter q = e.2.filter q
  rw [List.filter_filter]
  refine List.filter_congr fun rhs _ => ?_
  by_cases hq : q rhs = true
  · rw [hq, h rhs hq, Bool.and_self]
  · rw [Bool.eq_false_iff.mpr hq, Bool.false_and]

end RuleTable

namespace Grammar

variable {g : Grammar}

/-! ### One round -/

/-- Takes a symbol out of the table and the vocabulary, unless it is the start symbol. -/
def dropSymbol (g : Grammar) (s : Symbol) : Grammar :=
  if s = g.start then g
  else { g with rules := g.rules.erase s, vocabulary := g.vocabulary.erase s }

/-- Drops the productions that mention one of the symbols. -/
def dropMentions (g : Grammar) (symbols : OrderedSet Symbol) : Grammar :=
  { g with rules := g.rules.filterAlternatives fun rhs => !rhs.mentions symbols.toList }

/-- The left sides that have no alternatives and were not found before. -/
def newlyDead (g : Grammar) (found : OrderedSet Symbol) : List Symbol :=
  (g.rules.entries.filter fun e => e.2.isEmpty && decide (e.1 ∉ found)).map Prod.fst

/-- One round, on the grammar that the rounds before have left and the symbols that they have found. -/
def dropRound (state : Grammar × OrderedSet Symbol) : ForInStep (Grammar × OrderedSet Symbol) :=
  let newly := state.1.newlyDead state.2
  if newly = [] then .done state
  else
    let found := state.2.insertAll newly
    .yield ((newly.foldl dropSymbol state.1).dropMentions found, found)

/-! ### Dropping one symbol after the other -/

/-- Keeps the symbols that pass the test, in the table and in the vocabulary. -/
def keepSymbols (g : Grammar) (p : Symbol → Bool) : Grammar :=
  { g with rules := g.rules.filterKeys p, vocabulary := g.vocabulary.filter p }

theorem dropSymbols_eq (found : OrderedSet Symbol) :
    g.dropSymbols found =
      (g.keepSymbols fun s => s ∉ found ∨ s = g.start).dropMentions found := rfl

theorem keepSymbols_eq_self {p : Symbol → Bool} (h : ∀ s, p s = true) : g.keepSymbols p = g := by
  rw [keepSymbols, RuleTable.filterKeys_eq_self fun s _ => h s,
    OrderedSet.filter_eq_self fun s _ => h s]

theorem keepSymbols_keepSymbols (p q : Symbol → Bool) :
    (g.keepSymbols p).keepSymbols q = g.keepSymbols fun s => q s && p s := by
  have hvocabulary : (g.vocabulary.filter p).filter q = g.vocabulary.filter fun s => q s && p s :=
    OrderedSet.ext (List.filter_filter ..)
  simp only [keepSymbols, RuleTable.filterKeys_filterKeys, hvocabulary]

theorem keepSymbols_dropMentions (p : Symbol → Bool) (symbols : OrderedSet Symbol) :
    (g.dropMentions symbols).keepSymbols p = (g.keepSymbols p).dropMentions symbols := by
  simp only [keepSymbols, dropMentions, RuleTable.filterKeys_filterAlternatives]

theorem dropMentions_dropMentions {symbols more : OrderedSet Symbol}
    (h : ∀ s ∈ symbols, s ∈ more) :
    (g.dropMentions symbols).dropMentions more = g.dropMentions more := by
  have hstronger : ∀ rhs : RightSide, (!rhs.mentions more.toList) = true →
      (!rhs.mentions symbols.toList) = true := by
    intro rhs hrhs
    rw [RightSide.not_mentions_iff] at hrhs ⊢
    exact fun s hs hsymbol => hrhs s hs (h s hsymbol)
  simp only [dropMentions, RuleTable.filterAlternatives_filterAlternatives hstronger]

theorem dropSymbol_eq (s : Symbol) :
    g.dropSymbol s = g.keepSymbols fun t => t ≠ s ∨ t = g.start := by
  by_cases hs : s = g.start
  · rw [dropSymbol, if_pos hs, keepSymbols_eq_self]
    intro t
    rw [decide_eq_true_eq, hs]
    exact ne_or_eq t g.start
  · have hsame : (fun t => decide (t ≠ s ∨ t = g.start)) = fun t => decide (t ≠ s) := by
      funext t
      refine decide_eq_decide.mpr (or_iff_left_of_imp ?_)
      rintro rfl
      exact Ne.symm hs
    rw [dropSymbol, if_neg hs, hsame]
    rfl

theorem foldl_dropSymbol (ss : List Symbol) :
    ss.foldl dropSymbol g = g.keepSymbols fun t => t ∉ ss ∨ t = g.start := by
  induction ss generalizing g with
  | nil =>
    refine (keepSymbols_eq_self fun t => ?_).symm
    exact decide_eq_true (Or.inl List.not_mem_nil)
  | cons s ss ih =>
    rw [List.foldl_cons, ih, dropSymbol_eq, keepSymbols_keepSymbols]
    refine congrArg g.keepSymbols (funext fun t => ?_)
    rw [Bool.eq_iff_iff, Bool.and_eq_true, decide_eq_true_eq, decide_eq_true_eq, decide_eq_true_eq,
      List.mem_cons, not_or, and_comm]
    exact and_or_right.symm

/-! ### All rounds -/

theorem newlyDead_dropSymbols (found : OrderedSet Symbol) :
    (g.dropSymbols found).newlyDead found =
      ((g.rules.entries.filter fun e => e.2.all (RightSide.mentions · found.toList)).map
        Prod.fst).filter (· ∉ found) := by
  let without (e : Symbol × List RightSide) : Symbol × List RightSide :=
    (e.1, e.2.filter fun rhs => !rhs.mentions found.toList)
  have hempty : ∀ rhss : List RightSide,
      (rhss.filter fun rhs => !rhs.mentions found.toList).isEmpty =
        rhss.all (RightSide.mentions · found.toList) := by
    intro rhss
    rw [Bool.eq_iff_iff, List.isEmpty_iff, List.filter_eq_nil_iff, List.all_eq_true]
    simp only [Bool.not_eq_true', Bool.not_eq_false]
  show (((g.rules.entries.filter fun e => e.1 ∉ found ∨ e.1 = g.start).map without).filter
    fun e => e.2.isEmpty && decide (e.1 ∉ found)).map Prod.fst = _
  rw [List.filter_map, List.filter_filter, List.map_map, List.filter_map, List.filter_filter]
  refine congrArg (List.map Prod.fst) (List.filter_congr fun e _ => ?_)
  simp only [without, Function.comp_apply, hempty]
  -- a left side that was not found is still in the table
  by_cases hfound : e.1 ∈ found
  · simp only [hfound, not_true_eq_false, decide_false, Bool.and_false, Bool.false_and]
  · simp only [hfound, not_false_eq_true, true_or, decide_true, Bool.and_true, Bool.true_and]

theorem insertAll_newlyDead (found : OrderedSet Symbol) :
    found.insertAll ((g.dropSymbols found).newlyDead found) = g.rules.deadRound found := by
  rw [newlyDead_dropSymbols, OrderedSet.insertAll_filter_not_mem, RuleTable.deadRound]

theorem newlyDead_eq_nil_iff (found : OrderedSet Symbol) :
    (g.dropSymbols found).newlyDead found = [] ↔ g.rules.deadRound found = found := by
  rw [← insertAll_newlyDead, OrderedSet.insertAll_eq_self_iff]
  constructor
  · intro h
    rw [h]
    exact fun _ hs => absurd hs List.not_mem_nil
  · intro h
    rw [List.eq_nil_iff_forall_not_mem]
    intro s hs
    have hnew := hs
    rw [newlyDead_dropSymbols, List.mem_filter, decide_eq_true_eq] at hnew
    exact hnew.2 (h s hs)

/-- What is dropped in a round is gone from the first grammar with all that went before. -/
theorem dropMentions_foldl_dropSymbol (found : OrderedSet Symbol) :
    (((g.dropSymbols found).newlyDead found).foldl dropSymbol (g.dropSymbols found)).dropMentions
      (g.rules.deadRound found) = g.dropSymbols (g.rules.deadRound found) := by
  have hnext : ∀ s, s ∈ g.rules.deadRound found ↔
      s ∈ found ∨ s ∈ (g.dropSymbols found).newlyDead found := by
    intro s
    rw [← insertAll_newlyDead, OrderedSet.mem_insertAll]
  rw [foldl_dropSymbol, dropSymbols_eq, keepSymbols_dropMentions, keepSymbols_keepSymbols,
    dropMentions_dropMentions fun s hs => (hnext s).mpr (Or.inl hs), dropSymbols_eq]
  refine congrArg (dropMentions · _) (congrArg g.keepSymbols (funext fun s => ?_))
  rw [Bool.eq_iff_iff, Bool.and_eq_true, decide_eq_true_eq, decide_eq_true_eq, decide_eq_true_eq,
    hnext, not_or, and_comm]
  exact and_or_right.symm

/-- The rounds on the shrinking grammar are the rounds on the first one. -/
theorem sweeping_dropRound (g : Grammar) :
    Loop.Sweeping dropRound (fun found => (g.dropSymbols found, found)) g.rules.deadRound where
  still found h := by
    rw [dropRound, if_pos ((newlyDead_eq_nil_iff found).mpr h)]
  moving found h := by
    rw [dropRound, if_neg fun hnil => h ((newlyDead_eq_nil_iff found).mp hnil)]
    simp only [insertAll_newlyDead, dropMentions_foldl_dropSymbol]

/-- There are at most as many rounds as left sides, and one that finds nothing. -/
theorem endsWithin_dropRound (g : Grammar) :
    Loop.EndsWithin dropRound (g.rules.size + 1) (g, ∅) (g.dropDead, g.rules.dead) := by
  have hnothing : g.dropSymbols ∅ = g :=
    dropSymbols_eq_self (fun s hs => absurd hs List.not_mem_nil)
      fun _ _ _ _ _ => List.not_mem_nil
  have hends := (sweeping_dropRound g).endsWithin (n := g.rules.size) (a := ∅)
    (iterate_fixed RuleTable.toList_prefix_deadRound RuleTable.size_iterate_deadRound_le)
  rw [hnothing] at hends
  exact hends

/-! ### What is left -/

theorem mem_vocabulary_dropDead {s : Symbol} :
    s ∈ g.dropDead.vocabulary ↔ s ∈ g.vocabulary ∧ (s ∉ g.rules.doomed ∨ s = g.start) := by
  rw [dropDead, mem_vocabulary_dropSymbols, RuleTable.mem_dead_iff]

theorem keys_dropDead :
    g.dropDead.rules.keys = g.rules.keys.filter fun s => s ∉ g.rules.doomed ∨ s = g.start := by
  rw [dropDead, dropSymbols, RuleTable.filterAlternatives, OrderedMap.keys_mapValues,
    RuleTable.keys_filterKeys]
  simp only [RuleTable.mem_dead_iff]

theorem toList_vocabulary_dropDead :
    g.dropDead.vocabulary.toList =
      g.vocabulary.toList.filter fun s => s ∉ g.rules.doomed ∨ s = g.start := by
  rw [dropDead, dropSymbols, OrderedSet.toList_filter]
  simp only [RuleTable.mem_dead_iff]

theorem alternatives_dropDead {s : Symbol} (hs : s ∈ g.dropDead.rules) :
    g.dropDead.alternatives s =
      (g.alternatives s).filter fun rhs => ∀ t ∈ rhs, t ∉ g.rules.doomed := by
  have hkept := RuleTable.mem_filterAlternatives.mp hs
  rw [alternatives, dropDead, dropSymbols, RuleTable.alternatives_filterAlternatives,
    RuleTable.alternatives_filterKeys hkept]
  refine List.filter_congr fun rhs _ => ?_
  rw [Bool.eq_iff_iff, RightSide.not_mentions_iff, decide_eq_true_eq]
  simp only [RuleTable.mem_dead_iff]

theorem not_uses_dropDead {s : Symbol} (hs : s ∈ g.rules.doomed) : ¬g.dropDead.Uses s := by
  rintro ⟨lhs, rhs, hrhs, hmem⟩
  exact (mem_alternatives_dropSymbols.mp hrhs).2.2 s hmem (RuleTable.mem_dead_iff.mpr hs)

/-- A start symbol that is dead keeps its place in the table, with no alternatives. -/
theorem get?_start_dropDead (hstart : g.start ∈ g.rules.doomed) :
    g.dropDead.rules.get? g.start = some [] := by
  have hdead := RuleTable.mem_dead_iff.mpr hstart
  obtain ⟨hkey, hblocked⟩ := RuleTable.blocked_of_mem_dead hdead
  have hkept : g.start ∈ g.dropDead.rules := mem_rules_dropSymbols.mpr ⟨hkey, Or.inr rfl⟩
  have hempty : g.dropDead.alternatives g.start = [] := by
    refine List.eq_nil_iff_forall_not_mem.mpr fun rhs hrhs => ?_
    obtain ⟨hold, _, hfree⟩ := mem_alternatives_dropSymbols.mp hrhs
    obtain ⟨t, ht, htdead⟩ := hblocked rhs hold
    exact hfree t ht htdead
  exact (RuleTable.get?_of_mem hkept).trans (congrArg some hempty)

/-- The rounds come to an end, and what they drop is the least set of left sides that has each left side
of which every alternative mentions a member.  All others keep their place and the alternatives that
mention no member; of the members only the start symbol keeps its place, with no alternatives, and
nothing mentions one any more. -/
theorem rounds_drop_doomed (g : Grammar) (hkeys : ∀ s ∈ g.rules, s ∈ g.vocabulary) :
    (∃ n, Loop.Ends dropRound n (g, ∅) (g.dropDead, g.rules.dead)) ∧
    IsLeast {D : Set Symbol | (∀ s ∈ D, s ∈ g.rules) ∧ g.rules.AbsorbsBlocked D} g.rules.doomed ∧
    g.dropDead.rules.keys = g.rules.keys.filter (fun s => s ∉ g.rules.doomed ∨ s = g.start) ∧
    g.dropDead.vocabulary.toList =
      g.vocabulary.toList.filter (fun s => s ∉ g.rules.doomed ∨ s = g.start) ∧
    (∀ s, s ∈ g.vocabulary ∧ s ∉ g.dropDead.vocabulary ↔ s ∈ g.rules.doomed ∧ s ≠ g.start) ∧
    (∀ s ∈ g.dropDead.rules, g.dropDead.alternatives s =
      (g.alternatives s).filter fun rhs => ∀ t ∈ rhs, t ∉ g.rules.doomed) ∧
    (g.start ∈ g.rules.doomed → g.dropDead.rules.get? g.start = some []) ∧
    (∀ s ∈ g.rules.doomed, ¬g.dropDead.Uses s) ∧
    g.dropDead.start = g.start ∧ g.dropDead.pool = g.pool := by
  obtain ⟨n, _, hends⟩ := (endsWithin_dropRound g).ends
  refine ⟨⟨n, hends⟩, RuleTable.isLeast_doomed g.rules, keys_dropDead, toList_vocabulary_dropDead, ?_,
    fun s hs => alternatives_dropDead hs, get?_start_dropDead, fun s hs => not_uses_dropDead hs, rfl,
    rfl⟩
  intro s
  rw [mem_vocabulary_dropDead]
  constructor
  · rintro ⟨hs, hgone⟩
    rw [not_and, not_or, not_not] at hgone
    exact hgone hs
  · rintro ⟨hdoomed, hne⟩
    have hkey := (RuleTable.isLeast_doomed g.rules).1.1 s hdoomed
    exact ⟨hkeys s hkey, fun hleft => hleft.2.elim (not_not_intro hdoomed) hne⟩

/-- `B` has no alternatives; `A` dies of it, and the start symbol of `A`.  `T` loses an alternative, and
`D` and `E` only mention each other. -/
def chainOfDead : Grammar where
  start := ⟨'S'⟩
  rules := ⟨[(⟨'T'⟩, [[⟨'S'⟩, ⟨'x'⟩], [⟨'t'⟩], [⟨'B'⟩]]), (⟨'S'⟩, [[⟨'A'⟩, ⟨'T'⟩], [⟨'A'⟩]]),
    (⟨'A'⟩, [[⟨'B'⟩, ⟨'B'⟩]]), (⟨'B'⟩, []), (⟨'D'⟩, [[⟨'E'⟩]]), (⟨'E'⟩, [[⟨'D'⟩]])], by decide⟩
  vocabulary := ⟨[⟨'S'⟩, ⟨'T'⟩, ⟨'B'⟩, ⟨'A'⟩, ⟨'E'⟩, ⟨'D'⟩], by decide⟩
  pool := LetterPool.excluding []

theorem rounds_drop_doomed_chain :
    (∀ s ∈ chainOfDead.rules, s ∈ chainOfDead.vocabulary) ∧
    (∃ n, Loop.Ends dropRound n (chainOfDead, ∅) (chainOfDead.dropDead, chainOfDead.rules.dead)) ∧
    ⟨'S'⟩ ∈ chainOfDead.rules.doomed ∧ ⟨'D'⟩ ∉ chainOfDead.rules.doomed ∧
    chainOfDead.dropDead.rules.keys = [⟨'T'⟩, ⟨'S'⟩, ⟨'D'⟩, ⟨'E'⟩] ∧
    chainOfDead.dropDead.vocabulary.toList = [⟨'S'⟩, ⟨'T'⟩, ⟨'E'⟩, ⟨'D'⟩] ∧
    chainOfDead.dropDead.alternatives ⟨'T'⟩ = [[⟨'t'⟩]] ∧
    chainOfDead.dropDead.rules.get? ⟨'S'⟩ = some [] := by
  have hkeys : ∀ s ∈ chainOfDead.rules, s ∈ chainOfDead.vocabulary := by
    have hall : ∀ s ∈ chainOfDead.rules.keys, s ∈ chainOfDead.vocabulary := by decide
    exact hall
  have hstart : ⟨'S'⟩ ∈ chainOfDead.rules.doomed := by decide +kernel
  obtain ⟨hends, _, hkept, hvocabulary, _, halternatives, hempty, _⟩ :=
    rounds_drop_doomed chainOfDead hkeys
  refine ⟨hkeys, hends, hstart, by decide +kernel, ?_, ?_, ?_, hempty hstart⟩
  · rw [hkept]
    decide +kernel
  · rw [hvocabulary]
    decide +kernel
  · rw [halternatives ⟨'T'⟩ (by decide +kernel)]
    decide +kernel

end Grammar

end ChomskyForm
