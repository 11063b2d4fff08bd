import ChomskyForm.NormalForm.UnitFree
import ChomskyForm.Proofs.Analysis.UnitClosure
import ChomskyForm.Proofs.Coherence
import ChomskyForm.Proofs.Outcome
import ChomskyForm.Proofs.Simulation

/-!
# Dropping unit productions

A grammar loses its unit productions and gets the instances of its binary ones under the closure
(`mem_alternatives_eliminateUnits`).  The binary productions are then closed under taking instances
(`saturated_eliminateUnits`), and the words of a symbol before are those of all symbols together
that may stand for it after (`generates_iff_exists_standsFor`).
-/

namespace ChomskyForm

namespace Grammar

variable {g g₃ : Grammar}

/-! ### What the stage does with any closure -/

theorem mem_alternatives_dropUnits {s : Symbol} {rhs : RightSide} :
    rhs ∈ g.dropUnits.alternatives s ↔ rhs ∈ g.alternatives s ∧ g.isUnit rhs = false := by
  rw [alternatives, dropUnits, RuleTable.mem_alternatives_iff]
  simp only [OrderedMap.get?_filter_eq_some_iff]
  constructor
  · rintro ⟨rhss, ⟨hget, _⟩, hrhs⟩
    rw [← RuleTable.alternatives_of_get? hget, RuleTable.alternatives_filterAlternatives,
      List.mem_filter, Bool.not_eq_true'] at hrhs
    exact hrhs
  · rintro ⟨hrhs, hunit⟩
    have hmem : rhs ∈ (g.rules.filterAlternatives fun rhs => !g.isUnit rhs).alternatives s := by
      rw [RuleTable.alternatives_filterAlternatives, List.mem_filter, Bool.not_eq_true']
      exact ⟨hrhs, hunit⟩
    obtain ⟨rhss, hget, hin⟩ := RuleTable.mem_alternatives_iff.mp hmem
    refine ⟨rhss, ⟨hget, ?_⟩, hin⟩
    cases rhss with
    | nil => exact absurd hin List.not_mem_nil
    | cons _ _ => rfl

theorem mem_rules_dropUnits {s : Symbol} :
    s ∈ g.dropUnits.rules ↔ s ∈ g.rules ∧ (g.dropUnits.alternatives s ≠ [] ∨ s = g.start) := by
  have hmem : s ∈ g.dropUnits.rules ↔ ∃ rhss,
      (g.rules.filterAlternatives fun rhs => !g.isUnit rhs).get? s = some rhss ∧
        (!rhss.isEmpty || decide (s = g.start)) = true := OrderedMap.mem_filter
  have halt : ∀ rhss, (g.rules.filterAlternatives fun rhs => !g.isUnit rhs).get? s = some rhss →
      (rhss ≠ [] ↔ g.dropUnits.alternatives s ≠ []) := by
    intro rhss hget
    rw [← RuleTable.alternatives_of_get? hget, RuleTable.alternatives_filterAlternatives]
    simp only [ne_eq, List.eq_nil_iff_forall_not_mem, mem_alternatives_dropUnits, List.mem_filter,
      Bool.not_eq_true']
    rfl
  have hkey : (∃ rhss, (g.rules.filterAlternatives fun rhs => !g.isUnit rhs).get? s = some rhss) ↔
      s ∈ g.rules := OrderedMap.mem_iff_get?.symm.trans RuleTable.mem_filterAlternatives
  rw [hmem, ← hkey]
  simp only [Bool.or_eq_true, Bool.not_eq_true', List.isEmpty_eq_false_iff, decide_eq_true_eq]
  constructor
  · rintro ⟨rhss, hget, hor⟩
    exact ⟨⟨rhss, hget⟩, hor.imp_left (halt rhss hget).mp⟩
  · rintro ⟨⟨rhss, hget⟩, hor⟩
    exact ⟨rhss, hget, hor.imp_left (halt rhss hget).mpr⟩

/-- The right side `rhs` comes from `whole` by substitutes under the closure. -/
def IsInstance (g : Grammar) (D : UnitClosure) (whole rhs : RightSide) : Prop :=
  ∃ left right lefts rights, whole = [left, right] ∧ g.substitutes D left = .ok lefts ∧
    g.substitutes D right = .ok rights ∧ rhs ∈ RightSide.pairs lefts rights

theorem not_isInstance_of_length_ne {D : UnitClosure} {whole rhs : RightSide}
    (h : whole.length ≠ 2) : ¬g.IsInstance D whole rhs := by
  rintro ⟨_, _, _, _, heq, _⟩
  rw [heq] at h
  exact h rfl

/-- One step adds the instances of one production. -/
theorem addInstances_eq_ok {D : UnitClosure} {next : Grammar} {lhs : Symbol} {whole : RightSide}
    (h : addInstances D g (lhs, whole) = .ok next) :
    ∃ rhss : List RightSide, next = g.addAll (rhss.map fun rhs => (lhs, rhs)) ∧
      ∀ rhs, rhs ∈ rhss ↔ g.IsInstance D whole rhs := by
  match whole with
  | [] | [_] | _ :: _ :: _ :: _ =>
    cases h
    refine ⟨[], rfl, fun rhs => iff_of_false List.not_mem_nil ?_⟩
    exact not_isInstance_of_length_ne (by simp only [List.length_cons, List.length_nil]; omega)
  | [left, right] =>
    have hbind : (do
        let lefts ← g.substitutes D left
        let rights ← g.substitutes D right
        pure (g.addAll ((RightSide.pairs lefts rights).map fun rhs => (lhs, rhs)))) =
          Except.ok next := h
    cases hl : g.substitutes D left with
    | error e =>
      rw [hl] at hbind
      cases hbind
    | ok lefts =>
      cases hr : g.substitutes D right with
      | error e =>
        rw [hl, hr] at hbind
        cases hbind
      | ok rights =>
        rw [hl, hr] at hbind
        cases hbind
        refine ⟨RightSide.pairs lefts rights, rfl, fun rhs => ⟨?_, ?_⟩⟩
        · intro hmem
          exact ⟨left, right, lefts, rights, rfl, hl, hr, hmem⟩
        · rintro ⟨_, _, _, _, heq, hl', hr', hmem⟩
          cases heq
          rw [hl] at hl'
          rw [hr] at hr'
          cases hl'
          cases hr'
          exact hmem

theorem substitutes_congr {cur : Grammar} (h : cur.vocabulary = g.vocabulary) (D : UnitClosure)
    (s : Symbol) : cur.substitutes D s = g.substitutes D s := by
  have hkind : cur.isNonterminal s = g.isNonterminal s :=
    congrArg (fun V : OrderedSet Symbol => decide (s ∈ V)) h
  rw [substitutes, substitutes, hkind]

theorem isInstance_congr {cur : Grammar} (h : cur.vocabulary = g.vocabulary) {D : UnitClosure}
    {whole rhs : RightSide} : cur.IsInstance D whole rhs ↔ g.IsInstance D whole rhs := by
  simp only [IsInstance, substitutes_congr h]

/-- The grammar `g₃` has the productions of `g` that are no unit productions, and the instances of
those in `ps`. -/
structure Expanded (g : Grammar) (D : UnitClosure) (ps : List Production) (g₃ : Grammar) :
    Prop where
  start : g₃.start = g.start
  pool : g₃.pool = g.pool
  vocabulary : g₃.vocabulary = g.vocabulary
  keys : ∀ s, s ∈ g₃.rules ↔ s ∈ g.dropUnits.rules
  alternatives : ∀ s rhs, rhs ∈ g₃.alternatives s ↔ rhs ∈ g.dropUnits.alternatives s ∨
    ∃ whole, (s, whole) ∈ ps ∧ g.IsInstance D whole rhs

theorem Expanded.addInstances {D : UnitClosure} {ps : List Production} {cur next : Grammar}
    (h : Expanded g D ps cur) (hkeys : ∀ s ∈ g.rules, s ∈ g.vocabulary) {lhs : Symbol}
    {whole : RightSide} (hlhs : lhs ∈ g.dropUnits.rules)
    (hadd : Grammar.addInstances D cur (lhs, whole) = .ok next) :
    Expanded g D (ps ++ [(lhs, whole)]) next := by
  obtain ⟨rhss, rfl, hrhss⟩ := addInstances_eq_ok hadd
  have hfst : ∀ s, s ∈ (rhss.map fun rhs => (lhs, rhs)).map Prod.fst → s = lhs := by
    intro s hs
    rw [List.map_map, List.mem_map] at hs
    obtain ⟨_, _, rfl⟩ := hs
    rfl
  refine ⟨?_, ?_, ?_, ?_, ?_⟩
  · rw [start_addAll]
    exact h.start
  · rw [pool_addAll]
    exact h.pool
  · rw [vocabulary_addAll_of_mem]
    · exact h.vocabulary
    · intro p hp
      rw [hfst p.1 (List.mem_map_of_mem hp), h.vocabulary]
      exact hkeys lhs (mem_rules_dropUnits.mp hlhs).1
  · intro s
    rw [mem_rules_addAll, h.keys]
    refine or_iff_left_of_imp fun hs => ?_
    rw [hfst s hs]
    exact hlhs
  · intro s rhs
    have hnew : (s, rhs) ∈ rhss.map (fun rhs => (lhs, rhs)) ↔
        s = lhs ∧ g.IsInstance D whole rhs := by
      rw [List.mem_map, ← isInstance_congr h.vocabulary]
      constructor
      · rintro ⟨r, hr, heq⟩
        cases heq
        exact ⟨rfl, (hrhss _).mp hr⟩
      · rintro ⟨hs, hinst⟩
        exact ⟨rhs, (hrhss rhs).mpr hinst, Prod.ext hs.symm rfl⟩
    rw [mem_alternatives_addAll, h.alternatives, hnew, or_assoc]
    refine or_congr_right ?_
    simp only [List.mem_append, List.mem_singleton, Prod.mk.injEq, or_and_right, exists_or,
      and_assoc, exists_and_left, exists_eq_left]

theorem expanded_of_eliminateUnits (hkeys : ∀ s ∈ g.rules, s ∈ g.vocabulary) {D : UnitClosure}
    (h : g.eliminateUnits D = .ok g₃) : Expanded g D g.dropUnits.productions g₃ := by
  refine foldlM_induction (P := Expanded g D) ?_ ?_ h
  · rintro done ⟨lhs, whole⟩ cur next hp hcur hadd
    have hlhs := mem_of_mem_alternatives (mem_productions_iff.mp hp)
    exact hcur.addInstances hkeys hlhs hadd
  · refine ⟨rfl, rfl, rfl, fun s => Iff.rfl, fun s rhs => ?_⟩
    simp only [List.not_mem_nil, false_and, exists_false, or_false]

/-! ### What it does with the closure of the grammar itself -/

theorem mem_substitutes_iff {s t : Symbol} {ts : List Symbol}
    (h : g.substitutes g.unitClosure s = .ok ts) : t ∈ ts ↔ g.StandsFor s t := by
  by_cases hs : s ∈ g.vocabulary
  · have hkind : g.isNonterminal s = true := isNonterminal_eq_true_iff.mpr hs
    have hget := get?_unitClosure_eq_some_iff.mpr ⟨hs, rfl⟩
    rw [substitutes, if_pos hkind, hget] at h
    cases h
    rw [StandsFor, if_pos hs, OrderedSet.mem_toList]
  · have hkind : ¬g.isNonterminal s = true := fun hk => hs (isNonterminal_eq_true_iff.mp hk)
    rw [substitutes, if_neg hkind] at h
    cases h
    rw [standsFor_of_not_mem hs, List.mem_singleton]

theorem exists_substitutes (s : Symbol) : ∃ ts, g.substitutes g.unitClosure s = .ok ts := by
  by_cases hs : s ∈ g.vocabulary
  · have hkind : g.isNonterminal s = true := isNonterminal_eq_true_iff.mpr hs
    have hget := get?_unitClosure_eq_some_iff.mpr ⟨hs, rfl⟩
    rw [substitutes, if_pos hkind, hget]
    exact ⟨_, rfl⟩
  · have hkind : ¬g.isNonterminal s = true := fun hk => hs (isNonterminal_eq_true_iff.mp hk)
    rw [substitutes, if_neg hkind]
    exact ⟨_, rfl⟩

/-- With its own closure no look-up of the stage can fail. -/
theorem exists_eliminateUnits_eq_ok (hkeys : ∀ s ∈ g.rules, s ∈ g.vocabulary) :
    ∃ g₃, g.eliminateUnits g.unitClosure = .ok g₃ := by
  have hfold : ∃ g₃, g.eliminateUnits g.unitClosure = .ok g₃ ∧ g₃.vocabulary = g.vocabulary := by
    refine exists_foldlM_eq_ok (P := fun cur : Grammar => cur.vocabulary = g.vocabulary) ?_ rfl
    rintro cur ⟨lhs, whole⟩ hp hcur
    match whole with
    | [] | [_] | _ :: _ :: _ :: _ => exact ⟨cur, rfl, hcur⟩
    | [left, right] =>
      obtain ⟨lefts, hlefts⟩ := exists_substitutes (g := g) left
      obtain ⟨rights, hrights⟩ := exists_substitutes (g := g) right
      refine ⟨cur.addAll ((RightSide.pairs lefts rights).map fun rhs => (lhs, rhs)), ?_, ?_⟩
      · simp only [addInstances, substitutes_congr hcur, hlefts, hrights]
        rfl
      · rw [← hcur]
        refine vocabulary_addAll_of_mem fun p hadded => ?_
        obtain ⟨_, _, rfl⟩ := List.mem_map.mp hadded
        have hlhs := mem_of_mem_alternatives (mem_productions_iff.mp hp)
        rw [hcur]
        exact hkeys lhs (mem_rules_dropUnits.mp hlhs).1
  obtain ⟨g₃, hg₃, _⟩ := hfold
  exact ⟨g₃, hg₃⟩

theorem isInstance_unitClosure_iff {whole rhs : RightSide} :
    g.IsInstance g.unitClosure whole rhs ↔ ∃ l r l' r', whole = [l, r] ∧ g.StandsFor l l' ∧
      g.StandsFor r r' ∧ rhs = [l', r'] := by
  constructor
  · rintro ⟨l, r, ls, rs, hwhole, hl, hr, hmem⟩
    obtain ⟨l', hl', r', hr', hrhs⟩ := RightSide.mem_pairs.mp hmem
    exact ⟨l, r, l', r', hwhole, (mem_substitutes_iff hl).mp hl', (mem_substitutes_iff hr).mp hr',
      hrhs⟩
  · rintro ⟨l, r, l', r', hwhole, hl', hr', hrhs⟩
    obtain ⟨ls, hl⟩ := exists_substitutes (g := g) l
    obtain ⟨rs, hr⟩ := exists_substitutes (g := g) r
    exact ⟨l, r, ls, rs, hwhole, hl, hr, RightSide.mem_pairs.mpr
      ⟨l', (mem_substitutes_iff hl).mpr hl', r', (mem_substitutes_iff hr).mpr hr', hrhs⟩⟩

theorem isUnit_pair (l r : Symbol) : g.isUnit [l, r] = false := rfl

section UnitFree

variable (hkeys : ∀ s ∈ g.rules, s ∈ g.vocabulary) (h : g.eliminateUnits g.unitClosure = .ok g₃)

include hkeys h

theorem mem_alternatives_eliminateUnits {s : Symbol} {rhs : RightSide} :
    rhs ∈ g₃.alternatives s ↔ (rhs ∈ g.alternatives s ∧ g.isUnit rhs = false) ∨
      ∃ l r l' r', [l, r] ∈ g.alternatives s ∧ g.StandsFor l l' ∧ g.StandsFor r r' ∧
        rhs = [l', r'] := by
  rw [(expanded_of_eliminateUnits hkeys h).alternatives, mem_alternatives_dropUnits]
  refine or_congr_right ?_
  constructor
  · rintro ⟨whole, hwhole, hinst⟩
    obtain ⟨l, r, l', r', rfl, hl, hr, hrhs⟩ := isInstance_unitClosure_iff.mp hinst
    exact ⟨l, r, l', r', (mem_alternatives_dropUnits.mp (mem_productions_iff.mp hwhole)).1, hl, hr,
      hrhs⟩
  · rintro ⟨l, r, l', r', hwhole, hl, hr, hrhs⟩
    exact ⟨[l, r], mem_productions_iff.mpr (mem_alternatives_dropUnits.mpr ⟨hwhole, isUnit_pair l r⟩),
      isInstance_unitClosure_iff.mpr ⟨l, r, l', r', rfl, hl, hr, hrhs⟩⟩

/-- The binary productions are closed under taking instances. -/
theorem saturated_eliminateUnits {s l r l' r' : Symbol} (hrhs : [l, r] ∈ g₃.alternatives s)
    (hl : g.StandsFor l l') (hr : g.StandsFor r r') : [l', r'] ∈ g₃.alternatives s := by
  rcases (mem_alternatives_eliminateUnits hkeys h).mp hrhs with
    ⟨hold, _⟩ | ⟨l₀, r₀, l₁, r₁, hold, hl₀, hr₀, heq⟩
  · exact (mem_alternatives_eliminateUnits hkeys h).mpr (Or.inr ⟨l, r, l', r', hold, hl, hr, rfl⟩)
  · cases heq
    exact (mem_alternatives_eliminateUnits hkeys h).mpr
      (Or.inr ⟨l₀, r₀, l', r', hold, hl₀.trans hl, hr₀.trans hr, rfl⟩)

/-! ### Words -/

omit hkeys h in
theorem generates_of_standsFor {s t : Symbol} (hst : g.StandsFor s t) {w : List Symbol}
    (hw : g.Generates t w) : g.Generates s w := by
  by_cases hs : s ∈ g.vocabulary
  · have hreach := (standsFor_of_mem hs).mp hst
    clear hst
    induction hreach using Relation.ReflTransGen.head_induction_on with
    | refl => exact hw
    | head hstep _ ih => exact .of_alternative hs hstep.1 (ih hstep.2)
  · rw [← (standsFor_of_not_mem hs).mp hst]
    exact hw

theorem generates_of_eliminateUnits {s : Symbol} {w : List Symbol} (hw : g₃.Generates s w) :
    g.Generates s w := by
  have hsame := (expanded_of_eliminateUnits hkeys h).vocabulary
  rw [Generates, hsame] at hw
  refine hw.transfer (Q := fun _ => True) (fun _ _ _ _ _ _ _ => trivial) (fun _ _ hfixed => hfixed)
    ?_ fun _ _ => trivial
  intro s _ hexp rhs hrhs u hu
  rcases (mem_alternatives_eliminateUnits hkeys h).mp hrhs with
    ⟨hold, _⟩ | ⟨l, r, l', r', hold, hl, hr, heq⟩
  · exact .of_alternative hexp hold hu
  · rw [heq] at hu
    obtain ⟨u₁, u₂, hsplit, hu₁, hu₂⟩ := yields_pair_iff.mp hu
    rw [hsplit]
    exact .of_alternative hexp hold (yields_pair_iff.mpr
      ⟨u₁, u₂, rfl, generates_of_standsFor hl hu₁, generates_of_standsFor hr hu₂⟩)

theorem exists_standsFor_of_generates (hbinary : g.IsBinary) {s : Symbol} {w : List Symbol}
    (hw : g.Generates s w) : ∃ t, g.StandsFor s t ∧ g₃.Generates t w := by
  have hsame := (expanded_of_eliminateUnits hkeys h).vocabulary
  have hsim := Yields.simulate_symbol (· ∈ g₃.vocabulary) g₃.rules
    (R := fun s β => ∃ t, β = [t] ∧ g.StandsFor s t)
    (fun s hfixed => by
      rw [← hsame] at hfixed
      exact ⟨[s], ⟨s, rfl, .refl s⟩, .of_fixed hfixed⟩)
    (fun s hexp rhs hrhs βs u hβs hu => by
      have hexp₃ : s ∈ g₃.vocabulary := by
        rw [hsame]
        exact hexp
      rcases hbinary.forall₂_cases hrhs hβs with
        ⟨x, rfl, t, ht, hxt⟩ | ⟨x, y, _, _, rfl, hflat, ⟨x', rfl, hx'⟩, y', rfl, hy'⟩
      · rw [ht] at hu
        by_cases hunit : x ∈ g.vocabulary
        · have hstep : g.StandsFor s x := (standsFor_of_mem hexp).mpr (.single ⟨hrhs, hunit⟩)
          exact ⟨[t], ⟨t, rfl, hstep.trans hxt⟩, hu⟩
        · have hfixed : g.isUnit [x] = false := decide_eq_false hunit
          rw [(standsFor_of_not_mem hunit).mp hxt] at hu
          exact ⟨[s], ⟨s, rfl, .refl s⟩, .of_alternative hexp₃
            ((mem_alternatives_eliminateUnits hkeys h).mpr (Or.inl ⟨hrhs, hfixed⟩)) hu⟩
      · rw [hflat] at hu
        exact ⟨[s], ⟨s, rfl, .refl s⟩, .of_alternative hexp₃
          ((mem_alternatives_eliminateUnits hkeys h).mpr
            (Or.inr ⟨x, y, x', y', hrhs, hx', hy', rfl⟩)) hu⟩)
    hw
  obtain ⟨_, ⟨t, rfl, hst⟩, hyield⟩ := hsim
  exact ⟨t, hst, hyield⟩

/-- The words of a symbol are spread over all symbols that may stand for it. -/
theorem generates_iff_exists_standsFor (hbinary : g.IsBinary) {s : Symbol} {w : List Symbol} :
    g.Generates s w ↔ ∃ t, g.StandsFor s t ∧ g₃.Generates t w := by
  constructor
  · exact exists_standsFor_of_generates hkeys h hbinary
  · rintro ⟨t, hst, hw⟩
    exact generates_of_standsFor hst (generates_of_eliminateUnits hkeys h hw)

/-! ### What the stage keeps -/

theorem uses_eliminateUnits {s : Symbol} (huses : g₃.Uses s) : g.Uses s ∨ s ∈ g.vocabulary := by
  obtain ⟨lhs, rhs, hrhs, hs⟩ := huses
  rcases (mem_alternatives_eliminateUnits hkeys h).mp hrhs with
    ⟨hold, _⟩ | ⟨l, r, l', r', hold, hl, hr, heq⟩
  · exact Or.inl (uses_of_mem hold hs)
  · have hone : ∀ t t', t ∈ [l, r] → g.StandsFor t t' → g.Uses t' ∨ t' ∈ g.vocabulary := by
      intro t t' ht htt'
      by_cases hexp : t ∈ g.vocabulary
      · exact Or.inr (htt'.mem_iff.mpr hexp)
      · rw [(standsFor_of_not_mem hexp).mp htt']
        exact Or.inl (uses_of_mem hold ht)
    rw [heq] at hs
    rcases List.mem_cons.mp hs with hs | hs
    · rw [hs]
      exact hone l l' (List.mem_cons_self ..) hl
    · rw [List.mem_singleton.mp hs]
      exact hone r r' (List.mem_cons_of_mem _ (List.mem_cons_self ..)) hr

theorem isBinary_eliminateUnits (hbinary : g.IsBinary) : g₃.IsBinary := by
  rw [isBinary_iff] at hbinary ⊢
  intro s rhs hrhs
  rcases (mem_alternatives_eliminateUnits hkeys h).mp hrhs with
    ⟨hold, _⟩ | ⟨_, _, _, _, _, _, _, heq⟩
  · exact hbinary s rhs hold
  · rw [heq]
    exact Or.inr rfl

theorem isUnitFree_eliminateUnits : g₃.IsUnitFree := by
  rw [isUnitFree_iff, (expanded_of_eliminateUnits hkeys h).vocabulary]
  intro s rhs hrhs t ht heq
  rcases (mem_alternatives_eliminateUnits hkeys h).mp hrhs with
    ⟨_, hunit⟩ | ⟨_, _, _, _, _, _, _, hpair⟩
  · have htrue : g.isUnit rhs = true := isUnit_eq_true_iff.mpr ⟨t, ht, heq⟩
    rw [htrue] at hunit
    cases hunit
  · rw [heq] at hpair
    cases hpair

theorem alternatives_eliminateUnits_ne_nil {s : Symbol} (hs : s ∈ g₃.rules) (hne : s ≠ g₃.start) :
    g₃.alternatives s ≠ [] := by
  have hex := expanded_of_eliminateUnits hkeys h
  rw [hex.start] at hne
  have hold := (mem_rules_dropUnits.mp ((hex.keys s).mp hs)).2.resolve_right hne
  obtain ⟨rhs, hrhs⟩ := List.exists_mem_of_ne_nil _ hold
  exact List.ne_nil_of_mem ((hex.alternatives s rhs).mpr (Or.inl hrhs))

theorem start_mem_eliminateUnits (hstart : g.start ∈ g.rules) : g₃.start ∈ g₃.rules := by
  have hex := expanded_of_eliminateUnits hkeys h
  rw [hex.start, hex.keys]
  exact mem_rules_dropUnits.mpr ⟨hstart, Or.inr rfl⟩

theorem madeFrom_eliminateUnits : MadeFrom g [] g₃ := by
  have hex := expanded_of_eliminateUnits hkeys h
  exact {
    start := hex.start
    pool := by rw [hex.pool]; rfl
    keys := by
      intro s hs
      rw [hex.vocabulary]
      exact hkeys s (mem_rules_dropUnits.mp ((hex.keys s).mp hs)).1
    vocabulary := by
      intro s hs
      rw [hex.vocabulary] at hs
      exact Or.inl hs
    uses := fun s hs => (uses_eliminateUnits hkeys h hs).imp_right Or.inl }

omit hkeys in
theorem isEmptyFree_eliminateUnits (hg : g.Coherent) (hfree : g.IsEmptyFree) : g₃.IsEmptyFree := by
  rw [isEmptyFree_iff] at hfree ⊢
  intro s rhs hrhs hmarker
  rcases uses_eliminateUnits hg.keys h (uses_of_mem hrhs hmarker) with ⟨lhs, rhs', hrhs', hmem⟩ | hexp
  · exact hfree lhs rhs' hrhs' hmem
  · exact hg.marker hexp

omit hkeys in
theorem coherent_eliminateUnits (hg : g.Coherent) : g₃.Coherent :=
  hg.of_madeFrom (madeFrom_eliminateUnits hg.keys h)

end UnitFree

/-! ### The stage as a whole -/

/-- The symbol `t` may take the place of `s`: a member of its entry in the closure for a
nonterminal, just itself for a terminal. -/
def MayReplace (g : Grammar) (D : UnitClosure) (s t : Symbol) : Prop :=
  if s ∈ g.vocabulary then ∃ members, D.get? s = some members ∧ t ∈ members else t = s

theorem mayReplace_unitClosure_iff {s t : Symbol} :
    g.MayReplace g.unitClosure s t ↔ g.StandsFor s t := by
  by_cases hs : s ∈ g.vocabulary
  · simp only [MayReplace, StandsFor, hs, ↓reduceIte, get?_unitClosure_eq_some_iff, true_and,
      exists_eq_left]
  · simp only [MayReplace, StandsFor, hs, ↓reduceIte]

/-- The stage succeeds, the words of a nonterminal are those of the members of its closure together,
and the right sides of two symbols are the instances of those there were, closed under taking
instances again. -/
theorem words_eliminateUnits (hkeys : ∀ s ∈ g.rules, s ∈ g.vocabulary) (hbinary : g.IsBinary) :
    ∃ g₃, g.eliminateUnits g.unitClosure = .ok g₃ ∧
      (∀ s ∈ g.vocabulary, ∃ members, g.unitClosure.get? s = some members ∧
        ∀ w, g.Generates s w ↔ ∃ t ∈ members, g₃.Generates t w) ∧
      (∀ s l r l' r', [l, r] ∈ g₃.alternatives s → g.MayReplace g.unitClosure l l' →
        g.MayReplace g.unitClosure r r' → [l', r'] ∈ g₃.alternatives s) ∧
      ∀ s l' r', [l', r'] ∈ g₃.alternatives s ↔ ∃ l r, [l, r] ∈ g.alternatives s ∧
        g.MayReplace g.unitClosure l l' ∧ g.MayReplace g.unitClosure r r' := by
  obtain ⟨g₃, hg₃⟩ := exists_eliminateUnits_eq_ok hkeys
  simp only [mayReplace_unitClosure_iff]
  refine ⟨g₃, hg₃, fun s hs => ?_, fun s l r l' r' => saturated_eliminateUnits hkeys hg₃, ?_⟩
  · refine ⟨g.unitReach s, get?_unitClosure_eq_some_iff.mpr ⟨hs, rfl⟩, fun w => ?_⟩
    simp only [generates_iff_exists_standsFor hkeys hg₃ hbinary, StandsFor, hs, ↓reduceIte]
  · intro s l' r'
    rw [mem_alternatives_eliminateUnits hkeys hg₃]
    constructor
    · rintro (⟨hold, _⟩ | ⟨l, r, _, _, hold, hl, hr, heq⟩)
      · exact ⟨l', r', hold, .refl l', .refl r'⟩
      · cases heq
        exact ⟨l, r, hold, hl, hr⟩
    · rintro ⟨l, r, hold, hl, hr⟩
      exact Or.inr ⟨l, r, l', r', hold, hl, hr, rfl⟩

/-- The unit productions of `S` and `A` form a cycle, and `S` has no others. -/
def cycleProductions : List Production :=
  [(⟨'S'⟩, [⟨'A'⟩]), (⟨'A'⟩, [⟨'S'⟩]), (⟨'A'⟩, [⟨'B'⟩]), (⟨'A'⟩, [⟨'S'⟩, ⟨'x'⟩]),
    (⟨'B'⟩, [⟨'b'⟩])]

theorem words_eliminateUnits_cycle :
    (ofProductions ⟨'S'⟩ cycleProductions).IsBinary ∧
    [⟨'S'⟩] ∈ (ofProductions ⟨'S'⟩ cycleProductions).alternatives ⟨'A'⟩ ∧
    ∃ g₃, (ofProductions ⟨'S'⟩ cycleProductions).eliminateUnits
        (ofProductions ⟨'S'⟩ cycleProductions).unitClosure = .ok g₃ ∧
      (∀ w, (ofProductions ⟨'S'⟩ cycleProductions).Generates ⟨'S'⟩ w ↔
        ∃ t ∈ [(⟨'S'⟩ : Symbol), ⟨'A'⟩, ⟨'B'⟩], g₃.Generates t w) ∧
      [⟨'B'⟩, ⟨'x'⟩] ∈ g₃.alternatives ⟨'A'⟩ ∧
      g₃.alternatives ⟨'S'⟩ = [] ∧ [⟨'S'⟩] ∉ g₃.alternatives ⟨'A'⟩ := by
  have hcoherent : (ofProductions ⟨'S'⟩ cycleProductions).Coherent :=
    coherent_ofProductions (by decide)
  have hbinary : (ofProductions ⟨'S'⟩ cycleProductions).IsBinary := by decide +kernel
  have hlisted : ((ofProductions ⟨'S'⟩ cycleProductions).unitClosure.get? ⟨'S'⟩).map
      OrderedSet.toList = some [⟨'S'⟩, ⟨'A'⟩, ⟨'B'⟩] := by decide +kernel
  obtain ⟨g₃, hg₃, hwords, _, hpairs⟩ := words_eliminateUnits hcoherent.keys hbinary
  obtain ⟨members, hget, hS⟩ := hwords ⟨'S'⟩ (by decide +kernel)
  rw [hget, Option.map_some, Option.some.injEq] at hlisted
  have hdropped : ((ofProductions ⟨'S'⟩ cycleProductions).eliminateUnits
      (ofProductions ⟨'S'⟩ cycleProductions).unitClosure).toOption.map (fun g₃ =>
        (g₃.alternatives ⟨'S'⟩, decide ([⟨'S'⟩] ∉ g₃.alternatives ⟨'A'⟩))) = some ([], true) := by
    decide +kernel
  rw [hg₃] at hdropped
  obtain ⟨hnone, hunit⟩ := Prod.mk.inj (Option.some.inj hdropped)
  refine ⟨hbinary, by decide +kernel, g₃, hg₃, fun w => ?_, ?_, hnone, of_decide_eq_true hunit⟩
  · rw [hS, ← hlisted]
    rfl
  · refine (hpairs ⟨'A'⟩ ⟨'B'⟩ ⟨'x'⟩).mpr ⟨⟨'S'⟩, ⟨'x'⟩, by decide +kernel, ?_, ?_⟩
    · rw [MayReplace, if_pos (by decide +kernel)]
      refine ⟨members, hget, ?_⟩
      rw [← OrderedSet.mem_toList, hlisted]
      decide
    · rw [MayReplace, if_neg (by decide +kernel)]

end Grammar

end ChomskyForm
