import ChomskyForm.NormalForm.StartRules
import ChomskyForm.Proofs.Analysis.UnitClosure
import ChomskyForm.Proofs.Coherence
import ChomskyForm.Proofs.Outcome
import ChomskyForm.Proofs.Simulation

/-!
# Copying productions into the start symbol

The start symbol ends up with the productions of some symbols of its closure (`copySources`), and
nothing else changes (`completeStart_completed`).  Other productions may mention the start symbol and
would gain words with it; where the binary productions are closed under taking instances they had
these words before, so that only the words of the start symbol change (`Completed.generates_start_iff`).
-/

namespace ChomskyForm

namespace Grammar

variable {g g₄ : Grammar}

/-! ### What the stage does -/

/-- The symbols whose productions the start symbol has in the end, given the other members of its
closure. -/
def copySources (g : Grammar) (mode : ClosureCopy) (members : List Symbol) : List Symbol :=
  match mode with
  | .everyMember => g.start :: members
  | .whileEmpty => ((g.start :: members).find? fun m => g.alternatives m ≠ []).toList

/-- The grammar `g₄` is `g` but for the start symbol, which has the productions of the sources. -/
structure Completed (g : Grammar) (sources : List Symbol) (g₄ : Grammar) : Prop where
  start : g₄.start = g.start
  pool : g₄.pool = g.pool
  vocabulary : g₄.vocabulary = g.vocabulary
  keys : ∀ s, s ∈ g₄.rules ↔ s ∈ g.rules ∨ s = g.start
  others : ∀ s, s ≠ g.start → ∀ rhs, rhs ∈ g₄.alternatives s ↔ rhs ∈ g.alternatives s
  own : ∀ rhs, rhs ∈ g₄.alternatives g.start ↔ ∃ m ∈ sources, rhs ∈ g.alternatives m

theorem outcome_copyRules (source : Symbol) (rhss : List RightSide) (g : Grammar) :
    (copyRules source rhss g).outcome = .ok (g.addAll (rhss.map fun rhs => (g.start, rhs))) := by
  induction rhss generalizing g with
  | nil => rfl
  | cons rhs rhss ih =>
    rw [copyRules, List.foldlM_cons, Noted.outcome_bind]
    cases g.has g.start rhs with
    | false => exact ih (g.add g.start rhs)
    | true => exact ih (g.add g.start rhs)

theorem eq_copied_of_mem_copyRules {source : Symbol} {rhss : List RightSide} {n : Notice}
    (h : n ∈ (copyRules source rhss g).notices) : n = .copied source g.start := by
  induction rhss generalizing g with
  | nil => exact absurd h List.not_mem_nil
  | cons rhs rhss ih =>
    rw [copyRules, List.foldlM_cons] at h
    cases hhas : g.has g.start rhs with
    | true =>
      simp only [hhas] at h
      exact ih (g := g.add g.start rhs) h
    | false =>
      simp only [hhas] at h
      rcases List.mem_append.mp h with h | h
      · exact List.mem_singleton.mp h
      · exact ih (g := g.add g.start rhs) h

theorem eq_nil_iff_of_forall_mem_iff {α : Type} {l l' : List α} (h : ∀ a, a ∈ l ↔ a ∈ l') :
    l = [] ↔ l' = [] := by
  simp only [List.eq_nil_iff_forall_not_mem, h]

/-- The first of the symbols with productions. -/
theorem exists_find?_cons_iff {s : Symbol} {l : List Symbol} {rhs : RightSide} :
    (∃ m ∈ ((s :: l).find? fun m => g.alternatives m ≠ []).toList, rhs ∈ g.alternatives m) ↔
      rhs ∈ g.alternatives s ∨ (g.alternatives s = [] ∧
        ∃ m ∈ (l.find? fun m => g.alternatives m ≠ []).toList, rhs ∈ g.alternatives m) := by
  by_cases hempty : g.alternatives s = []
  · have hs : ¬(decide (g.alternatives s ≠ []) = true) := by
      rw [decide_eq_true_eq]
      exact not_not_intro hempty
    rw [List.find?_cons_of_neg (p := fun m => g.alternatives m ≠ []) hs]
    simp only [hempty, List.not_mem_nil, false_or, true_and]
  · have hs : decide (g.alternatives s ≠ []) = true := decide_eq_true hempty
    rw [List.find?_cons_of_pos (p := fun m => g.alternatives m ≠ []) hs]
    simp only [Option.toList_some, List.mem_singleton, exists_eq_left, hempty, false_and, or_false]

/-- The start symbol is its own source where nothing is left to copy. -/
theorem exists_copySources_iff_of_stop {mode : ClosureCopy} {members : List Symbol}
    (h : members = [] ∨ (mode = .whileEmpty ∧ g.alternatives g.start ≠ [])) (rhs : RightSide) :
    (∃ m ∈ g.copySources mode members, rhs ∈ g.alternatives m) ↔
      rhs ∈ g.alternatives g.start := by
  cases mode with
  | everyMember =>
    have hmembers : members = [] := by
      rcases h with h | ⟨h, _⟩
      · exact h
      · cases h
    simp only [copySources, hmembers, List.mem_singleton, exists_eq_left]
  | whileEmpty =>
    simp only [copySources]
    rw [exists_find?_cons_iff]
    refine or_iff_left ?_
    rintro ⟨hempty, m, hm, _⟩
    rcases h with h | ⟨_, hfull⟩
    · rw [h, List.find?_nil, Option.toList_none] at hm
      exact List.not_mem_nil hm
    · exact hfull hempty

/-- One member gives the start symbol its productions. -/
theorem completed_of_copyRules {source : Symbol} {g₁ : Grammar} (hkey : g.start ∈ g.rules)
    (hexp : g.start ∈ g.vocabulary)
    (h : (copyRules source (g.alternatives source) g).outcome = .ok g₁) :
    Completed g [g.start, source] g₁ := by
  rw [outcome_copyRules, Except.ok.injEq] at h
  have hsides : ∀ p ∈ (g.alternatives source).map fun rhs => (g.start, rhs), p.1 = g.start := by
    intro p hp
    obtain ⟨rhs, _, hp⟩ := List.mem_map.mp hp
    rw [← hp]
  subst h
  refine ⟨start_addAll .., pool_addAll .., ?_, fun s => ?_, fun s hs rhs => ?_, fun rhs => ?_⟩
  · refine vocabulary_addAll_of_mem fun p hp => ?_
    rw [hsides p hp]
    exact hexp
  · rw [mem_rules_addAll]
    constructor
    · intro hs
      refine hs.imp_right fun hs => ?_
      obtain ⟨p, hp, hs⟩ := List.mem_map.mp hs
      rw [← hs, hsides p hp]
    · intro hs
      rcases hs with hs | hs
      · exact Or.inl hs
      · rw [hs]
        exact Or.inl hkey
  · rw [mem_alternatives_addAll]
    exact or_iff_left fun hp => hs (hsides _ hp)
  · rw [mem_alternatives_addAll, List.mem_map]
    simp only [Prod.mk.injEq, true_and, exists_eq_right, List.exists_mem_cons_iff, List.not_mem_nil,
      false_and, exists_false, or_false]

/-- After one member has been copied, the sources of what is left are the sources of the whole. -/
theorem exists_copySources_cons_iff {mode : ClosureCopy} {source : Symbol} {members : List Symbol}
    {g₁ : Grammar} (h : Completed g [g.start, source] g₁) (hmembers : g.start ∉ members)
    (hmode : ¬(mode = .whileEmpty ∧ g.alternatives g.start ≠ [])) (rhs : RightSide) :
    (∃ m ∈ g₁.copySources mode members, rhs ∈ g₁.alternatives m) ↔
      ∃ m ∈ g.copySources mode (source :: members), rhs ∈ g.alternatives m := by
  have hne : ∀ m ∈ members, m ≠ g.start := by
    intro m hm hms
    rw [hms] at hm
    exact hmembers hm
  have hown : ∀ r, r ∈ g₁.alternatives g.start ↔
      r ∈ g.alternatives g.start ∨ r ∈ g.alternatives source := by
    intro r
    rw [h.own]
    simp only [List.exists_mem_cons_iff, List.not_mem_nil, false_and, exists_false, or_false]
  cases mode with
  | everyMember =>
    have hrest : (∃ m ∈ members, rhs ∈ g₁.alternatives m) ↔
        ∃ m ∈ members, rhs ∈ g.alternatives m :=
      exists_congr fun m => and_congr_right fun hm => h.others m (hne m hm) rhs
    simp only [copySources, h.start, List.exists_mem_cons_iff, hown, hrest, or_assoc]
  | whileEmpty =>
    have hempty : g.alternatives g.start = [] := by
      by_contra hfull
      exact hmode ⟨rfl, hfull⟩
    have hcopied : ∀ r, r ∈ g₁.alternatives g.start ↔ r ∈ g.alternatives source := by
      intro r
      rw [hown, hempty]
      exact or_iff_right List.not_mem_nil
    have hfind : members.find? (fun m => g₁.alternatives m ≠ []) =
        members.find? (fun m => g.alternatives m ≠ []) := by
      rw [← List.head?_filter, ← List.head?_filter]
      refine congrArg _ (List.filter_congr fun m hm => ?_)
      simp only [ne_eq, eq_nil_iff_of_forall_mem_iff (h.others m (hne m hm))]
    have hrest : (∃ m ∈ (members.find? fun m => g.alternatives m ≠ []).toList,
          rhs ∈ g₁.alternatives m) ↔
        ∃ m ∈ (members.find? fun m => g.alternatives m ≠ []).toList, rhs ∈ g.alternatives m := by
      refine exists_congr fun m => and_congr_right fun hm => h.others m (hne m ?_) rhs
      exact List.mem_of_find?_eq_some (Option.mem_toList.mp hm)
    simp only [copySources, h.start]
    rw [exists_find?_cons_iff, exists_find?_cons_iff, exists_find?_cons_iff, hcopied, hfind, hrest,
      eq_nil_iff_of_forall_mem_iff hcopied]
    simp only [hempty, List.not_mem_nil, false_or, true_and]

theorem completed_of_stop {mode : ClosureCopy} {members : List Symbol} (hkey : g.start ∈ g.rules)
    (h : members = [] ∨ (mode = .whileEmpty ∧ g.alternatives g.start ≠ [])) :
    Completed g (g.copySources mode members) g where
  start := rfl
  pool := rfl
  vocabulary := rfl
  keys s := by
    refine (or_iff_left_of_imp fun hs => ?_).symm
    rw [hs]
    exact hkey
  others _ _ _ := Iff.rfl
  own rhs := (exists_copySources_iff_of_stop h rhs).symm

theorem copyMembers_completed {mode : ClosureCopy} {members : List Symbol}
    (hmembers : g.start ∉ members) (hkey : g.start ∈ g.rules) (hexp : g.start ∈ g.vocabulary)
    (h : (copyMembers mode members g).outcome = .ok g₄) :
    Completed g (g.copySources mode members) g₄ := by
  induction members generalizing g with
  | nil =>
    cases h
    exact completed_of_stop hkey (Or.inl rfl)
  | cons source members ih =>
    rw [List.mem_cons, not_or] at hmembers
    rw [copyMembers] at h
    by_cases hmode : mode = .whileEmpty ∧ g.alternatives g.start ≠ []
    · rw [if_pos hmode] at h
      cases h
      exact completed_of_stop hkey (Or.inr hmode)
    · rw [if_neg hmode] at h
      obtain ⟨g₁, hcopy, hnext⟩ := Noted.outcome_bind_eq_ok_iff.mp h
      have hone := completed_of_copyRules hkey hexp hcopy
      have hrest := ih (g := g₁) (by rw [hone.start]; exact hmembers.2)
        (by rw [hone.start, hone.keys]; exact Or.inr rfl)
        (by rw [hone.start, hone.vocabulary]; exact hexp) hnext
      refine ⟨hrest.start.trans hone.start, hrest.pool.trans hone.pool,
        hrest.vocabulary.trans hone.vocabulary, ?_, ?_, ?_⟩
      · intro s
        rw [hrest.keys, hone.keys, hone.start, or_assoc, or_self]
      · intro s hs rhs
        have hs₁ : s ≠ g₁.start := by
          rw [hone.start]
          exact hs
        rw [hrest.others s hs₁, hone.others s hs]
      · intro rhs
        rw [← hone.start, hrest.own]
        exact exists_copySources_cons_iff hone hmembers.2 hmode rhs

theorem start_mem_of_completeStart {D : UnitClosure} {mode : ClosureCopy}
    (h : (g.completeStart D mode).outcome = .ok g₄) : g.start ∈ D := by
  rw [completeStart] at h
  cases hget : D.get? g.start with
  | none =>
    rw [hget] at h
    cases h
  | some members => exact OrderedMap.mem_iff_get?.mpr ⟨members, hget⟩

theorem exists_copyMembers_eq_ok (mode : ClosureCopy) (members : List Symbol) (g : Grammar) :
    ∃ g₄, (copyMembers mode members g).outcome = .ok g₄ := by
  induction members generalizing g with
  | nil => exact ⟨g, rfl⟩
  | cons source members ih =>
    rw [copyMembers]
    split
    · exact ⟨g, rfl⟩
    · obtain ⟨g₄, hg₄⟩ := ih (g.addAll ((g.alternatives source).map fun rhs => (g.start, rhs)))
      exact ⟨g₄, Noted.outcome_bind_eq_ok_iff.mpr ⟨_, outcome_copyRules .., hg₄⟩⟩

theorem exists_completeStart_eq_ok {D : UnitClosure} (mode : ClosureCopy) (h : g.start ∈ D) :
    ∃ g₄, (g.completeStart D mode).outcome = .ok g₄ := by
  obtain ⟨members, hget⟩ := OrderedMap.mem_iff_get?.mp h
  rw [completeStart, hget]
  exact exists_copyMembers_eq_ok mode _ _

theorem completeStart_eq_error {D : UnitClosure} (mode : ClosureCopy) (h : g.start ∉ D) :
    (g.completeStart D mode).outcome = .error (.missingClosure g.start) := by
  rw [completeStart, OrderedMap.get?_eq_none_iff.mpr h]
  rfl

/-- The stage copies from the start symbol's closure, less the start symbol itself. -/
theorem completeStart_completed {D : UnitClosure} {mode : ClosureCopy}
    (hexp : g.start ∈ g.vocabulary) (h : (g.completeStart D mode).outcome = .ok g₄) :
    ∃ members, D.get? g.start = some members ∧
      Completed g (g.copySources mode (members.erase g.start).toList) g₄ := by
  rw [completeStart] at h
  cases hget : D.get? g.start with
  | none =>
    rw [hget] at h
    cases h
  | some members =>
    rw [hget] at h
    refine ⟨members, rfl, ?_⟩
    let g' : Grammar := { g with rules := g.rules.withKey g.start }
    have hmembers : g.start ∉ (members.erase g.start).toList := by
      intro hmem
      exact (OrderedSet.mem_erase.mp hmem).2 rfl
    have hkeys : ∀ s, s ∈ g'.rules ↔ s ∈ g.rules ∨ s = g.start := fun s => RuleTable.mem_withKey
    have halternatives : ∀ s, g'.alternatives s = g.alternatives s :=
      RuleTable.alternatives_withKey g.rules g.start
    have hsources : g'.copySources mode (members.erase g.start).toList =
        g.copySources mode (members.erase g.start).toList := by
      simp only [copySources, halternatives]
      rfl
    have hcopied := copyMembers_completed (g := g') hmembers ((hkeys _).mpr (Or.inr rfl)) hexp h
    refine ⟨hcopied.start, hcopied.pool, hcopied.vocabulary, ?_, ?_, ?_⟩
    · intro s
      rw [hcopied.keys, hkeys, or_assoc, or_self]
    · intro s hs rhs
      rw [hcopied.others s hs, halternatives]
    · intro rhs
      have hown := hcopied.own rhs
      simp only [hsources, halternatives] at hown
      exact hown

/-! ### What the stage keeps -/

namespace Completed

variable {sources : List Symbol}

theorem exists_mem_alternatives (h : Completed g sources g₄) {s : Symbol} {rhs : RightSide}
    (hrhs : rhs ∈ g₄.alternatives s) : ∃ m, rhs ∈ g.alternatives m := by
  by_cases hs : s = g.start
  · rw [hs] at hrhs
    obtain ⟨m, _, hm⟩ := (h.own rhs).mp hrhs
    exact ⟨m, hm⟩
  · exact ⟨s, (h.others s hs rhs).mp hrhs⟩

theorem uses (h : Completed g sources g₄) {s : Symbol} (huses : g₄.Uses s) : g.Uses s := by
  obtain ⟨_, rhs, hrhs, hs⟩ := huses
  obtain ⟨m, hm⟩ := h.exists_mem_alternatives hrhs
  exact uses_of_mem hm hs

theorem madeFrom (h : Completed g sources g₄) (hkeys : ∀ s ∈ g.rules, s ∈ g.vocabulary)
    (hexp : g.start ∈ g.vocabulary) : MadeFrom g [] g₄ where
  start := h.start
  pool := by rw [h.pool]; rfl
  keys s hs := by
    rw [h.vocabulary]
    rcases (h.keys s).mp hs with hs | hs
    · exact hkeys s hs
    · rw [hs]
      exact hexp
  vocabulary s hs := by
    rw [h.vocabulary] at hs
    exact Or.inl hs
  uses _ hs := Or.inl (h.uses hs)

theorem coherent (h : Completed g sources g₄) (hg : g.Coherent) (hexp : g.start ∈ g.vocabulary) :
    g₄.Coherent := hg.of_madeFrom (h.madeFrom hg.keys hexp)

theorem start_mem (h : Completed g sources g₄) : g₄.start ∈ g₄.rules := by
  rw [h.keys, h.start]
  exact Or.inr rfl

theorem isBinary (h : Completed g sources g₄) (hbinary : g.IsBinary) : g₄.IsBinary := by
  rw [isBinary_iff] at hbinary ⊢
  intro s rhs hrhs
  obtain ⟨m, hm⟩ := h.exists_mem_alternatives hrhs
  exact hbinary m rhs hm

theorem isEmptyFree (h : Completed g sources g₄) (hfree : g.IsEmptyFree) : g₄.IsEmptyFree := by
  rw [isEmptyFree_iff] at hfree ⊢
  intro s rhs hrhs
  obtain ⟨m, hm⟩ := h.exists_mem_alternatives hrhs
  exact hfree m rhs hm

theorem isUnitFree (h : Completed g sources g₄) (hfree : g.IsUnitFree) : g₄.IsUnitFree := by
  rw [isUnitFree_iff] at hfree ⊢
  intro s rhs hrhs
  obtain ⟨m, hm⟩ := h.exists_mem_alternatives hrhs
  rw [h.vocabulary]
  exact hfree m rhs hm

theorem alternatives_ne_nil (h : Completed g sources g₄)
    (hfull : ∀ s ∈ g.rules, s ≠ g.start → g.alternatives s ≠ []) {s : Symbol} (hs : s ∈ g₄.rules)
    (hne : s ≠ g₄.start) : g₄.alternatives s ≠ [] := by
  rw [h.start] at hne
  have hold := hfull s (((h.keys s).mp hs).resolve_right hne) hne
  intro hempty
  exact hold ((eq_nil_iff_of_forall_mem_iff (h.others s hne)).mp hempty)

/-! ### Words -/

section Words

variable {g₀ : Grammar} (h : Completed g sources g₄)
  (hsaturated : ∀ s l r l' r', [l, r] ∈ g.alternatives s → g₀.StandsFor l l' →
    g₀.StandsFor r r' → [l', r'] ∈ g.alternatives s)
  (hbinary : g.IsBinary) (hunit : g.IsUnitFree) (hvocabulary : g.vocabulary = g₀.vocabulary)
  (hsources : ∀ m ∈ sources, g₀.StandsFor g.start m) (hexp : g.start ∈ g.vocabulary)

/-- What a symbol of the completed grammar turns into where the start symbol has its old
productions. -/
def Restores (g : Grammar) (sources : List Symbol) (s : Symbol) (β : RightSide) : Prop :=
  ∃ t, β = [t] ∧ ((s ≠ g.start ∧ t = s) ∨ (s = g.start ∧ t ∈ sources))

include hsources in
theorem standsFor_of_restores {s t : Symbol} (hst : Restores g sources s [t]) :
    g₀.StandsFor s t := by
  obtain ⟨t', ht, hor⟩ := hst
  rw [List.singleton_inj.mp ht]
  rcases hor with ⟨_, hts⟩ | ⟨hs, hmem⟩
  · rw [hts]
    exact .refl s
  · rw [hs]
    exact hsources t' hmem

include hsaturated hbinary hunit hsources hexp in
/-- Restoring the symbols of a right side gives a right side of the same symbol. -/
theorem mem_alternatives_of_restores {m : Symbol} {rhs : RightSide} {βs : List RightSide}
    (hrhs : rhs ∈ g.alternatives m) (hβs : List.Forall₂ (Restores g sources) rhs βs) :
    βs.flatten ∈ g.alternatives m := by
  rcases hbinary.forall₂_cases hrhs hβs with
    ⟨x, rfl, t, ht, hor⟩ | ⟨x, y, _, _, rfl, hflat, ⟨x', rfl, hx'⟩, y', rfl, hy'⟩
  · rw [ht]
    rcases hor with ⟨_, hts⟩ | ⟨hxs, _⟩
    · rw [hts]
      exact hrhs
    · rw [hxs] at hrhs
      exact absurd rfl (isUnitFree_iff.mp hunit m [g.start] hrhs g.start hexp)
  · rw [hflat]
    exact hsaturated m x y x' y' hrhs (standsFor_of_restores hsources ⟨x', rfl, hx'⟩)
      (standsFor_of_restores hsources ⟨y', rfl, hy'⟩)

include h hsaturated hbinary hunit hvocabulary hsources hexp in
theorem exists_restores {s : Symbol} {w : List Symbol} (hw : g₄.Generates s w) :
    ∃ t, Restores g sources s [t] ∧ g.Generates t w := by
  have hsim := Yields.simulate_symbol (· ∈ g.vocabulary) g.rules (R := Restores g sources)
    (fun s hfixed => by
      rw [h.vocabulary] at hfixed
      have hs : s ≠ g.start := by
        intro hs
        rw [hs] at hfixed
        exact hfixed hexp
      exact ⟨[s], ⟨s, rfl, Or.inl ⟨hs, rfl⟩⟩, .of_fixed hfixed⟩)
    (fun s hs rhs hrhs βs u hβs hu => by
      rw [h.vocabulary] at hs
      by_cases hstart : s = g.start
      · rw [hstart] at hrhs
        obtain ⟨m, hm, hrhs⟩ := (h.own rhs).mp hrhs
        have hnew := mem_alternatives_of_restores hsaturated hbinary hunit hsources hexp hrhs hβs
        have hmv : m ∈ g.vocabulary := by
          rw [hvocabulary, (hsources m hm).mem_iff, ← hvocabulary]
          exact hexp
        exact ⟨[m], ⟨m, rfl, Or.inr ⟨hstart, hm⟩⟩, .of_alternative hmv hnew hu⟩
      · have hold := (h.others s hstart rhs).mp hrhs
        have hnew := mem_alternatives_of_restores hsaturated hbinary hunit hsources hexp hold hβs
        exact ⟨[s], ⟨s, rfl, Or.inl ⟨hstart, rfl⟩⟩, .of_alternative hs hnew hu⟩)
    hw
  obtain ⟨_, ⟨t, rfl, ht⟩, hyield⟩ := hsim
  exact ⟨t, ⟨t, rfl, ht⟩, hyield⟩

variable (hown : ∀ rhs ∈ g.alternatives g.start, ∃ m ∈ sources, rhs ∈ g.alternatives m)

include h hown in
theorem mem_alternatives_of_mem {s : Symbol} {rhs : RightSide} (hrhs : rhs ∈ g.alternatives s) :
    rhs ∈ g₄.alternatives s := by
  by_cases hs : s = g.start
  · rw [hs] at hrhs ⊢
    exact (h.own rhs).mpr (hown rhs hrhs)
  · exact (h.others s hs rhs).mpr hrhs

include h hsaturated hbinary hunit hvocabulary hsources hexp hown in
/-- A symbol other than the start symbol keeps its words. -/
theorem generates_iff_of_ne {s : Symbol} {w : List Symbol} (hs : s ≠ g.start) :
    g₄.Generates s w ↔ g.Generates s w := by
  constructor
  · intro hw
    obtain ⟨t, ⟨t', ht, hor⟩, hyield⟩ :=
      h.exists_restores hsaturated hbinary hunit hvocabulary hsources hexp hw
    rcases hor with ⟨_, hts⟩ | ⟨hstart, _⟩
    · rw [List.singleton_inj.mp ht, hts] at hyield
      exact hyield
    · exact absurd hstart hs
  · intro hw
    rw [Generates, h.vocabulary]
    exact hw.mono fun _ _ hrhs => h.mem_alternatives_of_mem hown hrhs

include h hsaturated hbinary hunit hvocabulary hsources hexp hown in
/-- The start symbol gets the words of its sources. -/
theorem generates_start_iff {w : List Symbol} :
    g₄.Generates g.start w ↔ ∃ m ∈ sources, g.Generates m w := by
  constructor
  · intro hw
    obtain ⟨t, ⟨t', ht, hor⟩, hyield⟩ :=
      h.exists_restores hsaturated hbinary hunit hvocabulary hsources hexp hw
    rw [List.singleton_inj.mp ht] at hyield
    rcases hor with ⟨hne, _⟩ | ⟨_, hmem⟩
    · exact absurd rfl hne
    · exact ⟨t', hmem, hyield⟩
  · rintro ⟨m, hm, hw⟩
    have hmv : m ∈ g.vocabulary := by
      rw [hvocabulary, (hsources m hm).mem_iff, ← hvocabulary]
      exact hexp
    rcases yields_singleton_iff.mp hw with ⟨hfixed, _⟩ | ⟨_, rhs, hrhs, hyield⟩
    · exact absurd hmv hfixed
    · rw [Generates, h.vocabulary]
      exact .of_alternative hexp ((h.own rhs).mpr ⟨m, hm, hrhs⟩)
        (hyield.mono fun _ _ hrhs => h.mem_alternatives_of_mem hown hrhs)

end Words

end Completed

/-! ### The sources of either mode -/

theorem mem_copySources {mode : ClosureCopy} {members : List Symbol} {m : Symbol}
    (hm : m ∈ g.copySources mode members) : m = g.start ∨ m ∈ members := by
  cases mode with
  | everyMember => exact List.mem_cons.mp hm
  | whileEmpty => exact List.mem_cons.mp (List.mem_of_find?_eq_some (Option.mem_toList.mp hm))

theorem exists_mem_copySources (mode : ClosureCopy) (members : List Symbol) {rhs : RightSide}
    (hrhs : rhs ∈ g.alternatives g.start) :
    ∃ m ∈ g.copySources mode members, rhs ∈ g.alternatives m := by
  cases mode with
  | everyMember => exact ⟨g.start, List.mem_cons_self .., hrhs⟩
  | whileEmpty => exact exists_find?_cons_iff.mpr (Or.inl hrhs)

end Grammar

end ChomskyForm
