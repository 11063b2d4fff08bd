import ChomskyForm.NormalForm.EmptyFree
import ChomskyForm.NormalForm.Shape
import ChomskyForm.Proofs.Analysis.Dead
import ChomskyForm.Proofs.Analysis.Grounded
import ChomskyForm.Proofs.Coherence

/-!
# Dropping empty right sides

In a binary grammar the bypasses make up for the dropped markers: each symbol keeps its words but for
the empty one (`generates_compensated_iff`).  The dead symbols that are dropped next have no word at
that time (`drops_dead`), so the whole stage just takes the empty word away
(`generates_dropEmpty_iff`).
-/

namespace ChomskyForm

/-- Where no right side is empty or has the marker, no symbol derives less than one symbol. -/
theorem Yields.length_le {N : Symbol → Prop} {rules : RuleTable}
    (hrules : ∀ s, ∀ rhs ∈ rules.alternatives s, rhs ≠ [] ∧ Symbol.marker ∉ rhs)
    {α : RightSide} {w : List Symbol} (h : Yields N rules α w) (hα : Symbol.marker ∉ α) :
    α.length ≤ w.length := by
  induction h with
  | nil => exact Nat.le_refl _
  | @terminal s rest w fixed tail ih =>
    rw [List.mem_cons, not_or] at hα
    have hs : s.spelled = [s] := Symbol.spelled_of_ne (Ne.symm hα.1)
    have htail := ih hα.2
    rw [hs, List.length_append, List.length_cons, List.length_singleton]
    omega
  | @nonterminal s rhs rest u w expanded choice head tail ihHead ihTail =>
    rw [List.mem_cons, not_or] at hα
    obtain ⟨hne, hmarker⟩ := hrules s rhs choice
    have hpos := List.length_pos_of_ne_nil hne
    have hhead := ihHead hmarker
    have htail := ihTail hα.2
    rw [List.length_append, List.length_cons]
    omega

namespace Grammar

variable {g : Grammar}

/-! ### The productions after the two steps -/

theorem mem_alternatives_dropMarkers {s : Symbol} {rhs : RightSide} :
    rhs ∈ g.dropMarkers.alternatives s ↔ rhs ∈ g.alternatives s ∧ rhs ≠ [Symbol.marker] := by
  rw [alternatives, dropMarkers, RuleTable.alternatives_filterAlternatives, List.mem_filter]
  simp only [RightSide.isMarker, Bool.not_eq_true', decide_eq_false_iff_not]
  rfl

/-- A production that makes up for a nullable side. -/
inductive IsBypass (g : Grammar) : Symbol → RightSide → Prop
  | left {s x y : Symbol} (whole : [x, y] ∈ g.alternatives s) (nullable : x ∈ g.rules.nullable)
      (ne : s ≠ y) : IsBypass g s [y]
  | right {s x y : Symbol} (whole : [x, y] ∈ g.alternatives s) (nullable : y ∈ g.rules.nullable)
      (ne : s ≠ x) (distinct : x ≠ y) : IsBypass g s [x]

theorem mem_bypasses_iff {s : Symbol} {rhs : RightSide} :
    (s, rhs) ∈ g.dropMarkers.rules.bypasses g.rules.nullable ↔ g.IsBypass s rhs := by
  have hpair : ∀ x y : Symbol, [x, y] ≠ [Symbol.marker] := by
    intro x y h
    cases h
  rw [RuleTable.bypasses, List.mem_flatMap]
  constructor
  · rintro ⟨⟨lhs, whole⟩, hwhole, hmem⟩
    have halt := mem_alternatives_dropMarkers.mp (RuleTable.mem_productions_iff.mp hwhole)
    match whole with
    | [] | [_] | _ :: _ :: _ :: _ => exact absurd hmem List.not_mem_nil
    | [x, y] =>
      rcases List.mem_append.mp hmem with hmem | hmem
      · split at hmem
        · rename_i hcond
          cases List.mem_singleton.mp hmem
          exact .left halt.1 hcond.1 hcond.2
        · exact absurd hmem List.not_mem_nil
      · split at hmem
        · rename_i hcond
          cases List.mem_singleton.mp hmem
          exact .right halt.1 hcond.1 hcond.2.1 hcond.2.2
        · exact absurd hmem List.not_mem_nil
  · intro h
    cases h with
    | @left x y whole nullable ne =>
      have hwhole := mem_alternatives_dropMarkers.mpr ⟨whole, hpair x y⟩
      refine ⟨(s, [x, y]), RuleTable.mem_productions_iff.mpr hwhole, List.mem_append_left _ ?_⟩
      rw [if_pos ⟨nullable, ne⟩]
      exact List.mem_singleton.mpr rfl
    | @right x y whole nullable ne distinct =>
      have hwhole := mem_alternatives_dropMarkers.mpr ⟨whole, hpair x y⟩
      refine ⟨(s, [x, y]), RuleTable.mem_productions_iff.mpr hwhole, List.mem_append_right _ ?_⟩
      rw [if_pos ⟨nullable, ne, distinct⟩]
      exact List.mem_singleton.mpr rfl

theorem IsBypass.mem_rules {s : Symbol} {rhs : RightSide} (h : g.IsBypass s rhs) : s ∈ g.rules := by
  cases h with
  | left whole _ _ => exact mem_of_mem_alternatives whole
  | right whole _ _ _ => exact mem_of_mem_alternatives whole

theorem IsBypass.exists_whole {s : Symbol} {rhs : RightSide} (h : g.IsBypass s rhs) :
    rhs.length = 1 ∧ ∃ whole ∈ g.alternatives s, whole.length = 2 ∧ ∀ t ∈ rhs, t ∈ whole := by
  cases h with
  | @left x y whole _ _ =>
    refine ⟨rfl, [x, y], whole, rfl, fun t ht => ?_⟩
    exact List.mem_cons_of_mem _ ht
  | @right x y whole _ _ _ =>
    refine ⟨rfl, [x, y], whole, rfl, fun t ht => ?_⟩
    rw [List.mem_singleton.mp ht]
    exact List.mem_cons_self ..

theorem mem_alternatives_compensated {s : Symbol} {rhs : RightSide} :
    rhs ∈ g.compensated.alternatives s ↔
      (rhs ∈ g.alternatives s ∧ rhs ≠ [Symbol.marker]) ∨ g.IsBypass s rhs := by
  rw [compensated, mem_alternatives_addAll, mem_alternatives_dropMarkers, mem_bypasses_iff]

theorem mem_rules_compensated {s : Symbol} : s ∈ g.compensated.rules ↔ s ∈ g.rules := by
  rw [compensated, mem_rules_addAll]
  have hkeys : s ∈ g.dropMarkers.rules ↔ s ∈ g.rules := RuleTable.mem_filterAlternatives
  rw [hkeys]
  refine or_iff_left_of_imp ?_
  intro hs
  obtain ⟨⟨lhs, rhs⟩, hp, rfl⟩ := List.mem_map.mp hs
  exact (mem_bypasses_iff.mp hp).mem_rules

theorem vocabulary_compensated (hkeys : ∀ s ∈ g.rules, s ∈ g.vocabulary) :
    g.compensated.vocabulary = g.vocabulary := by
  refine vocabulary_addAll_of_mem (g := g.dropMarkers) ?_
  rintro ⟨lhs, rhs⟩ hp
  exact hkeys lhs (mem_bypasses_iff.mp hp).mem_rules

theorem start_compensated : g.compensated.start = g.start := start_addAll ..

theorem pool_compensated : g.compensated.pool = g.pool := pool_addAll ..

theorem mem_alternatives_dropSymbols {dead : OrderedSet Symbol} {s : Symbol} {rhs : RightSide} :
    rhs ∈ (g.dropSymbols dead).alternatives s ↔
      rhs ∈ g.alternatives s ∧ (s ∉ dead ∨ s = g.start) ∧ ∀ t ∈ rhs, t ∉ dead := by
  rw [alternatives, dropSymbols, RuleTable.alternatives_filterAlternatives, List.mem_filter,
    RuleTable.mem_alternatives_filterKeys, decide_eq_true_eq, RightSide.not_mentions_iff, and_assoc]
  rfl

theorem mem_rules_dropSymbols {dead : OrderedSet Symbol} {s : Symbol} :
    s ∈ (g.dropSymbols dead).rules ↔ s ∈ g.rules ∧ (s ∉ dead ∨ s = g.start) := by
  rw [dropSymbols, RuleTable.mem_filterAlternatives, RuleTable.mem_filterKeys, decide_eq_true_eq]

theorem mem_vocabulary_dropSymbols {dead : OrderedSet Symbol} {s : Symbol} :
    s ∈ (g.dropSymbols dead).vocabulary ↔ s ∈ g.vocabulary ∧ (s ∉ dead ∨ s = g.start) := by
  rw [dropSymbols, OrderedSet.mem_filter, decide_eq_true_eq]

/-! ### Words after the bypasses -/

theorem yields_nil_of_mem_nullable (hkeys : ∀ s ∈ g.rules, s ∈ g.vocabulary)
    (hexcluded : Symbol.marker ∉ g.vocabulary) {s : Symbol} (hs : s ∈ g.rules.nullable) :
    Yields (· ∈ g.vocabulary) g.rules [s] [] := by
  have hkey : s ∈ g.rules := (RuleTable.mem_grounded_iff.mp hs).mem_rules
  exact (RuleTable.mem_nullable_iff hkeys hexcluded (hkeys s hkey)).mp hs

theorem mem_nullable_of_alternative {s : Symbol} {rhs : RightSide}
    (hrhs : rhs ∈ g.alternatives s)
    (h : ∀ t ∈ rhs, t = Symbol.marker ∨ t ∈ g.rules.nullable) : s ∈ g.rules.nullable := by
  refine RuleTable.mem_grounded_iff.mpr (.intro hrhs fun t ht hbase => ?_)
  rcases h t ht with hmarker | hnull
  · rw [hmarker] at hbase
    exact absurd (decide_eq_true rfl) hbase
  · exact RuleTable.mem_grounded_iff.mp hnull

theorem markerFree_compensated (hmarker : g.MarkerAlone) {s : Symbol} {rhs : RightSide}
    (hrhs : rhs ∈ g.compensated.alternatives s) : rhs ≠ [] ∧ Symbol.marker ∉ rhs := by
  rcases mem_alternatives_compensated.mp hrhs with ⟨hold, hne⟩ | hbypass
  · obtain ⟨hnil, halone⟩ := hmarker s rhs hold
    exact ⟨hnil, fun hmem => hne (halone hmem)⟩
  · obtain ⟨hone, whole, hwhole, htwo, hsub⟩ := hbypass.exists_whole
    refine ⟨?_, ?_⟩
    · rintro rfl
      cases hone
    · intro hmem
      have heq := (hmarker s whole hwhole).2 (hsub _ hmem)
      rw [heq] at htwo
      cases htwo

theorem generates_of_compensated (hkeys : ∀ s ∈ g.rules, s ∈ g.vocabulary)
    (hexcluded : Symbol.marker ∉ g.vocabulary) {α : RightSide} {w : List Symbol}
    (h : Yields (· ∈ g.vocabulary) g.compensated.rules α w) :
    Yields (· ∈ g.vocabulary) g.rules α w := by
  refine h.transfer (Q := fun _ => True) (fun _ _ _ _ _ _ _ => trivial) (fun _ _ hfixed => hfixed)
    ?_ fun _ _ => trivial
  intro s _ hexp rhs hrhs u hu
  rcases mem_alternatives_compensated.mp hrhs with ⟨hold, _⟩ | hbypass
  · exact .of_alternative hexp hold hu
  · cases hbypass with
    | left whole nullable _ =>
      exact .of_alternative hexp whole ((yields_nil_of_mem_nullable hkeys hexcluded nullable).append hu)
    | right whole nullable _ _ =>
      have hboth := hu.append (yields_nil_of_mem_nullable hkeys hexcluded nullable)
      rw [List.append_nil] at hboth
      exact .of_alternative hexp whole hboth

/-- In a derivation a symbol stays, or it goes because it stands for the empty word. -/
def Thins (g : Grammar) (s : Symbol) (β : RightSide) : Prop :=
  (β = [s] ∧ s ≠ Symbol.marker) ∨ (β = [] ∧ (s = Symbol.marker ∨ s ∈ g.rules.nullable))

section

variable {s x y : Symbol} {rhs ρ : RightSide} {u : List Symbol}

theorem thins_of_stay (hs : s ≠ Symbol.marker) (hexp : s ∈ g.vocabulary)
    (hρ : ρ ∈ g.compensated.alternatives s)
    (hu : Yields (· ∈ g.vocabulary) g.compensated.rules ρ u) :
    ∃ β, g.Thins s β ∧ Yields (· ∈ g.vocabulary) g.compensated.rules β u :=
  ⟨[s], Or.inl ⟨rfl, hs⟩, .of_alternative hexp hρ hu⟩

theorem thins_of_nullable (hrhs : rhs ∈ g.alternatives s)
    (hnull : ∀ t ∈ rhs, t = Symbol.marker ∨ t ∈ g.rules.nullable)
    (hu : Yields (· ∈ g.vocabulary) g.compensated.rules [] u) :
    ∃ β, g.Thins s β ∧ Yields (· ∈ g.vocabulary) g.compensated.rules β u :=
  ⟨[], Or.inr ⟨rfl, Or.inr (mem_nullable_of_alternative hrhs hnull)⟩, hu⟩

/-- One side of a pair is enough where the other is nullable, unless it is the left side of the
production. -/
theorem mem_compensated_of_pair (hrhs : [x, y] ∈ g.alternatives s) :
    (x ∈ g.rules.nullable → s ≠ y → [y] ∈ g.compensated.alternatives s) ∧
      (y ∈ g.rules.nullable → s ≠ x → [x] ∈ g.compensated.alternatives s) := by
  have hbypass : ∀ ρ : RightSide, g.IsBypass s ρ → ρ ∈ g.compensated.alternatives s := fun ρ hρ =>
    mem_alternatives_compensated.mpr (Or.inr hρ)
  refine ⟨fun hx hsy => hbypass [y] (.left hrhs hx hsy), fun hy hsx => ?_⟩
  -- `A → BB` has only the bypass on the left
  by_cases hxy : x = y
  · rw [← hxy] at hy hrhs
    exact hbypass [x] (.left hrhs hy hsx)
  · exact hbypass [x] (.right hrhs hy hsx hxy)

theorem thins_of_bypass (hs : s ≠ Symbol.marker) (hexp : s ∈ g.vocabulary)
    (hx : s ≠ x → [x] ∈ g.compensated.alternatives s)
    (hu : Yields (· ∈ g.vocabulary) g.compensated.rules [x] u) :
    ∃ β, g.Thins s β ∧ Yields (· ∈ g.vocabulary) g.compensated.rules β u := by
  by_cases hsx : s = x
  · rw [← hsx] at hu
    exact ⟨[s], Or.inl ⟨rfl, hs⟩, hu⟩
  · exact thins_of_stay hs hexp (hx hsx) hu

/-- What is left of one production is a production of the compensated grammar, or nothing, or the
left side itself. -/
theorem thins_production (hkeys : ∀ s ∈ g.rules, s ∈ g.vocabulary)
    (hexcluded : Symbol.marker ∉ g.vocabulary) (hbinary : g.IsBinary) (hmarker : g.MarkerAlone)
    (hrhs : rhs ∈ g.alternatives s) {βs : List RightSide} (hβs : List.Forall₂ g.Thins rhs βs)
    (hu : Yields (· ∈ g.vocabulary) g.compensated.rules βs.flatten u) :
    ∃ β, g.Thins s β ∧ Yields (· ∈ g.vocabulary) g.compensated.rules β u := by
  have hexp := hkeys s (mem_of_mem_alternatives hrhs)
  have hs : s ≠ Symbol.marker := by
    rintro rfl
    exact hexcluded hexp
  have hkept : rhs ≠ [Symbol.marker] → rhs ∈ g.compensated.alternatives s := fun hne =>
    mem_alternatives_compensated.mpr (Or.inl ⟨hrhs, hne⟩)
  rcases hbinary.forall₂_cases hrhs hβs with
    ⟨x, rfl, hx⟩ | ⟨x, y, β, γ, rfl, hflat, hx, hy⟩
  · rcases hx with ⟨hflat, hx⟩ | ⟨hflat, hx⟩
    · rw [hflat] at hu
      exact thins_of_stay hs hexp (hkept fun heq => hx (List.cons.inj heq).1) hu
    · rw [hflat] at hu
      refine thins_of_nullable hrhs ?_ hu
      intro t ht
      rw [List.mem_singleton.mp ht]
      exact hx
  · have hne : [x, y] ≠ [Symbol.marker] := fun heq => by cases heq
    have hfree : Symbol.marker ∉ [x, y] := fun hmem => hne ((hmarker s _ hrhs).2 hmem)
    simp only [List.mem_cons, List.not_mem_nil, or_false, not_or] at hfree
    obtain ⟨hleft, hright⟩ := mem_compensated_of_pair hrhs
    rw [hflat] at hu
    rcases hx with ⟨rfl, _⟩ | ⟨rfl, hx⟩
    · rcases hy with ⟨rfl, _⟩ | ⟨rfl, hy⟩
      · exact thins_of_stay hs hexp (hkept hne) hu
      · exact thins_of_bypass hs hexp (hright (hy.resolve_left (Ne.symm hfree.2))) hu
    · rcases hy with ⟨rfl, _⟩ | ⟨rfl, hy⟩
      · exact thins_of_bypass hs hexp (hleft (hx.resolve_left (Ne.symm hfree.1))) hu
      · refine thins_of_nullable hrhs ?_ hu
        intro t ht
        rcases List.mem_cons.mp ht with ht | ht
        · rw [ht]
          exact hx
        · rw [List.mem_singleton.mp ht]
          exact hy

end

/-- The bypasses make up for the dropped markers in all words but the empty one. -/
theorem generates_compensated_iff (hkeys : ∀ s ∈ g.rules, s ∈ g.vocabulary)
    (hexcluded : Symbol.marker ∉ g.vocabulary) (hbinary : g.IsBinary) (hmarker : g.MarkerAlone)
    {s : Symbol} (hs : s ≠ Symbol.marker) {w : List Symbol} :
    g.compensated.Generates s w ↔ g.Generates s w ∧ w ≠ [] := by
  rw [Generates, vocabulary_compensated hkeys]
  constructor
  · intro h
    refine ⟨generates_of_compensated hkeys hexcluded h, ?_⟩
    have hlen := h.length_le (fun _ _ hrhs => markerFree_compensated hmarker hrhs)
      fun hmem => hs (List.mem_singleton.mp hmem).symm
    rintro rfl
    cases hlen
  · rintro ⟨h, hw⟩
    have hsim := Yields.simulate_symbol (· ∈ g.vocabulary) g.compensated.rules (R := g.Thins)
      (fun t hfixed => by
        by_cases ht : t = Symbol.marker
        · rw [ht, Symbol.spelled_marker]
          exact ⟨[], Or.inr ⟨rfl, Or.inl rfl⟩, .nil⟩
        · exact ⟨[t], Or.inl ⟨rfl, ht⟩, .of_fixed hfixed⟩)
      (fun _ _ _ hrhs _ _ hβs hu => thins_production hkeys hexcluded hbinary hmarker hrhs hβs hu) h
    obtain ⟨β, hβ, hyield⟩ := hsim
    rcases hβ with ⟨rfl, _⟩ | ⟨rfl, _⟩
    · exact hyield
    · exact absurd (yields_nil_iff.mp hyield) hw

/-! ### Dropping the dead symbols -/

theorem drops_dead (hkeys : ∀ s ∈ g.rules, s ∈ g.vocabulary) :
    Drops (· ∈ g.rules.dead) (· ∈ g.vocabulary) (· ∈ g.dropDead.vocabulary) g.rules
      g.dropDead.rules where
  expanded s hs := hkeys s (RuleTable.blocked_of_mem_dead hs).1
  blocked s hs := (RuleTable.blocked_of_mem_dead hs).2
  kept s hs rhs hrhs hfree := mem_alternatives_dropSymbols.mpr ⟨hrhs, Or.inl hs, hfree⟩
  only s rhs hrhs := by
    obtain ⟨hold, _, hfree⟩ := mem_alternatives_dropSymbols.mp hrhs
    exact ⟨hold, hfree⟩
  sameKind s hs := by
    rw [dropDead, mem_vocabulary_dropSymbols]
    exact and_iff_left (Or.inl hs)

theorem start_dropEmpty : g.dropEmpty.start = g.start := start_compensated

theorem pool_dropEmpty : g.dropEmpty.pool = g.pool := pool_compensated

theorem mem_vocabulary_dropEmpty (hkeys : ∀ s ∈ g.rules, s ∈ g.vocabulary) {s : Symbol} :
    s ∈ g.dropEmpty.vocabulary ↔
      s ∈ g.vocabulary ∧ (s ∉ g.compensated.rules.dead ∨ s = g.start) := by
  rw [dropEmpty, dropDead, mem_vocabulary_dropSymbols, vocabulary_compensated hkeys,
    start_compensated]

theorem mem_rules_dropEmpty {s : Symbol} :
    s ∈ g.dropEmpty.rules ↔ s ∈ g.rules ∧ (s ∉ g.compensated.rules.dead ∨ s = g.start) := by
  rw [dropEmpty, dropDead, mem_rules_dropSymbols, mem_rules_compensated, start_compensated]

theorem mem_alternatives_dropEmpty {s : Symbol} {rhs : RightSide} :
    rhs ∈ g.dropEmpty.alternatives s ↔ rhs ∈ g.compensated.alternatives s ∧
      (s ∉ g.compensated.rules.dead ∨ s = g.start) ∧ ∀ t ∈ rhs, t ∉ g.compensated.rules.dead := by
  rw [dropEmpty, dropDead, mem_alternatives_dropSymbols, start_compensated]

theorem keys_compensated (hkeys : ∀ s ∈ g.rules, s ∈ g.vocabulary) :
    ∀ s ∈ g.compensated.rules, s ∈ g.compensated.vocabulary := by
  intro s hs
  rw [vocabulary_compensated hkeys]
  exact hkeys s (mem_rules_compensated.mp hs)

section Words

variable (hkeys : ∀ s ∈ g.rules, s ∈ g.vocabulary) (hexcluded : Symbol.marker ∉ g.vocabulary)
  (hbinary : g.IsBinary) (hmarker : g.MarkerAlone)

include hkeys hexcluded hbinary hmarker

/-- The stage takes the empty word away from every nonterminal that it leaves, and no other word. -/
theorem generates_dropEmpty_iff {s : Symbol} (hs : s ∈ g.dropEmpty.vocabulary)
    {w : List Symbol} : g.dropEmpty.Generates s w ↔ g.Generates s w ∧ w ≠ [] := by
  have hexp := ((mem_vocabulary_dropEmpty hkeys).mp hs).1
  have hne : s ≠ Symbol.marker := by
    rintro rfl
    exact hexcluded hexp
  rw [← generates_compensated_iff hkeys hexcluded hbinary hmarker hne]
  exact (drops_dead (keys_compensated hkeys)).yields_symbol_iff fun _ => hs

/-- A nonterminal that the stage drops has no word but the empty one. -/
theorem eq_nil_of_generates_of_not_mem_dropEmpty {s : Symbol} (hs : s ∈ g.vocabulary)
    (hgone : s ∉ g.dropEmpty.vocabulary) {w : List Symbol} (hw : g.Generates s w) : w = [] := by
  have hne : s ≠ Symbol.marker := by
    rintro rfl
    exact hexcluded hs
  have hdead : s ∈ g.compensated.rules.dead := by
    by_contra hlive
    exact hgone ((mem_vocabulary_dropEmpty hkeys).mpr ⟨hs, Or.inl hlive⟩)
  by_contra hlong
  have hcompensated :=
    (generates_compensated_iff hkeys hexcluded hbinary hmarker hne).mpr ⟨hw, hlong⟩
  exact (drops_dead (keys_compensated hkeys)).not_yields hdead hcompensated

end Words

/-! ### What the stage keeps -/

theorem uses_dropEmpty {s : Symbol} (h : g.dropEmpty.Uses s) : g.Uses s := by
  obtain ⟨lhs, rhs, hrhs, hs⟩ := h
  rcases mem_alternatives_compensated.mp (mem_alternatives_dropEmpty.mp hrhs).1 with
    ⟨hold, _⟩ | hbypass
  · exact uses_of_mem hold hs
  · obtain ⟨_, whole, hwhole, _, hsub⟩ := hbypass.exists_whole
    exact uses_of_mem hwhole (hsub s hs)

/-- A nonterminal that is dropped is on no right side any more. -/
theorem not_uses_dropEmpty (hkeys : ∀ s ∈ g.rules, s ∈ g.vocabulary) {s : Symbol}
    (hs : s ∈ g.vocabulary) (hgone : s ∉ g.dropEmpty.vocabulary) : ¬g.dropEmpty.Uses s := by
  rintro ⟨lhs, rhs, hrhs, hmem⟩
  have hlive := (mem_alternatives_dropEmpty.mp hrhs).2.2 s hmem
  exact hgone ((mem_vocabulary_dropEmpty hkeys).mpr ⟨hs, Or.inl hlive⟩)

theorem madeFrom_dropEmpty (hkeys : ∀ s ∈ g.rules, s ∈ g.vocabulary) :
    MadeFrom g [] g.dropEmpty where
  start := start_dropEmpty
  pool := by rw [pool_dropEmpty]; rfl
  keys s hs := by
    obtain ⟨hkey, hlive⟩ := mem_rules_dropEmpty.mp hs
    exact (mem_vocabulary_dropEmpty hkeys).mpr ⟨hkeys s hkey, hlive⟩
  vocabulary _ hs := Or.inl ((mem_vocabulary_dropEmpty hkeys).mp hs).1
  uses _ hs := Or.inl (uses_dropEmpty hs)

theorem coherent_dropEmpty (hg : g.Coherent) : g.dropEmpty.Coherent :=
  hg.of_madeFrom (madeFrom_dropEmpty hg.keys)

theorem isBinary_dropEmpty (hbinary : g.IsBinary) : g.dropEmpty.IsBinary := by
  rw [isBinary_iff] at hbinary ⊢
  intro s rhs hrhs
  rcases mem_alternatives_compensated.mp (mem_alternatives_dropEmpty.mp hrhs).1 with
    ⟨hold, _⟩ | hbypass
  · exact hbinary s rhs hold
  · exact Or.inl hbypass.exists_whole.1

theorem isEmptyFree_dropEmpty (hmarker : g.MarkerAlone) : g.dropEmpty.IsEmptyFree := by
  rw [isEmptyFree_iff]
  intro s rhs hrhs
  exact (markerFree_compensated hmarker (mem_alternatives_dropEmpty.mp hrhs).1).2

theorem start_mem_dropEmpty (hstart : g.start ∈ g.rules) : g.start ∈ g.dropEmpty.rules :=
  mem_rules_dropEmpty.mpr ⟨hstart, Or.inr rfl⟩

/-- Every left side but the start symbol has an alternative left. -/
theorem alternatives_dropEmpty_ne_nil {s : Symbol} (hs : s ∈ g.dropEmpty.rules)
    (hne : s ≠ g.start) : g.dropEmpty.alternatives s ≠ [] := by
  obtain ⟨hkey, hlive⟩ := mem_rules_dropEmpty.mp hs
  have halive := hlive.resolve_right hne
  obtain ⟨rhs, hrhs, hfree⟩ :=
    RuleTable.exists_live_of_not_mem_dead (mem_rules_compensated.mpr hkey) halive
  exact List.ne_nil_of_mem (mem_alternatives_dropEmpty.mpr ⟨hrhs, hlive, hfree⟩)

/-! ### Nothing is nullable any more -/

/-- Each alternative has a symbol that is not the marker, so that nothing can be grounded first. -/
theorem nullable_eq_empty {rules : RuleTable}
    (h : ∀ s, ∀ rhs ∈ rules.alternatives s, rhs ≠ [] ∧ Symbol.marker ∉ rhs) : rules.nullable = ∅ := by
  have hnone : ∀ s, ¬Grounded (· = Symbol.marker) rules s := by
    intro s hs
    induction hs with
    | @intro s rhs choice _ ih =>
      obtain ⟨hne, hfree⟩ := h s rhs choice
      obtain ⟨t, ht⟩ := List.exists_mem_of_ne_nil rhs hne
      have hplain : t ≠ Symbol.marker := by
        rintro rfl
        exact hfree ht
      exact ih t ht (by simp [hplain])
  refine OrderedSet.ext (List.eq_nil_iff_forall_not_mem.mpr fun s hs => ?_)
  exact hnone s (RuleTable.mem_grounded_iff.mp hs)

theorem nullable_dropEmpty (hmarker : g.MarkerAlone) : g.dropEmpty.rules.nullable = ∅ :=
  nullable_eq_empty fun _ _ hrhs =>
    markerFree_compensated hmarker (mem_alternatives_dropEmpty.mp hrhs).1

/-- A symbol other than the marker derives at least one symbol. -/
theorem ne_nil_of_generates_dropEmpty (hmarker : g.MarkerAlone) {s : Symbol}
    (hs : s ≠ Symbol.marker) {w : List Symbol} (hw : g.dropEmpty.Generates s w) : w ≠ [] := by
  have hlen := Yields.length_le
    (fun _ _ hrhs => markerFree_compensated hmarker (mem_alternatives_dropEmpty.mp hrhs).1) hw
    fun hmem => hs (List.mem_singleton.mp hmem).symm
  rintro rfl
  simp at hlen

/-- Each nonterminal that is left loses the empty word and no other, one that is dropped had no
other, and nothing derives the empty word any more. -/
theorem words_dropEmpty (hkeys : ∀ s ∈ g.rules, s ∈ g.vocabulary)
    (hexcluded : Symbol.marker ∉ g.vocabulary) (hbinary : g.IsBinary) (hmarker : g.MarkerAlone) :
    (∀ s ∈ g.dropEmpty.vocabulary, ∀ w,
      g.dropEmpty.Generates s w ↔ g.Generates s w ∧ w ≠ []) ∧
    (∀ s ∈ g.vocabulary, s ∉ g.dropEmpty.vocabulary → ∀ w, g.Generates s w → w = []) ∧
    g.dropEmpty.rules.nullable = ∅ ∧
    ∀ s, s ∈ g.dropEmpty.vocabulary ∨ g.dropEmpty.Uses s → ¬g.dropEmpty.Generates s [] := by
  refine ⟨fun s hs w => ?_, fun s hs hgone w hw => ?_, nullable_dropEmpty hmarker, ?_⟩
  · exact generates_dropEmpty_iff hkeys hexcluded hbinary hmarker hs
  · exact eq_nil_of_generates_of_not_mem_dropEmpty hkeys hexcluded hbinary hmarker hs hgone hw
  · intro s hs hnil
    refine ne_nil_of_generates_dropEmpty hmarker ?_ hnil rfl
    rintro rfl
    rcases hs with hs | ⟨lhs, rhs, hrhs, hmem⟩
    · exact hexcluded ((mem_vocabulary_dropEmpty hkeys).mp hs).1
    · exact isEmptyFree_iff.mp (isEmptyFree_dropEmpty hmarker) lhs rhs hrhs hmem

/-- The start symbol is nullable by way of `B` and recurs on its own right side; `D` derives the
empty word alone, and that only through `C`. -/
def nullableProductions : List Production :=
  [(⟨'S'⟩, [⟨'A'⟩, ⟨'S'⟩]), (⟨'S'⟩, [⟨'B'⟩, ⟨'B'⟩]), (⟨'S'⟩, [⟨'D'⟩, ⟨'x'⟩]), (⟨'A'⟩, [⟨'a'⟩]),
    (⟨'A'⟩, [⟨'e'⟩]), (⟨'B'⟩, [⟨'A'⟩]), (⟨'C'⟩, [⟨'e'⟩]), (⟨'D'⟩, [⟨'C'⟩, ⟨'C'⟩])]

theorem words_dropEmpty_sample :
    (ofProductions ⟨'S'⟩ nullableProductions).IsBinary ∧
    (∀ w, (ofProductions ⟨'S'⟩ nullableProductions).dropEmpty.Generates ⟨'S'⟩ w ↔
      (ofProductions ⟨'S'⟩ nullableProductions).Generates ⟨'S'⟩ w ∧ w ≠ []) ∧
    ⟨'D'⟩ ∈ (ofProductions ⟨'S'⟩ nullableProductions).vocabulary ∧
    (ofProductions ⟨'S'⟩ nullableProductions).dropEmpty.vocabulary.toList =
      [⟨'S'⟩, ⟨'A'⟩, ⟨'B'⟩] ∧
    (∀ w, (ofProductions ⟨'S'⟩ nullableProductions).Generates ⟨'D'⟩ w → w = []) ∧
    (ofProductions ⟨'S'⟩ nullableProductions).dropEmpty.rules.nullable = ∅ := by
  have hcoherent : (ofProductions ⟨'S'⟩ nullableProductions).Coherent :=
    coherent_ofProductions (by decide)
  have hbinary : (ofProductions ⟨'S'⟩ nullableProductions).IsBinary := by decide +kernel
  have hmarker : (ofProductions ⟨'S'⟩ nullableProductions).MarkerAlone := by
    have hall : ∀ p ∈ nullableProductions,
        p.2 ≠ [] ∧ (Symbol.marker ∈ p.2 → p.2 = [Symbol.marker]) := by decide
    exact fun s rhs hrhs => hall (s, rhs) (mem_alternatives_ofProductions.mp hrhs)
  obtain ⟨hleft, hgone, hnullable, _⟩ :=
    words_dropEmpty hcoherent.keys hcoherent.marker hbinary hmarker
  have hold : ⟨'D'⟩ ∈ (ofProductions ⟨'S'⟩ nullableProductions).vocabulary := by decide +kernel
  exact ⟨hbinary, hleft ⟨'S'⟩ (by decide +kernel), hold, by decide +kernel,
    hgone ⟨'D'⟩ hold (by decide +kernel), hnullable⟩

end Grammar

end ChomskyForm
