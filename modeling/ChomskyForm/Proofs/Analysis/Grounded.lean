import ChomskyForm.Analysis.Grounded
import ChomskyForm.Proofs.FixedPoint
import ChomskyForm.Proofs.Simulation

/-!
# Grounded symbols are those that derive a word

The sweeps find exactly the least set of grounded left sides (`mem_grounded_iff`), whatever the order
of the table, and a grounded nonterminal is one with a word of the wanted kind
(`grounded_iff_exists_yields`).  The nullable and the productive symbols are the two kinds.
-/

namespace ChomskyForm

/-- One alternative consists of base symbols and of symbols that are grounded before. -/
inductive Grounded (base : Symbol → Bool) (rules : RuleTable) : Symbol → Prop
  | intro {s : Symbol} {rhs : RightSide} (choice : rhs ∈ rules.alternatives s)
      (grounded : ∀ t ∈ rhs, base t ≠ true → Grounded base rules t) : Grounded base rules s

variable {base : Symbol → Bool} {rules : RuleTable}

theorem Grounded.mem_rules {s : Symbol} (h : Grounded base rules s) : s ∈ rules := by
  cases h with
  | intro choice _ => exact RuleTable.mem_of_mem_alternatives choice

/-! ### One sweep -/

namespace RuleTable

theorem isGrounded_iff {found : OrderedSet Symbol} {rhss : List RightSide} :
    isGrounded base found rhss = true ↔ ∃ rhs ∈ rhss, ∀ t ∈ rhs, base t ≠ true → t ∈ found := by
  rw [isGrounded_eq_true_iff]
  constructor
  · rintro ⟨rhs, hrhs, hall⟩
    exact ⟨rhs, hrhs, fun t ht hbase => (hall t ht).resolve_left hbase⟩
  · rintro ⟨rhs, hrhs, hall⟩
    refine ⟨rhs, hrhs, fun t ht => ?_⟩
    by_cases hbase : base t = true
    · exact Or.inl hbase
    · exact Or.inr (hall t ht hbase)

theorem isGrounded_mono {found found' : OrderedSet Symbol} {rhss : List RightSide}
    (hsub : ∀ s ∈ found, s ∈ found') (h : isGrounded base found rhss = true) :
    isGrounded base found' rhss = true := by
  obtain ⟨rhs, hrhs, hall⟩ := isGrounded_iff.mp h
  exact isGrounded_iff.mpr ⟨rhs, hrhs, fun t ht hbase => hsub t (hall t ht hbase)⟩

theorem groundedSweep_induction {P : OrderedSet Symbol → Prop}
    (step : ∀ found, P found → ∀ e ∈ rules.entries, isGrounded base found e.2 = true →
      P (found.insert e.1)) {found : OrderedSet Symbol} (start : P found) :
    P (groundedSweep base rules found) := by
  refine List.foldlRecOn rules.entries _ start ?_
  intro found hP e he
  by_cases h : isGrounded base found e.2 = true
  · rw [if_pos h]
    exact step found hP e he h
  · rw [if_neg h]
    exact hP

theorem toList_prefix_groundedSweep (found : OrderedSet Symbol) :
    found.toList <+: (groundedSweep base rules found).toList :=
  groundedSweep_induction (P := fun s => found.toList <+: s.toList)
    (fun s hs e _ _ => hs.trans (OrderedSet.toList_prefix_insert s e.1)) (List.prefix_refl _)

/-- A left side that is grounded before the sweep is found by it. -/
theorem mem_groundedSweep_of_isGrounded {found : OrderedSet Symbol}
    {e : Symbol × List RightSide} (he : e ∈ rules.entries)
    (h : isGrounded base found e.2 = true) : e.1 ∈ groundedSweep base rules found := by
  have key : ∀ (es : List (Symbol × List RightSide)) (s : OrderedSet Symbol),
      (∀ a ∈ found, a ∈ s) → (e ∈ es ∨ e.1 ∈ s) →
      e.1 ∈ es.foldl (fun s e => if isGrounded base s e.2 then s.insert e.1 else s) s := by
    intro es
    induction es with
    | nil =>
      intro s _ hmem
      exact hmem.resolve_left List.not_mem_nil
    | cons e' es ih =>
      intro s hsub hmem
      rw [List.foldl_cons]
      have hgrow : ∀ a ∈ s, a ∈ if isGrounded base s e'.2 then s.insert e'.1 else s := by
        intro a ha
        split
        · exact OrderedSet.mem_insert.mpr (Or.inl ha)
        · exact ha
      refine ih _ (fun a ha => hgrow a (hsub a ha)) ?_
      rcases hmem with hmem | hmem
      · rcases List.mem_cons.mp hmem with heq | hmem
        · right
          rw [← heq, if_pos (isGrounded_mono hsub h)]
          exact OrderedSet.mem_insert.mpr (Or.inr rfl)
        · exact Or.inl hmem
      · exact Or.inr (hgrow _ hmem)
  exact key rules.entries found (fun _ ha => ha) (Or.inl he)

/-! ### All sweeps -/

theorem grounded_of_mem {s : Symbol} (h : s ∈ rules.grounded base) : Grounded base rules s := by
  have hall : ∀ s ∈ rules.grounded base, Grounded base rules s := by
    refine saturate_induction (P := fun found => ∀ s ∈ found, Grounded base rules s) ?_ ?_ _
    · intro found hfound
      refine groundedSweep_induction (P := fun found => ∀ s ∈ found, Grounded base rules s) ?_ hfound
      intro found hfound e he hground s hs
      rcases OrderedSet.mem_insert.mp hs with hs | hs
      · exact hfound s hs
      · obtain ⟨rhs, hrhs, hrest⟩ := isGrounded_iff.mp hground
        rw [hs]
        have hchoice : rhs ∈ rules.alternatives e.1 :=
          mem_alternatives_iff.mpr ⟨e.2, OrderedMap.mem_entries_iff.mp he, hrhs⟩
        exact .intro hchoice fun t ht hbase => hfound t (hrest t ht hbase)
    · intro s hs
      exact absurd hs List.not_mem_nil
  exact hall s h

theorem size_iterate_groundedSweep_le (k : Nat) :
    ((groundedSweep base rules)^[k] ∅).size ≤ rules.size := by
  rw [← OrderedMap.length_keys]
  refine OrderedSet.size_le_of_subset (OrderedMap.keys rules) ?_
  refine iterate_induction (P := fun found => ∀ s ∈ found, s ∈ rules.keys) ?_ ?_ k
  · intro found hfound
    refine groundedSweep_induction (P := fun found => ∀ s ∈ found, s ∈ rules.keys) ?_ hfound
    intro found hfound e he _ s hs
    rcases OrderedSet.mem_insert.mp hs with hs | hs
    · exact hfound s hs
    · rw [hs]
      exact List.mem_map_of_mem he
  · intro s hs
    exact absurd hs List.not_mem_nil

theorem groundedSweep_grounded :
    groundedSweep base rules (rules.grounded base) = rules.grounded base :=
  saturate_fixed toList_prefix_groundedSweep size_iterate_groundedSweep_le (Nat.le_succ _)

theorem mem_grounded_iff {s : Symbol} : s ∈ rules.grounded base ↔ Grounded base rules s := by
  constructor
  · exact grounded_of_mem
  · intro h
    induction h with
    | @intro s rhs choice _ ih =>
      obtain ⟨rhss, hget, hrhs⟩ := mem_alternatives_iff.mp choice
      rw [← groundedSweep_grounded]
      exact mem_groundedSweep_of_isGrounded (OrderedMap.mem_entries_iff.mpr hget)
        (isGrounded_iff.mpr ⟨rhs, hrhs, ih⟩)

end RuleTable

/-! ### Words of grounded symbols -/

section Words

variable {N : Symbol → Prop} {P : List Symbol → Prop}

theorem Grounded.exists_yields (hkeys : ∀ s ∈ rules, N s) (hnil : P [])
    (happend : ∀ u v, P u → P v → P (u ++ v)) (hbase : ∀ t, base t = true → ¬N t ∧ P t.spelled)
    {s : Symbol} (h : Grounded base rules s) : ∃ w, P w ∧ Yields N rules [s] w := by
  induction h with
  | @intro s rhs choice _ ih =>
    have hwhole : ∀ α : RightSide, (∀ t ∈ α, t ∈ rhs) → ∃ w, P w ∧ Yields N rules α w := by
      intro α
      induction α with
      | nil =>
        intro _
        exact ⟨[], hnil, .nil⟩
      | cons t α ihα =>
        intro hsub
        have hhead : ∃ u, P u ∧ Yields N rules [t] u := by
          by_cases ht : base t = true
          · obtain ⟨hfixed, hP⟩ := hbase t ht
            exact ⟨t.spelled, hP, .of_fixed hfixed⟩
          · exact ih t (hsub t (List.mem_cons_self ..)) ht
        obtain ⟨u, hu, hyu⟩ := hhead
        obtain ⟨v, hv, hyv⟩ := ihα fun t' ht' => hsub t' (List.mem_cons_of_mem _ ht')
        exact ⟨u ++ v, happend u v hu hv, hyu.append hyv⟩
    obtain ⟨w, hw, hyield⟩ := hwhole rhs fun _ ht => ht
    exact ⟨w, hw, .of_alternative (hkeys s (RuleTable.mem_of_mem_alternatives choice)) choice hyield⟩

theorem Grounded.of_yields (hsplit : ∀ u v, P (u ++ v) → P u ∧ P v)
    (hbase : ∀ t, ¬N t → P t.spelled → base t = true) {α : RightSide} {w : List Symbol}
    (h : Yields N rules α w) (hw : P w) : ∀ s ∈ α, base s ≠ true → Grounded base rules s := by
  induction h with
  | nil =>
    intro s hs
    exact absurd hs List.not_mem_nil
  | terminal fixed tail ih =>
    intro s hs hsbase
    obtain ⟨hhead, htail⟩ := hsplit _ _ hw
    rcases List.mem_cons.mp hs with hs | hs
    · rw [hs] at hsbase
      exact absurd (hbase _ fixed hhead) hsbase
    · exact ih htail s hs hsbase
  | nonterminal expanded choice head tail ihHead ihTail =>
    intro s hs hsbase
    obtain ⟨hhead, htail⟩ := hsplit _ _ hw
    rcases List.mem_cons.mp hs with hs | hs
    · rw [hs]
      exact .intro choice (ihHead hhead)
    · exact ihTail htail s hs hsbase

theorem grounded_iff_exists_yields (hkeys : ∀ s ∈ rules, N s) (hnil : P [])
    (happend : ∀ u v, P (u ++ v) ↔ P u ∧ P v) (hbase : ∀ t, base t = true ↔ ¬N t ∧ P t.spelled)
    {s : Symbol} (hs : N s) : Grounded base rules s ↔ ∃ w, P w ∧ Yields N rules [s] w := by
  constructor
  · exact Grounded.exists_yields hkeys hnil (fun u v hu hv => (happend u v).mpr ⟨hu, hv⟩)
      fun t => (hbase t).mp
  · rintro ⟨w, hw, hyield⟩
    have hsbase : base s ≠ true := fun h => ((hbase s).mp h).1 hs
    exact Grounded.of_yields (fun u v => (happend u v).mp)
      (fun t hfixed hP => (hbase t).mpr ⟨hfixed, hP⟩) hyield hw s (List.mem_singleton.mpr rfl) hsbase

end Words

/-! ### The two kinds -/

theorem Symbol.spelled_eq_nil_iff {s : Symbol} : s.spelled = [] ↔ s = marker := by
  by_cases h : s = marker
  · rw [h]
    exact iff_of_true spelled_marker rfl
  · rw [spelled_of_ne h]
    exact iff_of_false (List.cons_ne_nil _ _) h

theorem RuleTable.mem_nullable_iff {N : Symbol → Prop} (hkeys : ∀ s ∈ rules, N s)
    (hmarker : ¬N Symbol.marker) {s : Symbol} (hs : N s) :
    s ∈ rules.nullable ↔ Yields N rules [s] [] := by
  have hbase : ∀ t : Symbol, decide (t = Symbol.marker) = true ↔ ¬N t ∧ t.spelled = [] := by
    intro t
    rw [decide_eq_true_eq, Symbol.spelled_eq_nil_iff]
    constructor
    · intro ht
      rw [ht]
      exact ⟨hmarker, rfl⟩
    · exact And.right
  rw [nullable, mem_grounded_iff, grounded_iff_exists_yields (P := fun w => w = []) hkeys rfl
    (fun u v => List.append_eq_nil_iff) hbase hs]
  simp only [exists_eq_left]

theorem Grammar.mem_productive_iff {g : Grammar} (hkeys : ∀ s ∈ g.rules, s ∈ g.vocabulary)
    {s : Symbol} (hs : s ∈ g.vocabulary) : s ∈ g.productive ↔ ∃ w, g.Generates s w := by
  have hbase : ∀ t, (!g.isNonterminal t) = true ↔ ¬t ∈ g.vocabulary ∧ True := by
    intro t
    simp only [isNonterminal, Bool.not_eq_true', decide_eq_false_iff_not, and_true]
  rw [productive, RuleTable.mem_grounded_iff,
    grounded_iff_exists_yields (N := (· ∈ g.vocabulary)) (P := fun _ => True) hkeys trivial
      (fun _ _ => (and_self_iff).symm) hbase hs]
  simp only [true_and, Generates]

end ChomskyForm
