import ChomskyForm.Proofs.Stages.StartRules
import Mathlib.Order.Lattice.Nat

/-!
# The unit closure lists the nearest nonterminals first

What the first `k` sweeps find from a nonterminal is what chains of at most `k` unit productions
reach (`mem_iterate_unitSweep_iff`).  A sweep therefore adds, behind all that is nearer, nonterminals
of one and the same distance (`unitDistance_of_added`), and the order is kept from sweep to sweep.
A start symbol without productions copies from the first member that has some, which is a nearest one.
-/

namespace ChomskyForm

/-- The closure has an entry for `s`, and that entry lists `t`. -/
def UnitClosure.Lists (D : UnitClosure) (s t : Symbol) : Prop :=
  ∃ members, D.get? s = some members ∧ t ∈ members

namespace Grammar

/-- A chain of `n` unit productions leads from `s` to `t`. -/
inductive UnitChain (g : Grammar) (s : Symbol) : Nat → Symbol → Prop
  | refl : UnitChain g s 0 s
  | tail {n : Nat} {t u : Symbol} (chain : UnitChain g s n t) (step : g.UnitStep t u) :
      UnitChain g s (n + 1) u

/-- The length of a shortest chain of unit productions from `s` to `t`, if there is a chain. -/
noncomputable def unitDistance (g : Grammar) (s t : Symbol) : Nat :=
  sInf {n | g.UnitChain s n t}

/-- No symbol of the list is nearer to `s` than one before it. -/
def NearestFirst (g : Grammar) (s : Symbol) (ts : List Symbol) : Prop :=
  ts.Pairwise fun t u => g.unitDistance s t ≤ g.unitDistance s u

variable {g : Grammar}

/-! ### Chains -/

theorem UnitChain.append {s t u : Symbol} {m n : Nat} (h : g.UnitChain s m t)
    (h' : g.UnitChain t n u) : g.UnitChain s (m + n) u := by
  induction h' with
  | refl => exact h
  | tail _ step ih => exact ih.tail step

theorem exists_unitChain_iff {s t : Symbol} :
    (∃ n, g.UnitChain s n t) ↔ Relation.ReflTransGen g.UnitStep s t := by
  constructor
  · rintro ⟨n, h⟩
    induction h with
    | refl => exact .refl
    | tail _ step ih => exact ih.tail step
  · intro h
    induction h with
    | refl => exact ⟨0, .refl⟩
    | tail _ step ih =>
      obtain ⟨n, hn⟩ := ih
      exact ⟨n + 1, hn.tail step⟩

theorem lists_unitClosure_iff {s t : Symbol} :
    g.unitClosure.Lists s t ↔ s ∈ g.vocabulary ∧ ∃ n, g.UnitChain s n t := by
  constructor
  · rintro ⟨members, hget, ht⟩
    obtain ⟨hs, rfl⟩ := get?_unitClosure_eq_some_iff.mp hget
    exact ⟨hs, exists_unitChain_iff.mpr ((mem_unitReach_iff hs).mp ht)⟩
  · rintro ⟨hs, hchain⟩
    exact ⟨_, get?_unitClosure_eq_some_iff.mpr ⟨hs, rfl⟩,
      (mem_unitReach_iff hs).mpr (exists_unitChain_iff.mp hchain)⟩

/-! ### Distances -/

theorem unitDistance_le {s t : Symbol} {n : Nat} (h : g.UnitChain s n t) :
    g.unitDistance s t ≤ n := Nat.sInf_le h

theorem unitChain_unitDistance {s t : Symbol} (h : ∃ n, g.UnitChain s n t) :
    g.UnitChain s (g.unitDistance s t) t := Nat.sInf_mem h

theorem mem_iterate_unitSweep_iff {s t : Symbol} {k : Nat} :
    t ∈ g.unitSweep^[k] (OrderedSet.singleton s) ↔ ∃ n ≤ k, g.UnitChain s n t := by
  induction k generalizing t with
  | zero =>
    constructor
    · intro ht
      rw [List.mem_singleton.mp ht]
      exact ⟨0, Nat.le_refl 0, .refl⟩
    · rintro ⟨n, hn, hchain⟩
      obtain rfl := Nat.le_zero.mp hn
      cases hchain
      exact List.mem_singleton.mpr rfl
  | succ k ih =>
    rw [Function.iterate_succ_apply', mem_unitSweep_iff, ih]
    constructor
    · rintro (⟨n, hn, hchain⟩ | ⟨u, hu, hstep⟩)
      · exact ⟨n, Nat.le_succ_of_le hn, hchain⟩
      · obtain ⟨n, hn, hchain⟩ := ih.mp hu
        exact ⟨n + 1, Nat.succ_le_succ hn, hchain.tail hstep⟩
    · rintro ⟨n, hn, hchain⟩
      cases hchain with
      | refl => exact Or.inl ⟨0, Nat.zero_le k, .refl⟩
      | tail hchain hstep =>
        exact Or.inr ⟨_, ih.mpr ⟨_, Nat.le_of_succ_le_succ hn, hchain⟩, hstep⟩

theorem unitDistance_le_of_mem {s t : Symbol} {k : Nat}
    (h : t ∈ g.unitSweep^[k] (OrderedSet.singleton s)) : g.unitDistance s t ≤ k := by
  obtain ⟨n, hn, hchain⟩ := mem_iterate_unitSweep_iff.mp h
  exact (unitDistance_le hchain).trans hn

theorem unitDistance_of_added {s t : Symbol} {k : Nat}
    (hnew : t ∈ g.unitSweep^[k + 1] (OrderedSet.singleton s))
    (hold : t ∉ g.unitSweep^[k] (OrderedSet.singleton s)) : g.unitDistance s t = k + 1 := by
  refine Nat.le_antisymm (unitDistance_le_of_mem hnew) ?_
  by_contra hlt
  obtain ⟨n, _, hchain⟩ := mem_iterate_unitSweep_iff.mp hnew
  exact hold (mem_iterate_unitSweep_iff.mpr
    ⟨_, Nat.lt_succ_iff.mp (Nat.lt_of_not_le hlt), unitChain_unitDistance ⟨n, hchain⟩⟩)

theorem nearestFirst_succ {s : Symbol} {k : Nat}
    (h : g.NearestFirst s (g.unitSweep^[k] (OrderedSet.singleton s)).toList) :
    g.NearestFirst s (g.unitSweep^[k + 1] (OrderedSet.singleton s)).toList := by
  let old := g.unitSweep^[k] (OrderedSet.singleton s)
  let new := g.unitSweep^[k + 1] (OrderedSet.singleton s)
  have hprefix : old.toList <+: new.toList := by
    show old.toList <+: (g.unitSweep^[k + 1] (OrderedSet.singleton s)).toList
    rw [Function.iterate_succ_apply']
    exact toList_prefix_unitSweep old
  obtain ⟨added, hadded⟩ := hprefix
  have hnodup := new.nodup
  rw [← hadded, List.nodup_append] at hnodup
  have hfar : ∀ t ∈ added, g.unitDistance s t = k + 1 := by
    intro t ht
    have hnew : t ∈ new.toList := by
      rw [← hadded]
      exact List.mem_append_right _ ht
    exact unitDistance_of_added hnew fun hold => hnodup.2.2 t hold t ht rfl
  show g.NearestFirst s new.toList
  rw [← hadded, NearestFirst, List.pairwise_append]
  refine ⟨h, List.pairwise_of_forall_mem_list ?_, ?_⟩
  · intro t ht u hu
    rw [hfar t ht, hfar u hu]
  · intro t ht u hu
    rw [hfar u hu]
    exact Nat.le_succ_of_le (unitDistance_le_of_mem ht)

theorem nearestFirst_unitReach (s : Symbol) : g.NearestFirst s (g.unitReach s).toList := by
  have hsweeps : ∀ k, g.NearestFirst s (g.unitSweep^[k] (OrderedSet.singleton s)).toList := by
    intro k
    induction k with
    | zero => exact List.pairwise_singleton _ s
    | succ k ih => exact nearestFirst_succ ih
  exact hsweeps _

/-! ### The member that is copied -/

theorem copyMembers_of_full {members : List Symbol} (h : g.alternatives g.start ≠ []) :
    copyMembers .whileEmpty members g = pure g := by
  cases members with
  | nil => rfl
  | cons source members => rw [copyMembers, if_pos ⟨rfl, h⟩]

/-- A start symbol without productions takes over those of the first member that has some. -/
theorem copyMembers_of_empty {members : List Symbol} (h : g.alternatives g.start = []) :
    copyMembers .whileEmpty members g =
      match members.find? fun m => g.alternatives m ≠ [] with
      | none => pure g
      | some source => copyRules source (g.alternatives source) g := by
  induction members with
  | nil => rfl
  | cons source members ih =>
    rw [copyMembers, if_neg fun hmode => hmode.2 h]
    by_cases hempty : g.alternatives source = []
    · have hskip : ¬(decide (g.alternatives source ≠ []) = true) := by
        rw [decide_eq_true_eq]
        exact not_not_intro hempty
      rw [List.find?_cons_of_neg (p := fun m => g.alternatives m ≠ []) hskip, ← ih, hempty]
      rfl
    · rw [List.find?_cons_of_pos (p := fun m => g.alternatives m ≠ []) (decide_eq_true hempty)]
      let g₁ := g.addAll ((g.alternatives source).map fun rhs => (g.start, rhs))
      have hfull : g₁.alternatives g₁.start ≠ [] := by
        obtain ⟨rhs, hrhs⟩ := List.exists_mem_of_ne_nil _ hempty
        have hmem : rhs ∈ g₁.alternatives g₁.start := by
          rw [mem_alternatives_addAll, start_addAll]
          exact Or.inr (List.mem_map.mpr ⟨rhs, hrhs, rfl⟩)
        exact List.ne_nil_of_mem hmem
      have hcopied : (copyRules source (g.alternatives source) g).outcome = .ok g₁ :=
        outcome_copyRules ..
      rw [Noted.bind_of_ok hcopied, copyMembers_of_full hfull]
      exact Noted.ext (List.append_nil _) hcopied.symm

/-- The symbol `m` has productions in `h`, and of all that have some and are at the end of a chain of
`g` it is a nearest one to the start symbol. -/
structure IsNearest (g h : Grammar) (m : Symbol) : Prop where
  reached : ∃ n, g.UnitChain h.start n m
  full : h.alternatives m ≠ []
  nearest : ∀ m', (∃ n, g.UnitChain h.start n m') → h.alternatives m' ≠ [] →
    g.unitDistance h.start m ≤ g.unitDistance h.start m'

theorem isNearest_start {h : Grammar} (hfull : h.alternatives h.start ≠ []) :
    g.IsNearest h h.start where
  reached := ⟨0, .refl⟩
  full := hfull
  nearest _ _ _ := (unitDistance_le .refl).trans (Nat.zero_le _)

/-- The first member of the closure that has productions is a nearest one. -/
theorem isNearest_of_find? {h : Grammar} (hs : h.start ∈ g.vocabulary)
    (hempty : h.alternatives h.start = []) {m : Symbol}
    (hfind : ((g.unitReach h.start).erase h.start).toList.find?
      (fun m => h.alternatives m ≠ []) = some m) : g.IsNearest h m := by
  obtain ⟨rest, hrest⟩ := unitReach_head (g := g) h.start
  rw [OrderedSet.toList_erase_of_eq_cons hrest, List.find?_eq_some_iff_append] at hfind
  obtain ⟨hfull, before, after, hmembers, hbefore⟩ := hfind
  have horder := nearestFirst_unitReach (g := g) h.start
  rw [hrest, hmembers, NearestFirst, List.pairwise_cons, List.pairwise_append,
    List.pairwise_cons] at horder
  have hlisted : ∀ m', (∃ n, g.UnitChain h.start n m') ↔
      m' ∈ h.start :: (before ++ m :: after) := by
    intro m'
    rw [exists_unitChain_iff, ← mem_unitReach_iff hs, ← hmembers, ← hrest, OrderedSet.mem_toList]
  refine ⟨(hlisted m).mpr ?_, of_decide_eq_true hfull, fun m' hm' hfull' => ?_⟩
  · exact List.mem_cons_of_mem _ (List.mem_append_right _ (List.mem_cons_self ..))
  -- what stands before `m` has no productions, and what stands behind it is no nearer
  · rcases List.mem_cons.mp ((hlisted m').mp hm') with rfl | hm'
    · exact absurd hempty hfull'
    rcases List.mem_append.mp hm' with hm' | hm'
    · have hskipped := hbefore m' hm'
      rw [Bool.not_eq_true', decide_eq_false_iff_not] at hskipped
      exact absurd hfull' hskipped
    rcases List.mem_cons.mp hm' with rfl | hm'
    · exact Nat.le_refl _
    · exact horder.2.2.1.1 m' hm'

/-- The start symbol of `h` ends up with the productions of a nearest symbol that has some, and takes
none from any other. -/
theorem exists_completeStart_isNearest {h : Grammar} (hs : h.start ∈ g.vocabulary) :
    ∃ r, (h.completeStart g.unitClosure .whileEmpty).outcome = .ok r ∧
      ((∀ m, (∃ n, g.UnitChain h.start n m) → h.alternatives m = []) ∧
          r.alternatives h.start = [] ∨
        ∃ m, g.IsNearest h m ∧
          (∀ rhs, rhs ∈ r.alternatives h.start ↔ rhs ∈ h.alternatives m) ∧
          ∀ source target, .copied source target ∈
            (h.completeStart g.unitClosure .whileEmpty).notices → source = m) := by
  let h' : Grammar := { h with rules := h.rules.withKey h.start }
  have halternatives : ∀ s, h'.alternatives s = h.alternatives s :=
    RuleTable.alternatives_withKey h.rules h.start
  have hwork : h.completeStart g.unitClosure .whileEmpty =
      copyMembers .whileEmpty ((g.unitReach h.start).erase h.start).toList h' := by
    rw [completeStart, get?_unitClosure_eq_some_iff.mpr ⟨hs, rfl⟩]
  rw [hwork]
  by_cases hempty : h.alternatives h.start = []
  · rw [copyMembers_of_empty (g := h') ((halternatives _).trans hempty)]
    simp only [halternatives]
    cases hfind : ((g.unitReach h.start).erase h.start).toList.find?
      (fun m => h.alternatives m ≠ []) with
    | none =>
      refine ⟨h', rfl, Or.inl ⟨fun m hm => ?_, (halternatives _).trans hempty⟩⟩
      by_cases hms : m = h.start
      · rw [hms, hempty]
      · have hmem : m ∈ (g.unitReach h.start).erase h.start := OrderedSet.mem_erase.mpr
          ⟨(mem_unitReach_iff hs).mpr (exists_unitChain_iff.mp hm), hms⟩
        have hskipped := List.find?_eq_none.mp hfind m hmem
        rw [decide_eq_true_eq] at hskipped
        exact not_not.mp hskipped
    | some m =>
      refine ⟨_, outcome_copyRules .., Or.inr ⟨m, isNearest_of_find? hs hempty hfind, ?_, ?_⟩⟩
      · intro rhs
        have hnew : (h.start, rhs) ∈ (h.alternatives m).map (fun rhs => (h'.start, rhs)) ↔
            rhs ∈ h.alternatives m := List.mem_map_of_injective (Prod.mk_right_injective h.start)
        rw [mem_alternatives_addAll, halternatives, hempty, hnew]
        exact or_iff_right List.not_mem_nil
      · intro source target hnote
        have heq := eq_copied_of_mem_copyRules hnote
        rw [Notice.copied.injEq] at heq
        exact heq.1
  · rw [copyMembers_of_full (g := h') (by rw [halternatives]; exact hempty)]
    refine ⟨h', rfl, Or.inr ⟨h.start, isNearest_start hempty, ?_, ?_⟩⟩
    · intro rhs
      rw [halternatives]
    · intro source target hnote
      exact absurd hnote List.not_mem_nil

/-! ### The closure as a whole -/

/-- The unit closure is reachability by unit productions, a reflexive and transitive relation, with the
nearest nonterminals first.  A start symbol that is completed with it in the default mode therefore
copies from a nearest symbol that has productions. -/
theorem unitClosure_lists_nearest_first (g : Grammar) :
    g.unitClosure.keys = g.vocabulary.toList ∧
    (∀ s t, g.unitClosure.Lists s t ↔ s ∈ g.vocabulary ∧ ∃ n, g.UnitChain s n t) ∧
    (∀ s members, g.unitClosure.get? s = some members →
      members.toList.head? = some s ∧ members.toList.Nodup ∧ g.NearestFirst s members.toList) ∧
    (∀ s ∈ g.vocabulary, g.unitClosure.Lists s s) ∧
    (∀ s t u, g.unitClosure.Lists s t → g.unitClosure.Lists t u → g.unitClosure.Lists s u) ∧
    ∀ h : Grammar, h.start ∈ g.vocabulary →
      ∃ r, (h.completeStart g.unitClosure .whileEmpty).outcome = .ok r ∧
        ((∀ m, (∃ n, g.UnitChain h.start n m) → h.alternatives m = []) ∧
            r.alternatives h.start = [] ∨
          ∃ m, g.IsNearest h m ∧
            (∀ rhs, rhs ∈ r.alternatives h.start ↔ rhs ∈ h.alternatives m) ∧
            ∀ source target, .copied source target ∈
              (h.completeStart g.unitClosure .whileEmpty).notices → source = m) := by
  refine ⟨?_, fun _ _ => lists_unitClosure_iff, ?_, ?_, ?_, fun _ => exists_completeStart_isNearest⟩
  · rw [unitClosure_eq, OrderedMap.keys_ofKeys]
  · intro s members hget
    obtain ⟨_, rfl⟩ := get?_unitClosure_eq_some_iff.mp hget
    obtain ⟨rest, hrest⟩ := unitReach_head (g := g) s
    exact ⟨by rw [hrest, List.head?_cons], OrderedSet.nodup _, nearestFirst_unitReach s⟩
  · intro s hs
    exact lists_unitClosure_iff.mpr ⟨hs, 0, .refl⟩
  · intro s t u hst htu
    obtain ⟨hs, m, hm⟩ := lists_unitClosure_iff.mp hst
    obtain ⟨_, n, hn⟩ := lists_unitClosure_iff.mp htu
    exact lists_unitClosure_iff.mpr ⟨hs, m + n, hm.append hn⟩

/-- From `S` a chain leads over `A` to `B`, and another straight to `C` and back. -/
def forkGrammar : Grammar :=
  ofProductions ⟨'S'⟩ [(⟨'S'⟩, [⟨'A'⟩]), (⟨'A'⟩, [⟨'B'⟩]), (⟨'S'⟩, [⟨'C'⟩]), (⟨'C'⟩, [⟨'S'⟩]),
    (⟨'B'⟩, [⟨'b'⟩]), (⟨'C'⟩, [⟨'c'⟩])]

/-- The fork without its unit productions. -/
def forkRest : Grammar := ofProductions ⟨'S'⟩ [(⟨'B'⟩, [⟨'b'⟩]), (⟨'C'⟩, [⟨'c'⟩])]

theorem unitClosure_lists_nearest_first_fork :
    (forkGrammar.unitClosure.get? ⟨'S'⟩).map OrderedSet.toList =
      some [⟨'S'⟩, ⟨'A'⟩, ⟨'C'⟩, ⟨'B'⟩] ∧
    forkGrammar.unitDistance ⟨'S'⟩ ⟨'C'⟩ ≤ forkGrammar.unitDistance ⟨'S'⟩ ⟨'B'⟩ ∧
    forkRest.start ∈ forkGrammar.vocabulary ∧
    ∃ r, (forkRest.completeStart forkGrammar.unitClosure .whileEmpty).outcome = .ok r ∧
      ∃ m, forkGrammar.IsNearest forkRest m ∧
        ∀ rhs, rhs ∈ r.alternatives ⟨'S'⟩ ↔ rhs ∈ forkRest.alternatives m := by
  have hlist : (forkGrammar.unitClosure.get? ⟨'S'⟩).map OrderedSet.toList =
      some [⟨'S'⟩, ⟨'A'⟩, ⟨'C'⟩, ⟨'B'⟩] := by decide +kernel
  have hstart : forkRest.start ∈ forkGrammar.vocabulary := by decide +kernel
  obtain ⟨_, hlists, horder, _, _, hcopies⟩ := unitClosure_lists_nearest_first forkGrammar
  obtain ⟨members, hget, hmembers⟩ := Option.map_eq_some_iff.mp hlist
  refine ⟨hlist, ?_, hstart, ?_⟩
  · have hfour := (horder _ members hget).2.2
    rw [hmembers, NearestFirst] at hfour
    exact hfour.of_cons.of_cons.rel_head_tail (List.mem_cons_self ..)
  · obtain ⟨r, hr, hcase⟩ := hcopies forkRest hstart
    refine ⟨r, hr, ?_⟩
    rcases hcase with ⟨hnone, _⟩ | ⟨m, hm, hown, _⟩
    · have hB : forkGrammar.unitClosure.Lists ⟨'S'⟩ ⟨'B'⟩ := by
        refine ⟨members, hget, ?_⟩
        rw [← OrderedSet.mem_toList, hmembers]
        decide
      have hempty := hnone ⟨'B'⟩ ((hlists _ _).mp hB).2
      exact absurd hempty (by decide +kernel)
    · exact ⟨m, hm, hown⟩

end Grammar

end ChomskyForm
