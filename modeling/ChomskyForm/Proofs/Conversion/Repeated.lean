import ChomskyForm.Proofs.Conversion.Distinct
import ChomskyForm.Proofs.Stages.Unchanged

/-!
# A stage that is done twice

Each stage leaves nothing that the same stage would change, whatever the grammar is like that it was
given: there need not be a start symbol among the left sides, and the work of the other stages need not
have been done.  Only the stage for empty right sides asks for a grammar in which the marker stands
alone.

Dead symbols die of dead symbols, and those are gone from every right side, so that only a start symbol
without productions is dead again (`mem_dead_of_mem_dead_dropDead`).  The copies of the start symbol
are there when they are copied again (`copyMembers_eq_self`).
-/

namespace ChomskyForm

namespace Grammar

variable {g r : Grammar}

/-! ### Shortening -/

theorem binarize_of_binarize (hkeys : ∀ s ∈ g.rules, s ∈ g.vocabulary) (hmarker : g.MarkerAlone)
    (h : g.binarize.outcome = .ok r) : r.binarize.outcome = .ok r := by
  obtain ⟨cuts, hcut⟩ := binarize_cut h
  have hbinary := isBinary_iff.mp (hcut.isBinary hmarker)
  refine binarize_eq_self (hcut.madeFrom hkeys).keys (distinct_binarize h) fun s rhs hrhs => ?_
  have hlength := hbinary s rhs hrhs
  omega

/-! ### Empty right sides -/

/-- What is dead after the dead symbols were dropped was dead before. -/
theorem mem_dead_of_mem_dead_dropDead {s : Symbol} (hs : s ∈ g.dropDead.rules.dead) :
    s ∈ g.rules.dead := by
  refine RuleTable.mem_of_mem_dead (D := {s | s ∈ g.rules.dead}) ?_ s hs
  intro s hkey hblocked
  by_contra hlive
  obtain ⟨rhs, hrhs, hfree⟩ :=
    RuleTable.exists_live_of_not_mem_dead (mem_rules_dropSymbols.mp hkey).1 hlive
  have hkept : rhs ∈ g.dropDead.alternatives s :=
    mem_alternatives_dropSymbols.mpr ⟨hrhs, Or.inl hlive, hfree⟩
  obtain ⟨t, ht, hdead⟩ := hblocked rhs hkept
  exact hfree t ht hdead

theorem dropDead_dropDead : g.dropDead.dropDead = g.dropDead := by
  refine dropSymbols_eq_self ?_ ?_
  · intro s hs
    have hkept := (mem_rules_dropSymbols.mp (RuleTable.blocked_of_mem_dead hs).1).2
    exact hkept.resolve_left (not_not_intro (mem_dead_of_mem_dead_dropDead hs))
  · intro s rhs hrhs t ht hdead
    exact (mem_alternatives_dropSymbols.mp hrhs).2.2 t ht (mem_dead_of_mem_dead_dropDead hdead)

theorem dropEmpty_dropEmpty (hmarker : g.MarkerAlone) : g.dropEmpty.dropEmpty = g.dropEmpty := by
  have hnonempty : ∀ s, ∀ rhs ∈ g.dropEmpty.alternatives s, rhs ≠ [] := by
    intro s rhs hrhs
    exact (markerFree_compensated hmarker (mem_alternatives_dropEmpty.mp hrhs).1).1
  have hcompensated := compensated_eq_self hnonempty (isEmptyFree_dropEmpty hmarker)
  calc g.dropEmpty.dropEmpty = g.dropEmpty.dropDead := by rw [dropEmpty, hcompensated]
    _ = g.dropEmpty := dropDead_dropDead

/-! ### Unit productions -/

theorem eliminateUnits_of_eliminateUnits (hkeys : ∀ s ∈ g.rules, s ∈ g.vocabulary)
    (h : g.eliminateUnits g.unitClosure = .ok r) : r.eliminateUnits r.unitClosure = .ok r :=
  eliminateUnits_eq_self (madeFrom_eliminateUnits hkeys h).keys (isUnitFree_eliminateUnits hkeys h)
    fun _ hs hne => alternatives_eliminateUnits_ne_nil hkeys h hs hne

/-! ### Copying into the start symbol -/

theorem addAll_eq_self {ps : List Production}
    (h : ∀ p ∈ ps, p.2 ∈ g.alternatives p.1 ∧ p.1 ∈ g.vocabulary) : g.addAll ps = g := by
  induction ps with
  | nil => rfl
  | cons p ps ih =>
    obtain ⟨⟨hrhs, hexp⟩, hrest⟩ := List.forall_mem_cons.mp h
    have hstep : g.add p.1 p.2 = g := by
      rw [add_of_mem hexp, RuleTable.add_eq_self hrhs]
    calc g.addAll (p :: ps) = (g.add p.1 p.2).addAll ps := rfl
      _ = g := by rw [hstep, ih hrest]

/-- Copying adds productions of the start symbol.  It ends early where the start symbol is no longer
empty, and else all productions of the members are among them. -/
theorem copyMembers_trace {mode : ClosureCopy} {members : List Symbol}
    (h : (copyMembers mode members g).outcome = .ok r) :
    ∃ rhss : List RightSide, r = g.addAll (rhss.map fun rhs => (g.start, rhs)) ∧
      ((mode = .whileEmpty ∧ r.alternatives g.start ≠ []) ∨
        ∀ m ∈ members, ∀ rhs ∈ g.alternatives m, rhs ∈ rhss) := by
  induction members generalizing g with
  | nil =>
    cases h
    exact ⟨[], rfl, Or.inr fun _ hm => absurd hm List.not_mem_nil⟩
  | cons source members ih =>
    rw [copyMembers] at h
    by_cases hmode : mode = .whileEmpty ∧ g.alternatives g.start ≠ []
    · rw [if_pos hmode] at h
      cases h
      exact ⟨[], rfl, Or.inl hmode⟩
    · rw [if_neg hmode] at h
      obtain ⟨g₁, hcopy, hnext⟩ := Noted.outcome_bind_eq_ok_iff.mp h
      rw [outcome_copyRules, Except.ok.injEq] at hcopy
      obtain ⟨rhss, hr, hend⟩ := ih hnext
      have hstart : g₁.start = g.start := by
        rw [← hcopy]
        exact start_addAll ..
      rw [hstart] at hr hend
      refine ⟨g.alternatives source ++ rhss, ?_, hend.imp_right fun hall => ?_⟩
      · rw [hr, ← hcopy, List.map_append]
        exact (List.foldl_append ..).symm
      · intro m hm rhs hrhs
        rcases List.mem_cons.mp hm with rfl | hm
        · exact List.mem_append_left _ hrhs
        · have hrhs₁ : rhs ∈ g₁.alternatives m := by
            rw [← hcopy]
            exact mem_alternatives_addAll.mpr (Or.inl hrhs)
          exact List.mem_append_right _ (hall m hm rhs hrhs₁)

theorem start_copyMembers {mode : ClosureCopy} {members : List Symbol}
    (h : (copyMembers mode members g).outcome = .ok r) : r.start = g.start := by
  obtain ⟨rhss, rfl, _⟩ := copyMembers_trace h
  exact start_addAll ..

theorem copyMembers_eq_self {mode : ClosureCopy} {members : List Symbol}
    (h : ∀ m ∈ members, ∀ rhs ∈ g.alternatives m,
      rhs ∈ g.alternatives g.start ∧ g.start ∈ g.vocabulary) :
    (copyMembers mode members g).outcome = .ok g := by
  induction members with
  | nil => rfl
  | cons source members ih =>
    obtain ⟨hsource, hrest⟩ := List.forall_mem_cons.mp h
    have hcopied : g.addAll ((g.alternatives source).map fun rhs => (g.start, rhs)) = g := by
      refine addAll_eq_self fun p hp => ?_
      obtain ⟨rhs, hrhs, rfl⟩ := List.mem_map.mp hp
      exact hsource rhs hrhs
    rw [copyMembers]
    split
    · rfl
    · refine Noted.outcome_bind_eq_ok_iff.mpr ⟨g, ?_, ih hrest⟩
      rw [outcome_copyRules, hcopied]

theorem copyMembers_of_copyMembers {mode : ClosureCopy} {members : List Symbol}
    (hmembers : g.start ∉ members) (h : (copyMembers mode members g).outcome = .ok r) :
    (copyMembers mode members r).outcome = .ok r := by
  obtain ⟨rhss, hr, hend⟩ := copyMembers_trace h
  have hstart := start_copyMembers h
  rcases hend with ⟨hmode, hfull⟩ | hall
  · cases members with
    | nil => rfl
    | cons source members =>
      rw [← hstart] at hfull
      rw [copyMembers, if_pos ⟨hmode, hfull⟩]
      rfl
  · refine copyMembers_eq_self fun m hm rhs hrhs => ?_
    have hne : m ≠ g.start := by
      rintro rfl
      exact hmembers hm
    have hpair : ∀ p ∈ rhss.map fun rhs => (g.start, rhs), p.1 = g.start := by
      intro p hp
      obtain ⟨_, _, rfl⟩ := List.mem_map.mp hp
      rfl
    rw [hr, mem_alternatives_addAll] at hrhs
    have hold := hrhs.resolve_right fun hp => hne (hpair _ hp)
    have hcopied : (g.start, rhs) ∈ rhss.map fun rhs => (g.start, rhs) :=
      List.mem_map_of_mem (hall m hm rhs hold)
    rw [hstart, hr, mem_alternatives_addAll, mem_vocabulary_addAll]
    exact ⟨Or.inr hcopied, Or.inr (List.mem_map_of_mem (f := Prod.fst) hcopied)⟩

/-- The closure need not be one of the grammar. -/
theorem completeStart_of_completeStart {D : UnitClosure} {mode : ClosureCopy}
    (h : (g.completeStart D mode).outcome = .ok r) :
    (r.completeStart D mode).outcome = .ok r := by
  rw [completeStart] at h
  cases hget : D.get? g.start with
  | none =>
    rw [hget] at h
    cases h
  | some members =>
    rw [hget] at h
    have hmembers : g.start ∉ (members.erase g.start).toList := by
      intro hmem
      exact (OrderedSet.mem_erase.mp hmem).2 rfl
    let g' : Grammar := { g with rules := g.rules.withKey g.start }
    have hagain := copyMembers_of_copyMembers (g := g') hmembers h
    have hstart : r.start = g.start := start_copyMembers (g := g') h
    have hkey : r.start ∈ r.rules := by
      obtain ⟨rhss, hr, _⟩ := copyMembers_trace (g := g') h
      rw [hstart, hr, mem_rules_addAll]
      exact Or.inl (RuleTable.mem_withKey.mpr (Or.inr rfl))
    rw [← hstart] at hget hagain
    rw [completeStart, hget, RuleTable.withKey_eq_self hkey]
    exact hagain

/-! ### Terminals -/

theorem liftTerminals_of_liftTerminals (hg : g.Supplied) (h : g.liftTerminals.outcome = .ok r) :
    r.liftTerminals.outcome = .ok r := by
  obtain ⟨σ, hσ⟩ := stoodIn_of_liftTerminals hg h
  exact liftTerminals_eq_self (hσ.madeFrom hg.keys).keys (distinct_liftTerminals h) hσ.isLifted

end Grammar

/-! ### All stages -/

/-- A stage that is done a second time, with the same closure and the same options, gives back the
grammar that it left the first time. -/
theorem apply_of_apply (o : Options) (D : UnitClosure) (stage : Stage) (start : Symbol)
    {ps : List Production} (hps : ∀ p ∈ ps, p.1 ≠ Symbol.marker ∧ p.2 ≠ [] ∧
      (Symbol.marker ∈ p.2 → p.2 = [Symbol.marker])) {d : Draft}
    (h : (stage.apply o ⟨Grammar.ofProductions start ps, D⟩).outcome = .ok d) :
    ∃ d', (stage.apply o ⟨d.grammar, D⟩).outcome = .ok d' ∧ d'.grammar = d.grammar := by
  have hg : (Grammar.ofProductions start ps).Supplied := Grammar.supplied_ofProductions start ps
  have hmarker : (Grammar.ofProductions start ps).MarkerAlone := by
    intro s rhs hrhs
    exact (hps (s, rhs) (Grammar.mem_alternatives_ofProductions.mp hrhs)).2
  cases stage with
  | longRules =>
    obtain ⟨g₁, hg₁, hpure⟩ := Noted.outcome_bind_eq_ok_iff.mp h
    cases hpure
    have hagain := Grammar.binarize_of_binarize hg.keys hmarker hg₁
    exact ⟨_, Noted.outcome_bind_eq_ok_iff.mpr ⟨_, hagain, rfl⟩, rfl⟩
  | emptyRules =>
    cases h
    exact ⟨_, rfl, Grammar.dropEmpty_dropEmpty hmarker⟩
  | unitRules =>
    obtain ⟨g₃, hg₃, rfl⟩ := exists_of_map_eq_ok h
    exact ⟨_, Stage.apply_unitRules_eq_ok (Grammar.eliminateUnits_of_eliminateUnits hg.keys hg₃), rfl⟩
  | startRules =>
    obtain ⟨g₄, hg₄, hpure⟩ := Noted.outcome_bind_eq_ok_iff.mp h
    cases hpure
    have hagain := Grammar.completeStart_of_completeStart hg₄
    exact ⟨_, Noted.outcome_bind_eq_ok_iff.mpr ⟨_, hagain, rfl⟩, rfl⟩
  | terminalLifting =>
    obtain ⟨g₅, hg₅, hpure⟩ := Noted.outcome_bind_eq_ok_iff.mp h
    cases hpure
    have hagain := Grammar.liftTerminals_of_liftTerminals hg hg₅
    exact ⟨_, Noted.outcome_bind_eq_ok_iff.mpr ⟨_, hagain, rfl⟩, rfl⟩
  | uselessRules =>
    cases h
    exact ⟨_, rfl, Grammar.prune_prune⟩

/-- Long, empty and unit right sides side by side; `D` derives nothing but the empty word. -/
def assortedProductions : List Production :=
  [(⟨'S'⟩, [⟨'A'⟩, ⟨'b'⟩, ⟨'C'⟩]), (⟨'S'⟩, [⟨'D'⟩, ⟨'C'⟩]), (⟨'C'⟩, [⟨'e'⟩]), (⟨'C'⟩, [⟨'A'⟩]),
    (⟨'A'⟩, [⟨'C'⟩]), (⟨'A'⟩, [⟨'a'⟩, ⟨'a'⟩]), (⟨'D'⟩, [⟨'e'⟩])]

def assortedDraft : Draft := ⟨Grammar.ofProductions ⟨'S'⟩ assortedProductions, ∅⟩

theorem apply_of_apply_assorted :
    (∀ p ∈ assortedProductions, p.1 ≠ Symbol.marker ∧ p.2 ≠ [] ∧
      (Symbol.marker ∈ p.2 → p.2 = [Symbol.marker])) ∧
    (∃ d d', (Stage.emptyRules.apply {} assortedDraft).outcome = .ok d ∧
      d.grammar ≠ assortedDraft.grammar ∧
      (Stage.emptyRules.apply {} ⟨d.grammar, ∅⟩).outcome = .ok d' ∧ d'.grammar = d.grammar) ∧
    ∃ d d', (Stage.longRules.apply {} assortedDraft).outcome = .ok d ∧
      d.grammar ≠ assortedDraft.grammar ∧
      (Stage.longRules.apply {} ⟨d.grammar, ∅⟩).outcome = .ok d' ∧ d'.grammar = d.grammar := by
  have hps : ∀ p ∈ assortedProductions, p.1 ≠ Symbol.marker ∧ p.2 ≠ [] ∧
      (Symbol.marker ∈ p.2 → p.2 = [Symbol.marker]) := by decide
  let changed (d : Draft) : Bool := decide (d.grammar ≠ assortedDraft.grammar)
  refine ⟨hps, ?_, ?_⟩
  · obtain ⟨d, hd⟩ := exists_of_toOption_isSome
      (x := (Stage.emptyRules.apply {} assortedDraft).outcome) (by decide +kernel)
    obtain ⟨d', hd', hsame⟩ := apply_of_apply {} ∅ .emptyRules ⟨'S'⟩ hps hd
    have hchanged := of_decide_eq_true (eq_of_map_toOption hd changed (by decide +kernel))
    exact ⟨d, d', hd, hchanged, hd', hsame⟩
  · obtain ⟨d, hd⟩ := exists_of_toOption_isSome
      (x := (Stage.longRules.apply {} assortedDraft).outcome) (by decide +kernel)
    obtain ⟨d', hd', hsame⟩ := apply_of_apply {} ∅ .longRules ⟨'S'⟩ hps hd
    have hchanged := of_decide_eq_true (eq_of_map_toOption hd changed (by decide +kernel))
    exact ⟨d, d', hd, hchanged, hd', hsame⟩

end ChomskyForm
