import ChomskyForm.Proofs.Conversion.Shape
import ChomskyForm.Proofs.Rebuild

/-!
# Alternatives are never repeated

Every stage of a conversion leaves each symbol without repeated alternatives, as it drops alternatives
or adds them where they are new (`distinct_of_apply`).
-/

namespace ChomskyForm

namespace Grammar

variable {g g' : Grammar}

theorem distinct_binarize (h : g.binarize.outcome = .ok g') : g'.rules.Distinct := by
  obtain ⟨plan, hplan⟩ := binarize_planned h
  rw [hplan.rules]
  exact RuleTable.distinct_ofEntries _

theorem distinct_dropEmpty (hg : g.rules.Distinct) : g.dropEmpty.rules.Distinct := by
  have hcompensated : g.compensated.rules.Distinct :=
    distinct_addAll (g := g.dropMarkers) (hg.filterAlternatives _) _
  exact (hcompensated.filter _).filterAlternatives _

theorem distinct_eliminateUnits (hg : g.rules.Distinct) {D : UnitClosure}
    (h : g.eliminateUnits D = .ok g') : g'.rules.Distinct := by
  refine foldlM_induction (P := fun _ cur => cur.rules.Distinct) ?_ ?_ h
  · intro _ p cur next _ hcur hadd
    obtain ⟨rhss, rfl, _⟩ := addInstances_eq_ok hadd
    exact distinct_addAll hcur _
  · exact (hg.filterAlternatives _).filter _

theorem distinct_copyMembers {mode : ClosureCopy} {sources : List Symbol} (hg : g.rules.Distinct)
    (h : (copyMembers mode sources g).outcome = .ok g') : g'.rules.Distinct := by
  induction sources generalizing g with
  | nil =>
    cases h
    exact hg
  | cons source sources ih =>
    rw [copyMembers] at h
    split at h
    · cases h
      exact hg
    · obtain ⟨next, hcopy, hrest⟩ := Noted.outcome_bind_eq_ok_iff.mp h
      rw [outcome_copyRules] at hcopy
      cases hcopy
      exact ih (distinct_addAll hg _) hrest

theorem distinct_completeStart (hg : g.rules.Distinct) {D : UnitClosure} {mode : ClosureCopy}
    (h : (g.completeStart D mode).outcome = .ok g') : g'.rules.Distinct := by
  rw [completeStart] at h
  cases hget : D.get? g.start with
  | none =>
    rw [hget] at h
    cases h
  | some members =>
    rw [hget] at h
    exact distinct_copyMembers (hg.withKey g.start) h

/-- Letters are all that it takes to lift one symbol. -/
theorem drew_of_lift {σ σ' : StandIns} {lhs s t : Symbol}
    (h : (lift lhs s (g, σ)).outcome = .ok (t, g', σ')) : ∃ ls, g.Drew ls g' := by
  simp only [lift] at h
  split at h
  · cases h
    exact ⟨[], .refl g⟩
  · split at h
    · cases h
      exact ⟨[], .refl g⟩
    · obtain ⟨⟨letter, next⟩, hdraw, hpure⟩ := Noted.outcome_bind_eq_ok_iff.mp h
      cases hpure
      exact ⟨[letter], drew_of_drawFor hdraw⟩

theorem drew_of_addLifted {state state' : Grammar × StandIns} {lhs : Symbol} {rhs : RightSide}
    (h : (addLifted lhs state rhs).outcome = .ok state') :
    ∃ ls next rhs', state.1.Drew ls next ∧ state'.1 = next.add lhs rhs' := by
  match rhs with
  | [] | [_] | _ :: _ :: _ :: _ =>
    cases h
    exact ⟨[], state.1, _, .refl _, rfl⟩
  | [left, right] =>
    obtain ⟨⟨l, g₁, σ₁⟩, hleft, h⟩ := Noted.outcome_bind_eq_ok_iff.mp h
    obtain ⟨⟨r, g₂, σ₂⟩, hright, hpure⟩ := Noted.outcome_bind_eq_ok_iff.mp h
    cases hpure
    obtain ⟨ls, hdrew⟩ := drew_of_lift hleft
    obtain ⟨ms, hdrew'⟩ := drew_of_lift hright
    exact ⟨ls ++ ms, g₂, [l, r], hdrew.trans hdrew', rfl⟩

theorem distinct_liftTerminals (h : g.liftTerminals.outcome = .ok g') : g'.rules.Distinct := by
  obtain ⟨⟨lifted, σ⟩, hfold, hpure⟩ := Noted.outcome_bind_eq_ok_iff.mp h
  cases hpure
  refine distinct_addAll ?_ _
  refine Noted.rebuild_induction
    (fun lhs (state : Grammar × StandIns) =>
      ({ state.1 with rules := state.1.rules.withKey lhs }, state.2))
    (fun lhs state rhs => addLifted lhs state rhs)
    (P := fun _ _ state => state.1.rules.Distinct) ?_ ?_ RuleTable.distinct_empty hfold
  · intro _ _ state lhs hstate
    exact RuleTable.Distinct.withKey hstate lhs
  · intro _ _ state state' lhs rhs _ hstate _ hadd
    obtain ⟨_, next, rhs', hdrew, hstate'⟩ := drew_of_addLifted hadd
    rw [hstate', add, hdrew.rules]
    exact hstate.add lhs rhs'

theorem distinct_prune (hg : g.rules.Distinct) : g.prune.rules.Distinct := by
  have hproductive : g.dropUnproductive.rules.Distinct := (hg.filterAlternatives _).filter _
  exact hproductive.filter _

end Grammar

theorem distinct_of_apply {o : Options} {t : Stage} {d d' : Draft} (h : d.grammar.rules.Distinct)
    (happly : (t.apply o d).outcome = .ok d') : d'.grammar.rules.Distinct := by
  cases t with
  | longRules =>
    obtain ⟨g₁, hg₁, hpure⟩ := Noted.outcome_bind_eq_ok_iff.mp happly
    cases hpure
    exact Grammar.distinct_binarize hg₁
  | emptyRules =>
    cases happly
    exact Grammar.distinct_dropEmpty h
  | unitRules =>
    obtain ⟨g₃, hg₃, rfl⟩ := exists_of_map_eq_ok happly
    exact Grammar.distinct_eliminateUnits h hg₃
  | startRules =>
    obtain ⟨g₄, hg₄, hpure⟩ := Noted.outcome_bind_eq_ok_iff.mp happly
    cases hpure
    exact Grammar.distinct_completeStart h hg₄
  | terminalLifting =>
    obtain ⟨g₅, hg₅, hpure⟩ := Noted.outcome_bind_eq_ok_iff.mp happly
    cases hpure
    exact Grammar.distinct_liftTerminals hg₅
  | uselessRules =>
    cases happly
    exact Grammar.distinct_prune h

theorem distinct_of_convert {o : Options} {g r : Grammar} (h : g.rules.Distinct)
    (hr : (g.convert o).outcome = .ok r) : r.rules.Distinct :=
  Conversion.outcome_induction (P := fun g => g.rules.Distinct)
    (fun _ _ _ hd happly => distinct_of_apply hd happly) (d := { grammar := g }) h hr

end ChomskyForm
