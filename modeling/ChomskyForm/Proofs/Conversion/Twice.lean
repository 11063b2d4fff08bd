import ChomskyForm.Proofs.Conversion.RoundTrip
import ChomskyForm.Proofs.Stages.Unchanged

/-!
# Converting twice

A result of a conversion has nothing left that any stage of the same conversion would change
(`Finished.of_convert`), so that a second run goes through all stages with one and the same grammar
(`Finished.through`).

A result whose start symbol has lost all productions is the exception.  Without pruning the start
symbol is dead in the second run, and what mentions it is dropped.
-/

namespace ChomskyForm

theorem Options.prune_of_mem_stages {o : Options} (h : .uselessRules ∈ o.stages) :
    o.prune = true := by
  obtain ⟨mode, lift, prune⟩ := o
  cases prune with
  | true => rfl
  | false =>
    revert h
    cases mode <;> cases lift <;> decide

/-- The grammar has nothing that a stage of the conversion would change. -/
structure Finished (o : Options) (g : Grammar) : Prop where
  keys : ∀ s ∈ g.rules, s ∈ g.vocabulary
  start_mem : g.start ∈ g.rules
  distinct : g.rules.Distinct
  binary : g.IsBinary
  emptyFree : g.IsEmptyFree
  full : g.IsFull
  unitFree : g.IsUnitFree
  lifted : .terminalLifting ∈ o.stages → g.IsLifted
  pruned : .uselessRules ∈ o.stages → g.prune = g

namespace Finished

variable {o : Options} {g : Grammar}

theorem length_le (h : Finished o g) {s : Symbol} {rhs : RightSide} (hrhs : rhs ∈ g.alternatives s) :
    rhs.length ≤ 2 := by
  have hlen := Grammar.isBinary_iff.mp h.binary s rhs hrhs
  omega

theorem ne_nil (h : Finished o g) {s : Symbol} {rhs : RightSide} (hrhs : rhs ∈ g.alternatives s) :
    rhs ≠ [] := by
  have hlen := Grammar.isBinary_iff.mp h.binary s rhs hrhs
  exact List.ne_nil_of_length_pos (by omega)

/-- One stage gives the grammar back; the closure is that of the grammar from the third stage on. -/
theorem apply (h : Finished o g) {t : Stage} (ht : t ∈ o.stages) {d : Draft} (hd : d.grammar = g)
    (hclosure : t = .startRules → d.closure = g.unitClosure) :
    ∃ d', (t.apply o d).outcome = .ok d' ∧ d'.grammar = g ∧
      (t = .unitRules ∨ d.closure = g.unitClosure → d'.closure = g.unitClosure) := by
  obtain ⟨cur, D⟩ := d
  cases hd
  cases t with
  | longRules =>
    have hstage := Grammar.binarize_eq_self h.keys h.distinct fun _ _ hrhs => h.length_le hrhs
    exact ⟨⟨cur, D⟩, Noted.outcome_bind_eq_ok_iff.mpr ⟨_, hstage, rfl⟩, rfl, by simp⟩
  | emptyRules =>
    have hstage := Grammar.dropEmpty_eq_self (fun _ _ hrhs => h.ne_nil hrhs) h.emptyFree h.full
    exact ⟨⟨cur.dropEmpty, D⟩, rfl, hstage, by simp⟩
  | unitRules =>
    have hstage := Grammar.eliminateUnits_eq_self h.keys h.unitFree h.full.1
    exact ⟨⟨cur, cur.unitClosure⟩, Stage.apply_unitRules_eq_ok hstage, rfl, fun _ => rfl⟩
  | startRules =>
    have hstage := Grammar.completeStart_eq_self h.start_mem (h.keys _ h.start_mem) h.unitFree
      o.closureCopy
    rw [← hclosure rfl] at hstage
    exact ⟨⟨cur, D⟩, Noted.outcome_bind_eq_ok_iff.mpr ⟨_, hstage, rfl⟩, rfl, by simp⟩
  | terminalLifting =>
    have hstage := Grammar.liftTerminals_eq_self h.keys h.distinct (h.lifted ht)
    exact ⟨⟨cur, D⟩, Noted.outcome_bind_eq_ok_iff.mpr ⟨_, hstage, rfl⟩, rfl, by simp⟩
  | uselessRules => exact ⟨⟨cur.prune, D⟩, rfl, h.pruned ht, by simp⟩

/-- A run through stages in their order; if the third is not among them, it is over. -/
theorem through (h : Finished o g) {stages : List Stage} (hsub : ∀ t ∈ stages, t ∈ o.stages)
    (hsorted : stages.Pairwise fun t u => t.rank < u.rank) {d : Draft} (hd : d.grammar = g)
    (hclosure : .unitRules ∉ stages → d.closure = g.unitClosure) :
    (Conversion.through o stages d).outcome = .ok g ∧
      (Conversion.through o stages d).shown = stages.map fun t => (t, g) := by
  induction stages generalizing d with
  | nil => exact ⟨congrArg Except.ok hd, rfl⟩
  | cons t stages ih =>
    obtain ⟨ht, hsub⟩ := List.forall_mem_cons.mp hsub
    obtain ⟨hlater, hsorted⟩ := List.pairwise_cons.mp hsorted
    have hknown : t = .startRules → d.closure = g.unitClosure := by
      intro hstart
      refine hclosure fun hmem => ?_
      rw [hstart] at hlater hmem
      have hlt := hlater .unitRules ((List.mem_cons.mp hmem).resolve_left (by decide))
      exact absurd hlt (by decide)
    obtain ⟨d', happly, hd', hclosure'⟩ := h.apply ht hd hknown
    have hnext : .unitRules ∉ stages → d'.closure = g.unitClosure := by
      intro hnot
      refine hclosure' ?_
      by_cases hunit : t = .unitRules
      · exact Or.inl hunit
      · right
        refine hclosure fun hmem => ?_
        rcases List.mem_cons.mp hmem with hmem | hmem
        · exact hunit hmem.symm
        · exact hnot hmem
    obtain ⟨houtcome, hshown⟩ := ih hsub hsorted hd' hnext
    rw [Conversion.through_cons_of_ok happly, houtcome, hshown, hd']
    exact ⟨rfl, rfl⟩

theorem convert (h : Finished o g) :
    (g.convert o).outcome = .ok g ∧ (g.convert o).shown = o.stages.map fun t => (t, g) := by
  have hunit : .unitRules ∈ o.stages := o.mem_stages_of_rank_lt (by decide)
  exact h.through (d := { grammar := g }) (fun _ => id) o.pairwise_stages rfl
    fun hnot => absurd hunit hnot

theorem of_convert {r : Grammar} (hg : g.IsReadable) (hdistinct : g.rules.Distinct)
    (hr : (g.convert o).outcome = .ok r)
    (hstart : o.prune = true ∨ r.alternatives r.start ≠ []) : Finished o r := by
  have hdone := Settled.of_convert_outcome hg hr
  have hempty : .emptyRules ∈ o.stages := o.mem_stages_of_rank_lt (by decide)
  exact {
    keys := hdone.coherent.keys
    start_mem := hdone.start_mem
    distinct := distinct_of_convert hdistinct hr
    binary := hdone.binary (o.mem_stages_of_rank_lt (by decide))
    emptyFree := hdone.emptyFree hempty
    full := by
      rcases hstart with hprune | hstart
      · obtain ⟨_, g', hsettled, rfl⟩ := exists_prune_of_convert hg hprune hr
        exact Grammar.isFull_prune hsettled.coherent
      · exact ⟨hdone.full hempty, Or.inl hstart⟩
    unitFree := hdone.unitFree (o.mem_stages_of_rank_lt (by decide))
    lifted := hdone.lifted
    pruned := by
      intro hmem
      obtain ⟨_, g', _, rfl⟩ := exists_prune_of_convert hg (Options.prune_of_mem_stages hmem) hr
      exact Grammar.prune_prune }

end Finished

/-- The second conversion with the same options shows the result of the first after every stage, and
returns it. -/
theorem convert_of_convert {file : String} {bytes : Option (List UInt8)} {start : Option Symbol}
    {g r : Grammar} {o : Options} (h : GrammarFile.ofBytes? file bytes start = .ok g)
    (hr : (g.convert o).outcome = .ok r)
    (hstart : o.prune = true ∨ r.alternatives r.start ≠ []) :
    (r.convert o).outcome = .ok r ∧ (r.convert o).shown = o.stages.map fun t => (t, r) := by
  have hdistinct : g.rules.Distinct := by
    obtain ⟨ps, hps⟩ := Grammar.exists_eq_ofProductions_of_ofBytes? h
    rw [hps]
    exact Grammar.distinct_ofProductions g.start ps
  exact (Finished.of_convert (isReadable_of_ofBytes? h) hdistinct hr hstart).convert

theorem convert_of_convert_sample :
    GrammarFile.ofBytes? "sample" (some (GrammarFile.encodeText sampleText.toList)) none =
      .ok sampleGrammar ∧
    ∃ r, (sampleGrammar.convert ⟨.everyMember, true, false⟩).outcome = .ok r ∧
      r.alternatives r.start ≠ [] ∧ (r.convert ⟨.everyMember, true, false⟩).outcome = .ok r := by
  obtain ⟨r, hr⟩ := exists_of_toOption_isSome
    (x := (sampleGrammar.convert ⟨.everyMember, true, false⟩).outcome) (by decide +kernel)
  have hstart := of_decide_eq_true
    (eq_of_map_toOption hr (fun r => decide (r.alternatives r.start ≠ [])) (by decide +kernel))
  exact ⟨ofBytes?_sampleText, r, hr, hstart,
    (convert_of_convert ofBytes?_sampleText hr (Or.inr hstart)).1⟩

end ChomskyForm
