import ChomskyForm.Conversion
import ChomskyForm.Grammar.Printer
import ChomskyForm.Proofs.FileGrammar
import ChomskyForm.Proofs.Stages.Binary
import ChomskyForm.Proofs.Stages.EmptyFree
import ChomskyForm.Proofs.Stages.Lifted
import ChomskyForm.Proofs.Stages.StartRules
import ChomskyForm.Proofs.Stages.UnitFree
import ChomskyForm.Proofs.Stages.Useful

/-!
# The shape of the grammars that a conversion shows

What a stage has brought about holds of every grammar that is shown later (`Settled`): one stage
keeps it (`Settled.apply`), and so does a run, be it finished or not (`Settled.of_shown`).
-/

namespace ChomskyForm

/-! ### The order of the stages -/

/-- The place of a stage among all. -/
def Stage.rank : Stage → Nat
  | longRules => 0
  | emptyRules => 1
  | unitRules => 2
  | startRules => 3
  | terminalLifting => 4
  | uselessRules => 5

theorem Options.pairwise_stages (o : Options) :
    o.stages.Pairwise fun t u => t.rank < u.rank := by
  obtain ⟨mode, lift, prune⟩ := o
  cases mode <;> cases lift <;> cases prune <;> decide

theorem Options.mem_stages_of_rank_lt (o : Options) {t : Stage} (h : t.rank < 4) :
    t ∈ o.stages := by
  refine List.mem_append_left _ (List.mem_append_left _ ?_)
  cases t <;> revert h <;> decide

theorem Options.mem_stages_of_liftTerminals (o : Options) (h : o.liftTerminals = true) :
    .terminalLifting ∈ o.stages := by
  refine List.mem_append_left _ (List.mem_append_right _ ?_)
  rw [if_pos h]
  exact List.mem_singleton.mpr rfl

/-- The third stage hands on the closure of the grammar that it was given. -/
theorem Stage.apply_unitRules_eq_ok {o : Options} {g g₃ : Grammar} {D : UnitClosure}
    (h : g.eliminateUnits g.unitClosure = .ok g₃) :
    (Stage.apply o ⟨g, D⟩ .unitRules).outcome = .ok ⟨g₃, g.unitClosure⟩ := by
  show (g.eliminateUnits g.unitClosure).map (fun g₃ => Draft.mk g₃ g.unitClosure) = _
  rw [h]
  rfl

namespace Conversion

variable {o : Options} {t : Stage} {stages : List Stage} {d d' : Draft}

theorem through_cons_of_ok (h : (t.apply o d).outcome = .ok d') :
    through o (t :: stages) d = ⟨(t, d'.grammar) :: (through o stages d').shown,
      (t.apply o d).notices ++ (through o stages d').notices, (through o stages d').outcome⟩ := by
  rw [through]
  simp only [h]

theorem through_cons_of_error {e : ConversionError} (h : (t.apply o d).outcome = .error e) :
    through o (t :: stages) d = ⟨[], (t.apply o d).notices, .error e⟩ := by
  rw [through]
  simp only [h]

theorem exists_of_through_cons_eq_ok {r : Grammar}
    (h : (through o (t :: stages) d).outcome = .ok r) :
    ∃ d', (t.apply o d).outcome = .ok d' ∧ (through o stages d').outcome = .ok r ∧
      (through o (t :: stages) d).shown = (t, d'.grammar) :: (through o stages d').shown := by
  cases happly : (t.apply o d).outcome with
  | error e =>
    rw [through_cons_of_error happly] at h
    cases h
  | ok d' =>
    rw [through_cons_of_ok happly] at h ⊢
    exact ⟨d', rfl, h, rfl⟩

/-- What every stage keeps holds of the grammar that a finished run returns. -/
theorem outcome_induction {P : Grammar → Prop}
    (step : ∀ t d d', P d.grammar → (Stage.apply o d t).outcome = .ok d' → P d'.grammar)
    (start : P d.grammar) {r : Grammar} (h : (through o stages d).outcome = .ok r) : P r := by
  induction stages generalizing d with
  | nil =>
    cases h
    exact start
  | cons t stages ih =>
    obtain ⟨d', happly, hrest, _⟩ := exists_of_through_cons_eq_ok h
    exact ih (step t d d' start happly) hrest

/-- The grammars that are shown after the stage and after the later ones. -/
def shownFrom (c : Conversion) (t : Stage) : List Grammar :=
  (c.shown.dropWhile fun e => e.1 ≠ t).map Prod.snd

theorem exists_of_mem_dropWhile {l : List (Stage × Grammar)} {e : Stage × Grammar}
    (h : e ∈ l.dropWhile fun e => e.1 ≠ t) :
    ∃ seen later, l = seen ++ e :: later ∧ t ∈ seen.map Prod.fst ++ [e.1] := by
  induction l with
  | nil => exact absurd h List.not_mem_nil
  | cons f l ih =>
    by_cases hf : f.1 = t
    · obtain ⟨seen, later, heq⟩ := List.append_of_mem ((List.dropWhile_sublist _).mem h)
      refine ⟨seen, later, heq, ?_⟩
      cases seen with
      | nil =>
        rw [List.nil_append] at heq
        rw [← (List.cons.inj heq).1, hf]
        exact List.mem_singleton.mpr rfl
      | cons s seen =>
        rw [← (List.cons.inj heq).1, List.map_cons, hf]
        exact List.mem_cons_self ..
    · rw [List.dropWhile_cons, if_pos (decide_eq_true hf)] at h
      obtain ⟨seen, later, heq, ht⟩ := ih h
      refine ⟨f :: seen, later, ?_, ?_⟩
      · rw [heq, List.cons_append]
      · exact List.mem_cons_of_mem _ ht

end Conversion

/-! ### What a stage leaves for ever -/

/-- What holds of a grammar that went through the stages `done`. -/
structure Settled (start : Symbol) (done : List Stage) (g : Grammar) : Prop where
  coherent : g.Coherent
  start_eq : g.start = start
  start_mem : g.start ∈ g.rules
  markerAlone : (∀ u ∈ done, u.rank < Stage.emptyRules.rank) → g.MarkerAlone
  binary : .longRules ∈ done → g.IsBinary
  emptyFree : .emptyRules ∈ done → g.IsEmptyFree
  full : .emptyRules ∈ done → ∀ s ∈ g.rules, s ≠ g.start → g.alternatives s ≠ []
  unitFree : .unitRules ∈ done → g.IsUnitFree
  lifted : .terminalLifting ∈ done → g.IsLifted

namespace Settled

variable {start : Symbol} {done : List Stage} {g : Grammar}

theorem of_isReadable (h : g.IsReadable) : Settled g.start [] g where
  coherent := h.coherent
  start_eq := rfl
  start_mem := h.start_mem
  markerAlone _ := h.markerAlone
  binary hmem := absurd hmem List.not_mem_nil
  emptyFree hmem := absurd hmem List.not_mem_nil
  full hmem := absurd hmem List.not_mem_nil
  unitFree hmem := absurd hmem List.not_mem_nil
  lifted hmem := absurd hmem List.not_mem_nil

theorem start_mem_vocabulary (h : Settled start done g) : g.start ∈ g.vocabulary :=
  h.coherent.keys g.start h.start_mem

/-! One lemma for each stage.  The stages that come later have brought about nothing yet
(`not_mem_passed`), and what the earlier ones brought about is kept (`mem_of_mem_passed`). -/

theorem mem_of_mem_passed {t u : Stage} (hne : u ≠ t) (hu : u ∈ done ++ [t]) : u ∈ done :=
  (List.mem_append.mp hu).resolve_right fun ht => hne (List.mem_singleton.mp ht)

theorem not_mem_passed {t u : Stage} (hbefore : ∀ u ∈ done, u.rank < t.rank)
    (hlate : t.rank < u.rank) : u ∉ done ++ [t] := by
  intro hu
  rcases List.mem_append.mp hu with hu | hu
  · have hlt := hbefore u hu
    omega
  · rw [List.mem_singleton.mp hu] at hlate
    omega

theorem not_forall_passed {t : Stage} (ht : Stage.emptyRules.rank ≤ t.rank) :
    ¬∀ u ∈ done ++ [t], u.rank < Stage.emptyRules.rank := by
  intro hall
  have hlt := hall t (List.mem_append_right _ (List.mem_singleton.mpr rfl))
  omega

theorem binarize {g₁ : Grammar} (h : Settled start done g)
    (hbefore : ∀ u ∈ done, u.rank < Stage.longRules.rank) (hg₁ : g.binarize.outcome = .ok g₁) :
    Settled start (done ++ [.longRules]) g₁ := by
  obtain ⟨cuts, hcut⟩ := Grammar.binarize_cut hg₁
  have hmarker : g.MarkerAlone := h.markerAlone fun u hu => Nat.lt_succ_of_lt (hbefore u hu)
  exact {
    coherent := hcut.coherent h.coherent
    start_eq := hcut.start.trans h.start_eq
    start_mem := hcut.start_mem h.start_mem
    markerAlone := fun _ => hcut.markerAlone hmarker
    binary := fun _ => hcut.isBinary hmarker
    emptyFree := fun hmem => absurd hmem (not_mem_passed hbefore (by decide))
    full := fun hmem => absurd hmem (not_mem_passed hbefore (by decide))
    unitFree := fun hmem => absurd hmem (not_mem_passed hbefore (by decide))
    lifted := fun hmem => absurd hmem (not_mem_passed hbefore (by decide)) }

theorem dropEmpty (h : Settled start done g)
    (hbefore : ∀ u ∈ done, u.rank < Stage.emptyRules.rank) :
    Settled start (done ++ [.emptyRules]) g.dropEmpty where
  coherent := Grammar.coherent_dropEmpty h.coherent
  start_eq := Grammar.start_dropEmpty.trans h.start_eq
  start_mem := by
    rw [Grammar.start_dropEmpty]
    exact Grammar.start_mem_dropEmpty h.start_mem
  markerAlone hall := absurd hall (not_forall_passed (Nat.le_refl _))
  binary hmem := Grammar.isBinary_dropEmpty (h.binary (mem_of_mem_passed (by decide) hmem))
  emptyFree _ := Grammar.isEmptyFree_dropEmpty (h.markerAlone hbefore)
  full _ s hs hne := by
    rw [Grammar.start_dropEmpty] at hne
    exact Grammar.alternatives_dropEmpty_ne_nil hs hne
  unitFree hmem := absurd hmem (not_mem_passed hbefore (by decide))
  lifted hmem := absurd hmem (not_mem_passed hbefore (by decide))

theorem eliminateUnits {g₃ : Grammar} (h : Settled start done g)
    (hbefore : ∀ u ∈ done, u.rank < Stage.unitRules.rank)
    (hg₃ : g.eliminateUnits g.unitClosure = .ok g₃) :
    Settled start (done ++ [.unitRules]) g₃ where
  coherent := Grammar.coherent_eliminateUnits hg₃ h.coherent
  start_eq := (Grammar.expanded_of_eliminateUnits h.coherent.keys hg₃).start.trans h.start_eq
  start_mem := Grammar.start_mem_eliminateUnits h.coherent.keys hg₃ h.start_mem
  markerAlone hall := absurd hall (not_forall_passed (by decide))
  binary hmem := Grammar.isBinary_eliminateUnits h.coherent.keys hg₃
    (h.binary (mem_of_mem_passed (by decide) hmem))
  emptyFree hmem := Grammar.isEmptyFree_eliminateUnits hg₃ h.coherent
    (h.emptyFree (mem_of_mem_passed (by decide) hmem))
  full _ _ hs hne := Grammar.alternatives_eliminateUnits_ne_nil h.coherent.keys hg₃ hs hne
  unitFree _ := Grammar.isUnitFree_eliminateUnits h.coherent.keys hg₃
  lifted hmem := absurd hmem (not_mem_passed hbefore (by decide))

theorem completeStart {D : UnitClosure} {mode : ClosureCopy} {g₄ : Grammar}
    (h : Settled start done g) (hbefore : ∀ u ∈ done, u.rank < Stage.startRules.rank)
    (hg₄ : (g.completeStart D mode).outcome = .ok g₄) :
    Settled start (done ++ [.startRules]) g₄ := by
  obtain ⟨_, _, hcompleted⟩ := Grammar.completeStart_completed h.start_mem_vocabulary hg₄
  exact {
    coherent := hcompleted.coherent h.coherent h.start_mem_vocabulary
    start_eq := hcompleted.start.trans h.start_eq
    start_mem := hcompleted.start_mem
    markerAlone := fun hall => absurd hall (not_forall_passed (by decide))
    binary := fun hmem => hcompleted.isBinary (h.binary (mem_of_mem_passed (by decide) hmem))
    emptyFree := fun hmem =>
      hcompleted.isEmptyFree (h.emptyFree (mem_of_mem_passed (by decide) hmem))
    full := fun hmem _ hs hne =>
      hcompleted.alternatives_ne_nil (h.full (mem_of_mem_passed (by decide) hmem)) hs hne
    unitFree := fun hmem =>
      hcompleted.isUnitFree (h.unitFree (mem_of_mem_passed (by decide) hmem))
    lifted := fun hmem => absurd hmem (not_mem_passed hbefore (by decide)) }

theorem liftTerminals {g₅ : Grammar} (h : Settled start done g)
    (hg₅ : g.liftTerminals.outcome = .ok g₅) :
    Settled start (done ++ [.terminalLifting]) g₅ := by
  obtain ⟨_, hstood⟩ := Grammar.stoodIn_of_liftTerminals h.coherent.supplied hg₅
  exact {
    coherent := hstood.coherent h.coherent
    start_eq := hstood.start.trans h.start_eq
    start_mem := hstood.start_mem h.start_mem
    markerAlone := fun hall => absurd hall (not_forall_passed (by decide))
    binary := fun hmem => hstood.isBinary (h.binary (mem_of_mem_passed (by decide) hmem))
    emptyFree := fun hmem => hstood.isEmptyFree (h.emptyFree (mem_of_mem_passed (by decide) hmem))
    full := fun hmem _ hs hne =>
      hstood.alternatives_ne_nil (h.full (mem_of_mem_passed (by decide) hmem)) hs hne
    unitFree := fun hmem =>
      hstood.isUnitFree h.coherent (h.unitFree (mem_of_mem_passed (by decide) hmem))
    lifted := fun _ => hstood.isLifted }

theorem prune (h : Settled start done g) : Settled start (done ++ [.uselessRules]) g.prune where
  coherent := Grammar.coherent_prune h.coherent
  start_eq := h.start_eq
  start_mem := Grammar.start_mem_prune h.start_mem
  markerAlone hall := absurd hall (not_forall_passed (by decide))
  binary hmem := Grammar.isBinary_prune (h.binary (mem_of_mem_passed (by decide) hmem))
  emptyFree hmem := Grammar.isEmptyFree_prune (h.emptyFree (mem_of_mem_passed (by decide) hmem))
  full _ _ hs hne := Grammar.alternatives_prune_ne_nil h.coherent hs hne
  unitFree hmem := Grammar.isUnitFree_prune (h.unitFree (mem_of_mem_passed (by decide) hmem))
  lifted hmem := Grammar.isLifted_prune (h.lifted (mem_of_mem_passed (by decide) hmem))

/-! ### Runs -/

variable {o : Options} {t : Stage} {stages : List Stage} {d d' : Draft}

theorem apply (h : Settled start done d.grammar) (hbefore : ∀ u ∈ done, u.rank < t.rank)
    (happly : (t.apply o d).outcome = .ok d') : Settled start (done ++ [t]) d'.grammar := by
  cases t with
  | longRules =>
    obtain ⟨g₁, hg₁, hpure⟩ := Noted.outcome_bind_eq_ok_iff.mp happly
    cases hpure
    exact h.binarize hbefore hg₁
  | emptyRules =>
    cases happly
    exact h.dropEmpty hbefore
  | unitRules =>
    obtain ⟨g₃, hg₃, hd'⟩ := exists_of_map_eq_ok happly
    rw [hd']
    exact h.eliminateUnits hbefore hg₃
  | startRules =>
    obtain ⟨g₄, hg₄, hpure⟩ := Noted.outcome_bind_eq_ok_iff.mp happly
    cases hpure
    exact h.completeStart hbefore hg₄
  | terminalLifting =>
    obtain ⟨g₅, hg₅, hpure⟩ := Noted.outcome_bind_eq_ok_iff.mp happly
    cases hpure
    exact h.liftTerminals hg₅
  | uselessRules =>
    cases happly
    exact h.prune

theorem rank_lt_of_pairwise (hsorted : (done ++ t :: stages).Pairwise fun t u => t.rank < u.rank) :
    ∀ u ∈ done, u.rank < t.rank := by
  intro u hu
  exact (List.pairwise_append.mp hsorted).2.2 u hu t (List.mem_cons_self ..)

/-- Every grammar that a run shows has what the stages up to it brought about. -/
theorem of_shown (hsorted : (done ++ stages).Pairwise fun t u => t.rank < u.rank)
    (h : Settled start done d.grammar) {seen later : List (Stage × Grammar)} {e : Stage × Grammar}
    (hshown : (Conversion.through o stages d).shown = seen ++ e :: later) :
    Settled start (done ++ (seen.map Prod.fst ++ [e.1])) e.2 := by
  induction stages generalizing done d seen with
  | nil =>
    have hlen := congrArg List.length hshown
    rw [List.length_append, List.length_cons] at hlen
    simp only [Conversion.through, List.length_nil] at hlen
    omega
  | cons t stages ih =>
    have hbefore := rank_lt_of_pairwise hsorted
    cases happly : (t.apply o d).outcome with
    | error err =>
      rw [Conversion.through_cons_of_error happly] at hshown
      exact absurd hshown.symm (List.append_ne_nil_of_right_ne_nil _ (List.cons_ne_nil _ _))
    | ok d' =>
      rw [Conversion.through_cons_of_ok happly] at hshown
      have hnext := h.apply hbefore happly
      cases seen with
      | nil =>
        obtain ⟨he, _⟩ := List.cons.inj hshown
        rw [← he]
        exact hnext
      | cons s seen =>
        obtain ⟨hs, hrest⟩ := List.cons.inj hshown
        rw [List.append_cons] at hsorted
        have hlast := ih hsorted hnext hrest
        rw [← hs, List.map_cons, List.cons_append]
        rw [List.append_assoc] at hlast
        exact hlast

/-- A finished run has all that its stages brought about. -/
theorem of_outcome (hsorted : (done ++ stages).Pairwise fun t u => t.rank < u.rank)
    (h : Settled start done d.grammar) {r : Grammar}
    (hr : (Conversion.through o stages d).outcome = .ok r) : Settled start (done ++ stages) r := by
  induction stages generalizing done d with
  | nil =>
    cases hr
    rw [List.append_nil]
    exact h
  | cons t stages ih =>
    obtain ⟨d', happly, hrest, _⟩ := Conversion.exists_of_through_cons_eq_ok hr
    have hnext := h.apply (rank_lt_of_pairwise hsorted) happly
    rw [List.append_cons] at hsorted ⊢
    exact ih hsorted hnext hrest

theorem of_convert_shown {o : Options} {g : Grammar} (h : g.IsReadable)
    {seen later : List (Stage × Grammar)} {e : Stage × Grammar}
    (hshown : (g.convert o).shown = seen ++ e :: later) :
    Settled g.start (seen.map Prod.fst ++ [e.1]) e.2 := by
  have hsorted : ([] ++ o.stages).Pairwise fun t u : Stage => t.rank < u.rank := o.pairwise_stages
  exact of_shown (d := { grammar := g }) hsorted (of_isReadable h) hshown

theorem of_convert_outcome {o : Options} {g r : Grammar} (h : g.IsReadable)
    (hr : (g.convert o).outcome = .ok r) : Settled g.start o.stages r := by
  have hsorted : ([] ++ o.stages).Pairwise fun t u : Stage => t.rank < u.rank := o.pairwise_stages
  exact of_outcome (d := { grammar := g }) hsorted (of_isReadable h) hr

end Settled

/-! ### Conversions of files -/

/-- No stage brings back what an earlier one removed, in a finished run or in one that fails. -/
theorem shape_of_mem_shownFrom {file : String} {bytes : Option (List UInt8)}
    {start : Option Symbol} {g : Grammar} (h : GrammarFile.ofBytes? file bytes start = .ok g)
    (o : Options) :
    (∀ g' ∈ (g.convert o).shownFrom .longRules, g'.IsBinary) ∧
    (∀ g' ∈ (g.convert o).shownFrom .emptyRules,
      g'.IsEmptyFree ∧ ∀ s ∈ g'.rules, s ≠ g'.start → g'.alternatives s ≠ []) ∧
    (∀ g' ∈ (g.convert o).shownFrom .unitRules, g'.IsUnitFree) ∧
    (∀ g' ∈ (g.convert o).shownFrom .terminalLifting, g'.IsLifted) ∧
    (∀ e ∈ (g.convert o).shown, e.2.start = g.start ∧ g.start ∈ e.2.rules) ∧
    (o.liftTerminals = true → ∀ r, (g.convert o).outcome = .ok r → r.InChomskyForm) := by
  have hg := isReadable_of_ofBytes? h
  have hfrom : ∀ t, ∀ g' ∈ (g.convert o).shownFrom t, ∃ done, t ∈ done ∧ Settled g.start done g' := by
    intro t g' hg'
    obtain ⟨e, he, rfl⟩ := List.mem_map.mp hg'
    obtain ⟨seen, later, hshown, ht⟩ := Conversion.exists_of_mem_dropWhile he
    exact ⟨_, ht, Settled.of_convert_shown hg hshown⟩
  refine ⟨?_, ?_, ?_, ?_, ?_, ?_⟩
  · intro g' hg'
    obtain ⟨done, ht, hdone⟩ := hfrom .longRules g' hg'
    exact hdone.binary ht
  · intro g' hg'
    obtain ⟨done, ht, hdone⟩ := hfrom .emptyRules g' hg'
    exact ⟨hdone.emptyFree ht, hdone.full ht⟩
  · intro g' hg'
    obtain ⟨done, ht, hdone⟩ := hfrom .unitRules g' hg'
    exact hdone.unitFree ht
  · intro g' hg'
    obtain ⟨done, ht, hdone⟩ := hfrom .terminalLifting g' hg'
    exact hdone.lifted ht
  · intro e he
    obtain ⟨seen, later, hshown⟩ := List.append_of_mem he
    have hdone := Settled.of_convert_shown hg hshown
    rw [← hdone.start_eq]
    exact ⟨rfl, hdone.start_mem⟩
  · intro hlift r hr
    have hdone := Settled.of_convert_outcome hg hr
    exact Grammar.inChomskyForm_of_parts (hdone.binary (o.mem_stages_of_rank_lt (by decide)))
      (hdone.emptyFree (o.mem_stages_of_rank_lt (by decide)))
      (hdone.unitFree (o.mem_stages_of_rank_lt (by decide)))
      (hdone.lifted (o.mem_stages_of_liftTerminals hlift))

/-- The start symbol of the sample is recursive, and its unit productions form a cycle.  `C` derives the
empty word alone, and `D` no word at all. -/
theorem shape_of_mem_shownFrom_sample :
    GrammarFile.ofBytes? "sample" (some (GrammarFile.encodeText sampleText.toList)) none =
      .ok sampleGrammar ∧
    ((sampleGrammar.convert ⟨.everyMember, true, true⟩).shownFrom .emptyRules).head?.map
        Grammar.text =
      some "S->A\nA->S\nA->B\nB->AA\nB->aE\nB->c\nB->A\nD->Dx\nE->Sb\nE->b\n" ∧
    (∀ g' ∈ (sampleGrammar.convert ⟨.everyMember, true, true⟩).shownFrom .emptyRules,
      g'.IsEmptyFree) ∧
    ((sampleGrammar.convert ⟨.everyMember, true, true⟩).shownFrom .terminalLifting).getLast?.map
        Grammar.text =
      some ("S->FE\nS->c\nS->SS\nS->SB\nS->BS\nS->BB\nB->FE\nB->c\nB->SS\nB->SB\nB->BS\nB->BB\n" ++
        "E->SH\nE->b\nE->BH\nF->a\nH->b\n") ∧
    (∀ g' ∈ (sampleGrammar.convert ⟨.everyMember, true, true⟩).shownFrom .terminalLifting,
      g'.IsLifted) ∧
    ∃ r, (sampleGrammar.convert ⟨.everyMember, true, true⟩).outcome = .ok r ∧ r.InChomskyForm := by
  have hshape := shape_of_mem_shownFrom ofBytes?_sampleText ⟨.everyMember, true, true⟩
  obtain ⟨_, hempty, _, hlifted, _, hnormal⟩ := hshape
  obtain ⟨r, hr⟩ := exists_of_toOption_isSome
    (x := (sampleGrammar.convert ⟨.everyMember, true, true⟩).outcome) (by decide +kernel)
  exact ⟨ofBytes?_sampleText, by decide +kernel, fun g' hg' => (hempty g' hg').1, by decide +kernel,
    hlifted, r, hr, hnormal rfl r hr⟩

end ChomskyForm
