import ChomskyForm.Proofs.Conversion.RoundTrip
import ChomskyForm.Proofs.Stages.Demand

/-!
# How a conversion ends

There are three ways to fail: too few letters for the long right sides, a start symbol that is no left
side, and too few letters for the terminals in pairs (`convert_ofProductions`).  Each of them can be
told from the grammar that the stage is given.  A conversion that does not fail has drawn just the
letters that its two drawing stages need.
-/

namespace ChomskyForm

/-! ### Stages that succeed -/

namespace Conversion

variable {o : Options} {t : Stage} {stages stages' : List Stage} {d d' d'' : Draft}
  {shown shown' : List (Stage × Grammar)}

/-- The stages lead from one draft to another and leave these grammars on the way. -/
inductive Passes (o : Options) : List Stage → Draft → List (Stage × Grammar) → Draft → Prop
  | nil (d : Draft) : Passes o [] d [] d
  | cons {t : Stage} {stages : List Stage} {d d' d'' : Draft} {shown : List (Stage × Grammar)}
      (first : (t.apply o d).outcome = .ok d') (rest : Passes o stages d' shown d'') :
      Passes o (t :: stages) d ((t, d'.grammar) :: shown) d''

theorem Passes.one (h : (t.apply o d).outcome = .ok d') : Passes o [t] d [(t, d'.grammar)] d' :=
  .cons h (.nil d')

theorem Passes.append (h : Passes o stages d shown d') (h' : Passes o stages' d' shown' d'') :
    Passes o (stages ++ stages') d (shown ++ shown') d'' := by
  induction h with
  | nil d => exact h'
  | cons first _ ih => exact .cons first (ih h')

theorem Passes.map_fst (h : Passes o stages d shown d') : shown.map Prod.fst = stages := by
  induction h with
  | nil d => rfl
  | cons _ _ ih => rw [List.map_cons, ih]

/-- A run goes on from the draft that its first stages lead to. -/
theorem Passes.through (h : Passes o stages d shown d') (rest : List Stage) :
    (Conversion.through o (stages ++ rest) d).shown =
        shown ++ (Conversion.through o rest d').shown ∧
      (Conversion.through o (stages ++ rest) d).outcome =
        (Conversion.through o rest d').outcome := by
  induction h with
  | nil d => exact ⟨rfl, rfl⟩
  | cons first _ ih =>
    rw [List.cons_append, through_cons_of_ok first]
    exact ⟨congrArg _ ih.1, ih.2⟩

theorem Passes.finished (h : Passes o stages d shown d') :
    (Conversion.through o stages d).shown = shown ∧
      (Conversion.through o stages d).outcome = .ok d'.grammar := by
  have hthrough := h.through []
  rw [List.append_nil] at hthrough
  rw [hthrough.1, hthrough.2]
  exact ⟨List.append_nil shown, rfl⟩

theorem Passes.failed {e : ConversionError} (h : Passes o stages d shown d')
    (herror : (t.apply o d').outcome = .error e) (rest : List Stage) :
    (Conversion.through o (stages ++ t :: rest) d).shown = shown ∧
      (Conversion.through o (stages ++ t :: rest) d).outcome = .error e := by
  have hthrough := h.through (t :: rest)
  rw [through_cons_of_error herror] at hthrough
  rw [hthrough.1, hthrough.2]
  exact ⟨List.append_nil shown, rfl⟩

end Conversion

namespace Grammar

variable {g : Grammar} {o : Options}

/-- With enough letters the first three stages succeed. -/
theorem exists_passes_unitRules (o : Options) (hg : g.Supplied)
    (hcut : cutDemand g.productions ≤ g.pool.size) :
    ∃ shown d drawn,
      Conversion.Passes o [.longRules, .emptyRules, .unitRules] { grammar := g } shown d ∧
      MadeFrom g drawn d.grammar ∧
      d.grammar.pool.letters = g.pool.letters.drop (cutDemand g.productions) ∧
      (g.start ∈ g.rules → d.grammar.start ∈ d.grammar.rules) ∧
      ∀ s, s ∈ d.closure ↔ s ∈ d.grammar.vocabulary := by
  obtain ⟨g₁, hg₁, hletters⟩ := exists_binarize_eq_ok hcut
  obtain ⟨cuts, hcuts⟩ := binarize_cut hg₁
  have hmade := hcuts.madeFrom hg.keys
  have hmade₂ := madeFrom_dropEmpty hmade.keys
  obtain ⟨g₃, hg₃⟩ := exists_eliminateUnits_eq_ok hmade₂.keys
  have hexpanded := expanded_of_eliminateUnits hmade₂.keys hg₃
  have hlong : (Stage.apply o { grammar := g } .longRules).outcome = .ok ⟨g₁, ∅⟩ :=
    Noted.outcome_bind_eq_ok_iff.mpr ⟨g₁, hg₁, rfl⟩
  have hempty : (Stage.apply o ⟨g₁, ∅⟩ .emptyRules).outcome = .ok ⟨g₁.dropEmpty, ∅⟩ := rfl
  have hunit : (Stage.apply o ⟨g₁.dropEmpty, ∅⟩ .unitRules).outcome =
      .ok ⟨g₃, g₁.dropEmpty.unitClosure⟩ := Stage.apply_unitRules_eq_ok hg₃
  refine ⟨_, _, _, .cons hlong (.cons hempty (.one hunit)),
    (hmade.trans hmade₂).trans (madeFrom_eliminateUnits hmade₂.keys hg₃), ?_, ?_, ?_⟩
  · show g₃.pool.letters = _
    rw [hexpanded.pool, pool_dropEmpty, hletters]
  · intro hstart
    have hstart₂ := start_mem_dropEmpty (hcuts.start_mem hstart)
    rw [← start_dropEmpty (g := g₁)] at hstart₂
    exact start_mem_eliminateUnits hmade₂.keys hg₃ hstart₂
  · intro s
    show s ∈ g₁.dropEmpty.unitClosure ↔ s ∈ g₃.vocabulary
    rw [mem_unitClosure_iff, hexpanded.vocabulary]

/-- If the start symbol is a left side, so does the fourth. -/
theorem exists_passes_startRules (o : Options) (hg : g.Supplied)
    (hcut : cutDemand g.productions ≤ g.pool.size) (hstart : g.start ∈ g.rules) :
    ∃ seen d, Conversion.Passes o [.longRules, .emptyRules, .unitRules, .startRules]
        { grammar := g } (seen ++ [(.startRules, d.grammar)]) d ∧ d.grammar.Supplied ∧
      d.grammar.pool.letters = g.pool.letters.drop (cutDemand g.productions) := by
  obtain ⟨shown, ⟨g₃, D⟩, drawn, hpasses, hmade, hletters, hkept, hclosure⟩ :=
    exists_passes_unitRules o hg hcut
  have hexp : g₃.start ∈ g₃.vocabulary := hmade.keys _ (hkept hstart)
  obtain ⟨g₄, hg₄⟩ := exists_completeStart_eq_ok o.closureCopy ((hclosure _).mpr hexp)
  obtain ⟨_, _, hcompleted⟩ := completeStart_completed hexp hg₄
  have happly : (Stage.apply o ⟨g₃, D⟩ .startRules).outcome = .ok ⟨g₄, D⟩ :=
    Noted.outcome_bind_eq_ok_iff.mpr ⟨g₄, hg₄, rfl⟩
  refine ⟨shown, ⟨g₄, D⟩, hpasses.append (.one happly), ?_, ?_⟩
  · exact hg.of_madeFrom (hmade.trans (hcompleted.madeFrom hmade.keys hexp))
  · show g₄.pool.letters = _
    rw [hcompleted.pool]
    exact hletters

/-- The letters that a conversion needs for stand-ins: none if it lifts no terminals. -/
def standInDemand (o : Options) (g : Grammar) : Nat :=
  if o.liftTerminals then liftDemand g.vocabulary g.productions else 0

/-- With enough letters the optional stages succeed. -/
theorem exists_passes_optional {d : Draft} (hg : d.grammar.Supplied)
    (henough : standInDemand o d.grammar ≤ d.grammar.pool.size) :
    ∃ shown d', Conversion.Passes o ((if o.liftTerminals then [.terminalLifting] else []) ++
        if o.prune then [.uselessRules] else []) d shown d' ∧
      d'.grammar.pool.letters = d.grammar.pool.letters.drop (standInDemand o d.grammar) := by
  have hprune : ∀ d, ∃ shown d', Conversion.Passes o (if o.prune then [.uselessRules] else []) d
      shown d' ∧ d'.grammar.pool = d.grammar.pool := by
    intro d
    cases o.prune with
    | false => exact ⟨[], d, .nil d, rfl⟩
    | true => exact ⟨_, { d with grammar := d.grammar.prune }, .one rfl, rfl⟩
  have hlift : ∃ shown d', Conversion.Passes o (if o.liftTerminals then [.terminalLifting] else []) d
      shown d' ∧
      d'.grammar.pool.letters = d.grammar.pool.letters.drop (standInDemand o d.grammar) := by
    unfold standInDemand at henough ⊢
    cases hlifting : o.liftTerminals with
    | false => exact ⟨[], d, .nil d, rfl⟩
    | true =>
      rw [hlifting] at henough
      obtain ⟨g₅, hg₅, hletters⟩ := exists_liftTerminals_eq_ok hg henough
      have happly : (Stage.apply o d .terminalLifting).outcome = .ok { d with grammar := g₅ } :=
        Noted.outcome_bind_eq_ok_iff.mpr ⟨g₅, hg₅, rfl⟩
      exact ⟨_, { d with grammar := g₅ }, .one happly, hletters⟩
  obtain ⟨shown, d₁, hpasses, hletters⟩ := hlift
  obtain ⟨shown', d', hpasses', hpool⟩ := hprune d₁
  refine ⟨shown ++ shown', d', hpasses.append hpasses', ?_⟩
  rw [hpool, hletters]

/-! ### The ends of a run -/

theorem convert_of_cutDemand_gt (o : Options) (h : g.pool.size < cutDemand g.productions) :
    (g.convert o).shown = [] ∧ ∃ lhs, ExceedsAt cutDemand g.pool.size g.productions lhs ∧
      (g.convert o).outcome = .error (.poolExhausted lhs) := by
  obtain ⟨lhs, hexceeds, herror⟩ := exists_binarize_eq_error h
  have happly : (Stage.apply o { grammar := g } .longRules).outcome =
      .error (.poolExhausted lhs) := by
    show (g.binarize >>= _).outcome = _
    rw [Noted.outcome_bind, herror]
    rfl
  have hfailed := (Conversion.Passes.nil (o := o) { grammar := g }).failed happly
    (o.stages.drop 1)
  exact ⟨hfailed.1, lhs, hexceeds, hfailed.2⟩

theorem convert_of_start_not_mem (o : Options) (hg : g.Supplied)
    (hcut : cutDemand g.productions ≤ g.pool.size) (hstart : g.start ∉ g.vocabulary) :
    (g.convert o).shown.map Prod.fst = [.longRules, .emptyRules, .unitRules] ∧
      (g.convert o).outcome = .error (.missingClosure g.start) := by
  obtain ⟨shown, d, drawn, hpasses, hmade, _, _, hclosure⟩ := exists_passes_unitRules o hg hcut
  have hunknown : d.grammar.start ∉ d.closure := by
    rw [hclosure]
    exact hmade.start_not_mem hg hstart
  have happly : (Stage.apply o d .startRules).outcome = .error (.missingClosure g.start) := by
    show (d.grammar.completeStart d.closure o.closureCopy >>= _).outcome = _
    rw [Noted.outcome_bind, completeStart_eq_error _ hunknown, hmade.start]
    rfl
  have hfailed := hpasses.failed happly (o.stages.drop 4)
  refine ⟨?_, hfailed.2⟩
  rw [← hpasses.map_fst]
  exact congrArg _ hfailed.1

theorem convert_of_start_mem (o : Options) (hg : g.Supplied)
    (hcut : cutDemand g.productions ≤ g.pool.size) (hstart : g.start ∈ g.rules) :
    ∃ final, (.startRules, final) ∈ (g.convert o).shown ∧
      final.pool.letters = g.pool.letters.drop (cutDemand g.productions) ∧
      (final.pool.size < standInDemand o final →
        (g.convert o).shown.map Prod.fst = [.longRules, .emptyRules, .unitRules, .startRules] ∧
          ∃ lhs, ExceedsAt (liftDemand final.vocabulary) final.pool.size final.productions lhs ∧
            (g.convert o).outcome = .error (.poolExhausted lhs)) ∧
      (standInDemand o final ≤ final.pool.size →
        (g.convert o).shown.map Prod.fst = o.stages ∧ ∃ r, (g.convert o).outcome = .ok r ∧
          r.pool.letters =
            g.pool.letters.drop (cutDemand g.productions + standInDemand o final)) := by
  obtain ⟨seen, d, hpasses, hd, hletters⟩ := exists_passes_startRules o hg hcut hstart
  refine ⟨d.grammar, ?_, hletters, fun hover => ?_, fun henough => ?_⟩
  · have hshown := (hpasses.through (o.stages.drop 4)).1
    show _ ∈ (Conversion.through o o.stages { grammar := g }).shown
    refine hshown ▸ List.mem_append_left _ (List.mem_append_right _ ?_)
    exact List.mem_singleton.mpr rfl
  · have hlifting : o.liftTerminals = true := by
      by_contra hnot
      rw [standInDemand, if_neg hnot] at hover
      omega
    rw [standInDemand, if_pos hlifting] at hover
    obtain ⟨lhs, hexceeds, herror⟩ := exists_liftTerminals_eq_error hd hover
    have happly : (Stage.apply o d .terminalLifting).outcome = .error (.poolExhausted lhs) := by
      show (d.grammar.liftTerminals >>= _).outcome = _
      rw [Noted.outcome_bind, herror]
      rfl
    have hfailed := hpasses.failed happly (if o.prune then [.uselessRules] else [])
    have hstages : o.stages = [.longRules, .emptyRules, .unitRules, .startRules] ++
        .terminalLifting :: if o.prune then [.uselessRules] else [] := by
      rw [Options.stages, if_pos hlifting]
      rfl
    rw [← hstages] at hfailed
    refine ⟨?_, lhs, hexceeds, hfailed.2⟩
    rw [← hpasses.map_fst]
    exact congrArg _ hfailed.1
  · obtain ⟨shown, d', hrest, hletters'⟩ := exists_passes_optional hd henough
    have hall : Conversion.Passes o o.stages { grammar := g } _ d' := hpasses.append hrest
    refine ⟨?_, d'.grammar, hall.finished.2, ?_⟩
    · rw [← hall.map_fst]
      exact congrArg _ hall.finished.1
    · rw [hletters', hletters, List.drop_drop]

theorem convert_ne_missingClosure (o : Options) (hg : g.Supplied) (hstart : g.start ∈ g.rules)
    (s : Symbol) : (g.convert o).outcome ≠ .error (.missingClosure s) := by
  intro hmissing
  rcases Nat.lt_or_ge g.pool.size (cutDemand g.productions) with hcut | hcut
  · obtain ⟨_, lhs, _, herror⟩ := convert_of_cutDemand_gt o hcut
    rw [herror] at hmissing
    cases hmissing
  · obtain ⟨final, _, _, hfailed, hfinished⟩ := convert_of_start_mem o hg hcut hstart
    rcases Nat.lt_or_ge final.pool.size (standInDemand o final) with hlift | hlift
    · obtain ⟨_, lhs, _, herror⟩ := hfailed hlift
      rw [herror] at hmissing
      cases hmissing
    · obtain ⟨_, r, hr, _⟩ := hfinished hlift
      rw [hr] at hmissing
      cases hmissing

end Grammar

/-- All that can happen to a conversion. -/
theorem convert_ofProductions (start : Symbol) (ps : List Production) (o : Options) :
    let g := Grammar.ofProductions start ps
    let run := g.convert o
    (g.pool.size < Grammar.cutDemand g.productions →
      run.shown = [] ∧ ∃ lhs, ExceedsAt Grammar.cutDemand g.pool.size g.productions lhs ∧
        run.outcome = .error (.poolExhausted lhs)) ∧
    (Grammar.cutDemand g.productions ≤ g.pool.size → start ∉ ps.map Prod.fst →
      run.shown.map Prod.fst = [.longRules, .emptyRules, .unitRules] ∧
        run.outcome = .error (.missingClosure start)) ∧
    (Grammar.cutDemand g.productions ≤ g.pool.size → start ∈ ps.map Prod.fst →
      ∃ final, (.startRules, final) ∈ run.shown ∧
        final.pool.letters = g.pool.letters.drop (Grammar.cutDemand g.productions) ∧
        (final.pool.size < Grammar.standInDemand o final →
          run.shown.map Prod.fst = [.longRules, .emptyRules, .unitRules, .startRules] ∧
            ∃ lhs, ExceedsAt (Grammar.liftDemand final.vocabulary) final.pool.size
                final.productions lhs ∧
              run.outcome = .error (.poolExhausted lhs)) ∧
        (Grammar.standInDemand o final ≤ final.pool.size →
          run.shown.map Prod.fst = o.stages ∧ ∃ r, run.outcome = .ok r ∧
            r.pool.letters = g.pool.letters.drop
              (Grammar.cutDemand g.productions + Grammar.standInDemand o final))) ∧
    ∀ file bytes chosen g', GrammarFile.ofBytes? file bytes chosen = .ok g' →
      ∀ s, (g'.convert o).outcome ≠ .error (.missingClosure s) := by
  intro g run
  have hg : g.Supplied := Grammar.supplied_ofProductions start ps
  have hstart : g.start = start := Grammar.start_ofProductions ..
  refine ⟨Grammar.convert_of_cutDemand_gt o, fun hcut hnot => ?_, fun hcut hmem => ?_, ?_⟩
  · have hexp : g.start ∉ g.vocabulary := by
      rw [hstart, Grammar.mem_vocabulary_ofProductions]
      exact hnot
    rw [← hstart]
    exact Grammar.convert_of_start_not_mem o hg hcut hexp
  · have hkey : g.start ∈ g.rules := by
      rw [hstart, Grammar.mem_rules_ofProductions]
      exact hmem
    exact Grammar.convert_of_start_mem o hg hcut hkey
  · intro file bytes chosen g' h
    have hread := isReadable_of_ofBytes? h
    exact Grammar.convert_ne_missingClosure o hread.coherent.supplied hread.start_mem

/-- One grammar for each end: a right side that is too long, a start symbol without productions, pairs
of all letters, and a grammar that is converted with two new letters. -/
theorem convert_ofProductions_samples :
    ((Grammar.ofProductions ⟨'S'⟩ [(⟨'S'⟩, List.replicate 53 ⟨'a'⟩)]).convert {}).shown = [] ∧
    ((Grammar.ofProductions ⟨'T'⟩ [(⟨'S'⟩, [⟨'a'⟩])]).convert {}).outcome =
      .error (.missingClosure ⟨'T'⟩) ∧
    ((Grammar.ofProductions ⟨'S'⟩ (alphabet.map fun s => (⟨'S'⟩, [s, s]))).convert
      ⟨.whileEmpty, true, true⟩).shown.map Prod.fst =
        [.longRules, .emptyRules, .unitRules, .startRules] ∧
    ∃ r, ((Grammar.ofProductions ⟨'S'⟩
        [(⟨'S'⟩, [⟨'a'⟩, ⟨'S'⟩, ⟨'S'⟩]), (⟨'S'⟩, [⟨'b'⟩])]).convert
          ⟨.whileEmpty, true, true⟩).outcome = .ok r ∧
      r.pool.letters.take 3 = [⟨'C'⟩, ⟨'D'⟩, ⟨'E'⟩] := by
  have hlong := convert_ofProductions ⟨'S'⟩ [(⟨'S'⟩, List.replicate 53 ⟨'a'⟩)] {}
  have hstartless := convert_ofProductions ⟨'T'⟩ [(⟨'S'⟩, [⟨'a'⟩])] {}
  have hpairs := convert_ofProductions ⟨'S'⟩ (alphabet.map fun s => (⟨'S'⟩, [s, s]))
    ⟨.whileEmpty, true, true⟩
  have hfits := convert_ofProductions ⟨'S'⟩ [(⟨'S'⟩, [⟨'a'⟩, ⟨'S'⟩, ⟨'S'⟩]), (⟨'S'⟩, [⟨'b'⟩])]
    ⟨.whileEmpty, true, true⟩
  refine ⟨(hlong.1 (by decide +kernel)).1,
    (hstartless.2.1 (by decide +kernel) (by decide +kernel)).2, ?_, ?_⟩
  · obtain ⟨final, hshown, _, hover, _⟩ := hpairs.2.2.1 (by decide +kernel) (by decide +kernel)
    have hdemand : ∀ e ∈ ((Grammar.ofProductions ⟨'S'⟩ (alphabet.map fun s => (⟨'S'⟩, [s, s]))).convert
        ⟨.whileEmpty, true, true⟩).shown,
        e.2.pool.size < Grammar.standInDemand ⟨.whileEmpty, true, true⟩ e.2 := by decide +kernel
    exact (hover (hdemand _ hshown)).1
  · obtain ⟨final, hshown, _, _, hfinished⟩ := hfits.2.2.1 (by decide +kernel) (by decide +kernel)
    have hdemand : ∀ e ∈ ((Grammar.ofProductions ⟨'S'⟩
        [(⟨'S'⟩, [⟨'a'⟩, ⟨'S'⟩, ⟨'S'⟩]), (⟨'S'⟩, [⟨'b'⟩])]).convert
          ⟨.whileEmpty, true, true⟩).shown, e.1 = .startRules →
        Grammar.standInDemand ⟨.whileEmpty, true, true⟩ e.2 = 1 ∧ 1 ≤ e.2.pool.size := by
      decide +kernel
    obtain ⟨hone, hle⟩ := hdemand _ hshown rfl
    obtain ⟨_, r, hr, hletters⟩ := hfinished (hone.trans_le hle)
    refine ⟨r, hr, ?_⟩
    rw [hletters, hone]
    decide +kernel

end ChomskyForm
