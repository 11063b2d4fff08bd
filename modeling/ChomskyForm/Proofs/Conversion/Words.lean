import ChomskyForm.Proofs.Conversion.Shape

/-!
# The words of a converted grammar

The grammars after the first four stages are tied together by `Prepared`; the stages after them keep
the words of the start symbol (`accepts_iff_of_through`).  With the productions of the whole closure
the start symbol has all the words it had but the empty one, with those of one member it has the
words of this member.
-/

namespace ChomskyForm

/-! ### The last stages -/

/-- The stages that leave the words of the start symbol as they are. -/
def Stage.IsLate (t : Stage) : Prop := t = .terminalLifting ∨ t = .uselessRules

section Late

variable {o : Options} {t : Stage} {stages : List Stage} {d d' : Draft} {r : Grammar}

theorem accepts_iff_of_apply (ht : t.IsLate) (hg : d.grammar.Coherent)
    (hstart : d.grammar.start ∈ d.grammar.rules) (h : (t.apply o d).outcome = .ok d') :
    d'.grammar.Coherent ∧ d'.grammar.start ∈ d'.grammar.rules ∧
      ∀ w, d'.grammar.Accepts w ↔ d.grammar.Accepts w := by
  rcases ht with ht | ht
  · rw [ht] at h
    obtain ⟨g₅, hg₅, hpure⟩ := Noted.outcome_bind_eq_ok_iff.mp h
    cases hpure
    obtain ⟨σ, hstood⟩ := Grammar.stoodIn_of_liftTerminals hg.supplied hg₅
    refine ⟨hstood.coherent hg, hstood.start_mem hstart, fun w => ?_⟩
    rw [Grammar.Accepts, hstood.start]
    exact hstood.generates_iff hg.supplied hg.start_not_mem_pool
  · rw [ht] at h
    cases h
    exact ⟨Grammar.coherent_prune hg, Grammar.start_mem_prune hstart,
      fun w => Grammar.accepts_prune_iff hstart⟩

theorem accepts_iff_of_through (hlate : ∀ t ∈ stages, t.IsLate) (hg : d.grammar.Coherent)
    (hstart : d.grammar.start ∈ d.grammar.rules)
    (h : (Conversion.through o stages d).outcome = .ok r) (w : List Symbol) :
    r.Accepts w ↔ d.grammar.Accepts w := by
  induction stages generalizing d with
  | nil =>
    cases h
    exact Iff.rfl
  | cons t stages ih =>
    obtain ⟨d', happly, hrest, _⟩ := Conversion.exists_of_through_cons_eq_ok h
    obtain ⟨hg', hstart', hwords⟩ :=
      accepts_iff_of_apply (hlate t (List.mem_cons_self ..)) hg hstart happly
    rw [ih (fun u hu => hlate u (List.mem_cons_of_mem _ hu)) hg' hstart' hrest, hwords]

end Late

/-! ### The first four stages -/

namespace Grammar

/-- The first four stages lead from `g` over `g₁`, `g₁.dropEmpty` and `g₃` to `g₄`. -/
structure Prepared (g : Grammar) (mode : ClosureCopy) (g₁ g₃ g₄ : Grammar) : Prop where
  binarized : g.binarize.outcome = .ok g₁
  unitFree : g₁.dropEmpty.eliminateUnits g₁.dropEmpty.unitClosure = .ok g₃
  completed : (g₃.completeStart g₁.dropEmpty.unitClosure mode).outcome = .ok g₄

theorem exists_prepared_of_convert {g r : Grammar} {o : Options}
    (h : (g.convert o).outcome = .ok r) : ∃ g₁ g₃ g₄ later, Prepared g o.closureCopy g₁ g₃ g₄ ∧
      (g.convert o).shown = (.longRules, g₁) :: (.emptyRules, g₁.dropEmpty) :: (.unitRules, g₃) ::
        (.startRules, g₄) :: later ∧
      ∃ D stages, (∀ t ∈ stages, t.IsLate) ∧
        (Conversion.through o stages ⟨g₄, D⟩).outcome = .ok r := by
  have hrun : (Conversion.through o o.stages { grammar := g }).outcome = .ok r := h
  have hshown : (g.convert o).shown = (Conversion.through o o.stages { grammar := g }).shown := rfl
  have hstages : o.stages = .longRules :: .emptyRules :: .unitRules :: .startRules ::
      ((if o.liftTerminals then [.terminalLifting] else []) ++
        if o.prune then [.uselessRules] else []) := rfl
  rw [hstages] at hrun hshown
  obtain ⟨d₁, hlong, hrun₁, hshown₁⟩ := Conversion.exists_of_through_cons_eq_ok hrun
  obtain ⟨d₂, hempty, hrun₂, hshown₂⟩ := Conversion.exists_of_through_cons_eq_ok hrun₁
  obtain ⟨d₃, hunit, hrun₃, hshown₃⟩ := Conversion.exists_of_through_cons_eq_ok hrun₂
  obtain ⟨d₄, hstart, hrun₄, hshown₄⟩ := Conversion.exists_of_through_cons_eq_ok hrun₃
  rw [hshown₁, hshown₂, hshown₃, hshown₄] at hshown
  obtain ⟨g₁, hg₁, hpure₁⟩ := Noted.outcome_bind_eq_ok_iff.mp hlong
  cases hpure₁
  cases hempty
  obtain ⟨g₃, hg₃, hd₃⟩ := exists_of_map_eq_ok hunit
  subst hd₃
  obtain ⟨g₄, hg₄, hpure₄⟩ := Noted.outcome_bind_eq_ok_iff.mp hstart
  cases hpure₄
  refine ⟨g₁, g₃, g₄, _, ⟨hg₁, hg₃, hg₄⟩, hshown, _, _, ?_, hrun₄⟩
  intro t ht
  rcases List.mem_append.mp ht with ht | ht
  · split at ht
    · exact Or.inl (List.mem_singleton.mp ht)
    · exact absurd ht List.not_mem_nil
  · split at ht
    · exact Or.inr (List.mem_singleton.mp ht)
    · exact absurd ht List.not_mem_nil

namespace Prepared

variable {g g₁ g₃ g₄ : Grammar} {mode : ClosureCopy}

/-- What holds of the grammar without empty productions. -/
structure Basis (g g₂ : Grammar) : Prop where
  coherent : g₂.Coherent
  binary : g₂.IsBinary
  start : g₂.start = g.start
  start_mem : g.start ∈ g₂.vocabulary
  accepts : ∀ w, g₂.Generates g.start w ↔ g.Accepts w ∧ w ≠ []

theorem basis (h : Prepared g mode g₁ g₃ g₄) (hg : g.IsReadable) : Basis g g₁.dropEmpty := by
  obtain ⟨cuts, hcut⟩ := binarize_cut h.binarized
  have hg₁ := hcut.coherent hg.coherent
  have hbinary := hcut.isBinary hg.markerAlone
  have hstart : g.start ∈ g₁.rules := by
    rw [← hcut.start]
    exact hcut.start_mem hg.start_mem
  have hkey : g.start ∈ g₁.dropEmpty.rules := by
    rw [← hcut.start] at hstart ⊢
    exact start_mem_dropEmpty hstart
  have hexp := (coherent_dropEmpty hg₁).keys g.start hkey
  refine ⟨coherent_dropEmpty hg₁, isBinary_dropEmpty hbinary, ?_, hexp, fun w => ?_⟩
  · rw [start_dropEmpty, hcut.start]
  · rw [generates_dropEmpty_iff hg₁.keys hg₁.marker hbinary (hcut.markerAlone hg.markerAlone) hexp,
      hcut.generates_iff hg.coherent.supplied hg.coherent.start_not_mem_pool]
    rfl

variable (h : Prepared g mode g₁ g₃ g₄) (hg : g.IsReadable)

include h hg

theorem start_eq : g₃.start = g.start :=
  (expanded_of_eliminateUnits (h.basis hg).coherent.keys h.unitFree).start.trans (h.basis hg).start

theorem vocabulary_eq : g₃.vocabulary = g₁.dropEmpty.vocabulary :=
  (expanded_of_eliminateUnits (h.basis hg).coherent.keys h.unitFree).vocabulary

theorem start_mem_vocabulary : g₃.start ∈ g₃.vocabulary := by
  rw [h.start_eq hg, h.vocabulary_eq hg]
  exact (h.basis hg).start_mem

/-- The closure that the start symbol copies from has the start symbol in front. -/
theorem exists_members : ∃ members others,
    g₁.dropEmpty.unitClosure.get? g.start = some members ∧ members.toList = g.start :: others ∧
      (∀ m, m ∈ members ↔ g₁.dropEmpty.StandsFor g.start m) ∧
      Completed g₃ (g₃.copySources mode others) g₄ := by
  obtain ⟨members, hget, hcompleted⟩ :=
    completeStart_completed (h.start_mem_vocabulary hg) h.completed
  rw [h.start_eq hg] at hget hcompleted
  obtain ⟨hexp, hmembers⟩ := get?_unitClosure_eq_some_iff.mp hget
  obtain ⟨others, hothers⟩ := unitReach_head (g := g₁.dropEmpty) g.start
  rw [← hmembers] at hothers
  rw [OrderedSet.toList_erase_of_eq_cons hothers] at hcompleted
  refine ⟨members, others, hget, hothers, fun m => ?_, hcompleted⟩
  rw [StandsFor, if_pos hexp, hmembers]

/-- The start symbol gets the words of the symbols that it copies from, and nothing else changes. -/
theorem generates_iff {members : OrderedSet Symbol} {others : List Symbol}
    (hmembers : members.toList = g.start :: others)
    (hstands : ∀ m, m ∈ members ↔ g₁.dropEmpty.StandsFor g.start m)
    (hcompleted : Completed g₃ (g₃.copySources mode others) g₄) :
    (∀ w, g₄.Generates g.start w ↔ ∃ m ∈ g₃.copySources mode others, g₃.Generates m w) ∧
      ∀ s, s ≠ g.start → ∀ w, g₄.Generates s w ↔ g₃.Generates s w := by
  have hkeys := (h.basis hg).coherent.keys
  have hsaturated : ∀ s l r l' r', [l, r] ∈ g₃.alternatives s → g₁.dropEmpty.StandsFor l l' →
      g₁.dropEmpty.StandsFor r r' → [l', r'] ∈ g₃.alternatives s := by
    intro s l r l' r' hrhs hl hr
    exact saturated_eliminateUnits hkeys h.unitFree hrhs hl hr
  have hbinary := isBinary_eliminateUnits hkeys h.unitFree (h.basis hg).binary
  have hunit := isUnitFree_eliminateUnits hkeys h.unitFree
  have hvocabulary := h.vocabulary_eq hg
  have hsources : ∀ m ∈ g₃.copySources mode others, g₁.dropEmpty.StandsFor g₃.start m := by
    intro m hm
    rw [h.start_eq hg, ← hstands, ← OrderedSet.mem_toList, hmembers, ← h.start_eq hg]
    exact List.mem_cons.mpr (mem_copySources hm)
  have hexp := h.start_mem_vocabulary hg
  have hown : ∀ rhs ∈ g₃.alternatives g₃.start,
      ∃ m ∈ g₃.copySources mode others, rhs ∈ g₃.alternatives m :=
    fun rhs hrhs => exists_mem_copySources mode others hrhs
  rw [← h.start_eq hg]
  constructor
  · intro w
    exact hcompleted.generates_start_iff hsaturated hbinary hunit hvocabulary hsources hexp hown
  · intro s hs w
    exact hcompleted.generates_iff_of_ne hsaturated hbinary hunit hvocabulary hsources hexp hown hs

/-- The words of the grammar are those of the whole closure. -/
theorem exists_standsFor_iff (w : List Symbol) :
    (∃ m, g₁.dropEmpty.StandsFor g.start m ∧ g₃.Generates m w) ↔ g.Accepts w ∧ w ≠ [] := by
  rw [← (h.basis hg).accepts w]
  exact (generates_iff_exists_standsFor (h.basis hg).coherent.keys h.unitFree
    (h.basis hg).binary).symm

/-- The stages that are left keep the words of the start symbol. -/
theorem accepts_iff {o : Options} {D : UnitClosure} {stages : List Stage} {r : Grammar}
    (hlate : ∀ t ∈ stages, t.IsLate)
    (hr : (Conversion.through o stages ⟨g₄, D⟩).outcome = .ok r) (w : List Symbol) :
    r.Accepts w ↔ g₄.Generates g.start w := by
  obtain ⟨_, _, _, _, _, hcompleted⟩ := h.exists_members hg
  have hg₄ := hcompleted.coherent (coherent_eliminateUnits h.unitFree (h.basis hg).coherent)
    (h.start_mem_vocabulary hg)
  have hwords := accepts_iff_of_through (d := ⟨g₄, D⟩) hlate hg₄ hcompleted.start_mem hr w
  rw [hwords, Accepts, hcompleted.start, h.start_eq hg]

end Prepared

end Grammar

/-! ### The two modes -/

variable {file : String} {bytes : Option (List UInt8)} {start : Option Symbol} {g r : Grammar}
  {o : Options}

/-- With the productions of every member of its closure the start symbol keeps all its words but
the empty one. -/
theorem accepts_convert_everyMember_iff (h : GrammarFile.ofBytes? file bytes start = .ok g)
    (ho : o.closureCopy = .everyMember) (hr : (g.convert o).outcome = .ok r) :
    ∀ w, r.Accepts w ↔ g.Accepts w ∧ w ≠ [] := by
  have hg := isReadable_of_ofBytes? h
  obtain ⟨g₁, g₃, g₄, _, hprep, _, D, stages, hlate, hthrough⟩ :=
    Grammar.exists_prepared_of_convert hr
  obtain ⟨members, others, _, hmembers, hstands, hcompleted⟩ := hprep.exists_members hg
  have hwords := (hprep.generates_iff hg hmembers hstands hcompleted).1
  have hsources : ∀ m, m ∈ g₃.copySources o.closureCopy others ↔
      g₁.dropEmpty.StandsFor g.start m := by
    intro m
    rw [← hstands, ← OrderedSet.mem_toList, hmembers, ho, ← hprep.start_eq hg]
    rfl
  intro w
  rw [hprep.accepts_iff hg hlate hthrough, hwords, ← hprep.exists_standsFor_iff hg]
  simp only [hsources]

theorem accepts_convert_everyMember_iff_sample :
    GrammarFile.ofBytes? "sample" (some (GrammarFile.encodeText sampleText.toList)) none =
      .ok sampleGrammar ∧
    ∃ r, (sampleGrammar.convert ⟨.everyMember, true, true⟩).outcome = .ok r ∧
      ∀ w, r.Accepts w ↔ sampleGrammar.Accepts w ∧ w ≠ [] := by
  obtain ⟨r, hr⟩ := exists_of_toOption_isSome
    (x := (sampleGrammar.convert ⟨.everyMember, true, true⟩).outcome) (by decide +kernel)
  exact ⟨ofBytes?_sampleText, r, hr, accepts_convert_everyMember_iff ofBytes?_sampleText rfl hr⟩

/-- With the productions of one member the start symbol has the words that this member has when the
unit productions are gone: the first member that has productions then, in the order of the
closure.  No other symbol gains or loses a word by it. -/
theorem accepts_convert_whileEmpty_iff (h : GrammarFile.ofBytes? file bytes start = .ok g)
    (ho : o.closureCopy = .whileEmpty) (hr : (g.convert o).outcome = .ok r) :
    ∃ g₁ g₂ g₃ g₄ later members,
      (g.convert o).shown = (.longRules, g₁) :: (.emptyRules, g₂) :: (.unitRules, g₃) ::
        (.startRules, g₄) :: later ∧
      g₂.unitClosure.get? g.start = some members ∧ members.toList.head? = some g.start ∧
      (∀ w, r.Accepts w ↔
        ∃ m, members.toList.find? (fun m => g₃.alternatives m ≠ []) = some m ∧
          g₃.Generates m w) ∧
      (∀ w, r.Accepts w → g.Accepts w ∧ w ≠ []) ∧
      ∀ s, s ≠ g.start → ∀ w, g₄.Generates s w ↔ g₃.Generates s w := by
  have hg := isReadable_of_ofBytes? h
  obtain ⟨g₁, g₃, g₄, later, hprep, hshown, D, stages, hlate, hthrough⟩ :=
    Grammar.exists_prepared_of_convert hr
  obtain ⟨members, others, hget, hmembers, hstands, hcompleted⟩ := hprep.exists_members hg
  obtain ⟨hown, hothers⟩ := hprep.generates_iff hg hmembers hstands hcompleted
  have hsources : g₃.copySources o.closureCopy others =
      (members.toList.find? fun m => g₃.alternatives m ≠ []).toList := by
    rw [ho, hmembers, ← hprep.start_eq hg]
    rfl
  have hwords : ∀ w, r.Accepts w ↔
      ∃ m, members.toList.find? (fun m => g₃.alternatives m ≠ []) = some m ∧
        g₃.Generates m w := by
    intro w
    rw [hprep.accepts_iff hg hlate hthrough, hown, hsources]
    simp only [Option.mem_toList]
  refine ⟨g₁, g₁.dropEmpty, g₃, g₄, later, members, hshown, hget, ?_, hwords, ?_, hothers⟩
  · rw [hmembers, List.head?_cons]
  · intro w hw
    obtain ⟨m, hm, hyield⟩ := (hwords w).mp hw
    have hmem := (hstands m).mp (List.mem_of_find?_eq_some hm)
    exact (hprep.exists_standsFor_iff hg w).mp ⟨m, hmem, hyield⟩

/-- In the sample the start symbol copies from `B`: it has no productions of its own left, and the
left side of `A`, which stands between them in the closure, is gone. -/
theorem accepts_convert_whileEmpty_iff_sample :
    GrammarFile.ofBytes? "sample" (some (GrammarFile.encodeText sampleText.toList)) none =
      .ok sampleGrammar ∧
    ∃ r g₃, (sampleGrammar.convert ⟨.whileEmpty, true, true⟩).outcome = .ok r ∧
      (.unitRules, g₃) ∈ (sampleGrammar.convert ⟨.whileEmpty, true, true⟩).shown ∧
      (∀ w, r.Accepts w ↔ g₃.Generates ⟨'B'⟩ w) ∧
      ∀ w, r.Accepts w → sampleGrammar.Accepts w ∧ w ≠ [] := by
  obtain ⟨r, hr⟩ := exists_of_toOption_isSome
    (x := (sampleGrammar.convert ⟨.whileEmpty, true, true⟩).outcome) (by decide +kernel)
  obtain ⟨_, g₂, g₃, _, _, members, hshown, hget, _, hwords, hkept, _⟩ :=
    accepts_convert_whileEmpty_iff ofBytes?_sampleText rfl hr
  have hfirst : ((sampleGrammar.convert ⟨.whileEmpty, true, true⟩).shown[1]?.bind fun binary =>
      (sampleGrammar.convert ⟨.whileEmpty, true, true⟩).shown[2]?.bind fun unitFree =>
        (binary.2.unitClosure.get? sampleGrammar.start).bind fun members =>
          members.toList.find? fun m => unitFree.2.alternatives m ≠ []) = some ⟨'B'⟩ := by
    decide +kernel
  rw [hshown] at hfirst
  simp only [List.getElem?_cons_zero, List.getElem?_cons_succ, hget, Option.bind_some] at hfirst
  refine ⟨ofBytes?_sampleText, r, g₃, hr, ?_, fun w => ?_, hkept⟩
  · rw [hshown]
    simp only [List.mem_cons, Prod.mk.injEq, true_or, or_true]
  · rw [hwords, hfirst]
    simp only [Option.some.injEq, exists_eq_left']

end ChomskyForm
