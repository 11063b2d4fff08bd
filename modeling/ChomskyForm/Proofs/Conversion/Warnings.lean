import ChomskyForm.Proofs.Conversion.Printed
import ChomskyForm.Proofs.Conversion.Words

/-!
# What the warnings of a conversion mean

Of all stages only the one for empty right sides can warn (`warnings_apply`), and the end of the
conversion can; everything else that is told is a detail.  The first warning speaks of the table whose
right sides have been shortened, where the start symbol is nullable if and only if the grammar has the
empty word (`start_mem_nullable_iff`).  The last one speaks of the productions of the start symbol of
the result, and a pruned grammar has some only if it has a word (`exists_accepts_prune`).
-/

namespace ChomskyForm

/-- The notices that are warnings, in their order. -/
def warnings (notices : List Notice) : List Notice := notices.filter fun n => n.level = .warning

theorem warnings_append (ms ns : List Notice) : warnings (ms ++ ns) = warnings ms ++ warnings ns :=
  List.filter_append ms ns

theorem mem_warnings_iff {n : Notice} {ns : List Notice} :
    n ∈ warnings ns ↔ n ∈ ns ∧ n.level = .warning := by
  rw [warnings, List.mem_filter, decide_eq_true_eq]

theorem warnings_eq_nil {ns : List Notice} (h : ∀ n ∈ ns, n.level = .detail) : warnings ns = [] := by
  refine List.filter_eq_nil_iff.mpr fun n hn => ?_
  rw [h n hn]
  decide

/-! ### Work without a warning -/

namespace Noted

/-- The work gives no warning, be it finished or not. -/
def Quiet {ε α : Type} (x : Noted ε α) : Prop := ∀ n ∈ x.notices, n.level = .detail

variable {ε α β γ : Type}

theorem quiet_pure (a : α) : (pure a : Noted ε α).Quiet := fun _ hn => absurd hn List.not_mem_nil

theorem quiet_fail (e : ε) : (fail e : Noted ε α).Quiet := fun _ hn => absurd hn List.not_mem_nil

theorem Quiet.bind {x : Noted ε α} {f : α → Noted ε β} (hx : x.Quiet) (hf : ∀ a, (f a).Quiet) :
    (x >>= f).Quiet := by
  cases hout : x.outcome with
  | error e =>
    have hfail : x >>= f = ⟨x.notices, .error e⟩ := by
      show Noted.bind x f = _
      rw [Noted.bind, hout]
    rw [hfail]
    exact hx
  | ok a =>
    rw [bind_of_ok hout]
    intro n hn
    rcases List.mem_append.mp hn with hn | hn
    · exact hx n hn
    · exact hf a n hn

theorem Quiet.foldlM {f : β → γ → Noted ε β} (hf : ∀ b c, (f b c).Quiet) (cs : List γ) (b : β) :
    (cs.foldlM f b).Quiet := by
  induction cs generalizing b with
  | nil => exact quiet_pure b
  | cons c cs ih =>
    rw [List.foldlM_cons]
    exact (hf b c).bind ih

end Noted

namespace Grammar

open Noted

variable {g : Grammar}

theorem quiet_drawFor (lhs : Symbol) {purpose : Symbol → Notice}
    (h : ∀ s, (purpose s).level = .detail) : (g.drawFor lhs purpose).Quiet := by
  cases hdraw : g.draw with
  | none =>
    rw [drawFor_of_none hdraw]
    exact quiet_fail _
  | some drawn =>
    obtain ⟨letter, rest⟩ := drawn
    rw [drawFor_of_some hdraw]
    intro n hn
    rw [List.mem_singleton.mp hn]
    exact h letter

theorem quiet_chainFrom (lhs : Symbol) (whole : RightSide) (head : Symbol) (rest : RightSide) :
    (chainFrom lhs whole head rest g).Quiet := by
  induction rest generalizing g head with
  | nil => exact quiet_pure _
  | cons a rest ih =>
    match rest with
    | [] | [_] => exact quiet_pure _
    | b :: c :: rest =>
      refine (quiet_drawFor lhs fun _ => rfl).bind fun drawn => ?_
      exact (ih drawn.1).bind fun _ => quiet_pure _

theorem quiet_addCut (lhs : Symbol) (rhs : RightSide) : (g.addCut lhs rhs).Quiet := by
  match rhs with
  | [] | [_] | [_, _] => exact quiet_pure _
  | a :: b :: c :: rest =>
    exact (quiet_drawFor lhs fun _ => rfl).bind fun drawn => quiet_chainFrom lhs _ _ _

theorem quiet_binarize : g.binarize.Quiet := by
  refine Quiet.bind (Quiet.foldlM (fun state e => ?_) _ _) fun _ => quiet_pure _
  exact Quiet.foldlM (fun _ rhs => (quiet_addCut e.1 rhs).bind fun _ => quiet_pure _) _ _

theorem quiet_copyRules (source : Symbol) (rhss : List RightSide) :
    (copyRules source rhss g).Quiet := by
  intro n hn
  rw [eq_copied_of_mem_copyRules hn]
  rfl

theorem quiet_copyMembers (mode : ClosureCopy) (members : List Symbol) :
    (copyMembers mode members g).Quiet := by
  induction members generalizing g with
  | nil => exact quiet_pure g
  | cons source members ih =>
    rw [copyMembers]
    split
    · exact quiet_pure g
    · exact (quiet_copyRules source _).bind fun _ => ih

theorem quiet_completeStart (D : UnitClosure) (mode : ClosureCopy) :
    (g.completeStart D mode).Quiet := by
  rw [completeStart]
  split
  · exact quiet_fail _
  · exact quiet_copyMembers mode _

theorem quiet_lift (lhs s : Symbol) (state : Grammar × StandIns) : (lift lhs s state).Quiet := by
  simp only [lift]
  split
  · exact quiet_pure _
  · split
    · exact quiet_pure _
    · exact (quiet_drawFor lhs fun _ => rfl).bind fun _ => quiet_pure _

theorem quiet_addLifted (lhs : Symbol) (state : Grammar × StandIns) (rhs : RightSide) :
    (addLifted lhs state rhs).Quiet := by
  match rhs with
  | [] | [_] | _ :: _ :: _ :: _ => exact quiet_pure _
  | [left, right] =>
    refine (quiet_lift lhs left state).bind fun drawn => ?_
    exact (quiet_lift lhs right drawn.2).bind fun _ => quiet_pure _

theorem quiet_liftTerminals : g.liftTerminals.Quiet := by
  refine Quiet.bind (Quiet.foldlM (fun state e => ?_) _ _) fun _ => quiet_pure _
  exact Quiet.foldlM (quiet_addLifted e.1) _ _

/-! ### The stages -/

theorem warnings_emptyNotices :
    warnings g.emptyNotices =
      if g.start ∈ g.rules.nullable then [.startNullable g.start] else [] := by
  have hdropped : warnings (g.compensated.rules.dead.toList.map .withoutProductions) = [] := by
    refine warnings_eq_nil fun n hn => ?_
    obtain ⟨s, _, rfl⟩ := List.mem_map.mp hn
    rfl
  have hlisted : warnings [.nullable g.rules.nullable.toList] = [] := rfl
  have hsplit : g.emptyNotices = [.nullable g.rules.nullable.toList] ++
      (if g.start ∈ g.rules.nullable then [.startNullable g.start] else []) ++
        g.compensated.rules.dead.toList.map .withoutProductions := rfl
  rw [hsplit, warnings_append, warnings_append, hdropped, hlisted, List.nil_append, List.append_nil]
  split
  · rfl
  · rfl

end Grammar

theorem warnings_apply {o : Options} {t : Stage} {d : Draft} (ht : t ≠ .emptyRules) :
    warnings (t.apply o d).notices = [] := by
  refine warnings_eq_nil ?_
  cases t with
  | longRules => exact Grammar.quiet_binarize.bind fun _ => Noted.quiet_pure _
  | emptyRules => exact absurd rfl ht
  | unitRules =>
    intro n hn
    obtain ⟨e, _, rfl⟩ := List.mem_map.mp hn
    rfl
  | startRules => exact (Grammar.quiet_completeStart _ _).bind fun _ => Noted.quiet_pure _
  | terminalLifting => exact Grammar.quiet_liftTerminals.bind fun _ => Noted.quiet_pure _
  | uselessRules =>
    intro n hn
    rcases List.mem_cons.mp hn with rfl | hn
    · rfl
    · rw [List.mem_singleton.mp hn]
      rfl

namespace Conversion

variable {o : Options} {g r : Grammar}

theorem warnings_closingNotices : warnings (closingNotices r) = closingNotices r := by
  rw [closingNotices]
  split
  · rfl
  · rfl

/-- After the stage for empty right sides only the end of the conversion can warn. -/
theorem warnings_through {stages : List Stage} {d : Draft} (hstages : .emptyRules ∉ stages)
    (h : (through o stages d).outcome = .ok r) :
    warnings (through o stages d).notices = closingNotices r := by
  induction stages generalizing d with
  | nil =>
    cases h
    exact warnings_closingNotices
  | cons t stages ih =>
    rw [List.mem_cons, not_or] at hstages
    obtain ⟨d', happly, hrest, _⟩ := exists_of_through_cons_eq_ok h
    rw [through_cons_of_ok happly, warnings_append, warnings_apply (Ne.symm hstages.1),
      List.nil_append]
    exact ih hstages.2 hrest

theorem warnings_convert_eq (h : (g.convert o).outcome = .ok r) :
    ∃ g₁, g.binarize.outcome = .ok g₁ ∧ warnings (g.convert o).notices =
      (if g₁.start ∈ g₁.rules.nullable then [.startNullable g₁.start] else []) ++
        closingNotices r := by
  obtain ⟨later, hstages⟩ : ∃ later, o.stages = .longRules :: .emptyRules :: later := ⟨_, rfl⟩
  have hsorted := o.pairwise_stages
  rw [hstages, List.pairwise_cons, List.pairwise_cons] at hsorted
  have hlater : .emptyRules ∉ later := fun hmem => Nat.lt_irrefl _ (hsorted.2.1 _ hmem)
  have hrun : (through o o.stages { grammar := g }).outcome = .ok r := h
  have hnotices : (g.convert o).notices = [.converting g.productionCount g.pool.size] ++
      (through o o.stages { grammar := g }).notices := rfl
  rw [hstages] at hrun hnotices
  obtain ⟨d₁, hlong, hrun₁, _⟩ := exists_of_through_cons_eq_ok hrun
  obtain ⟨d₂, hempty, hrun₂, _⟩ := exists_of_through_cons_eq_ok hrun₁
  obtain ⟨g₁, hg₁, hpure⟩ := Noted.outcome_bind_eq_ok_iff.mp hlong
  cases hpure
  refine ⟨g₁, hg₁, ?_⟩
  have hfirst : warnings [.converting g.productionCount g.pool.size] = [] := rfl
  rw [hnotices, warnings_append, hfirst, through_cons_of_ok hlong, warnings_append,
    warnings_apply (by decide), through_cons_of_ok hempty, warnings_append,
    warnings_through hlater hrun₂]
  exact congrArg (· ++ closingNotices r) Grammar.warnings_emptyNotices

end Conversion

/-! ### What the warnings mean -/

namespace Grammar

variable {g : Grammar}

/-- Shortening the right sides does not change what derives the empty word. -/
theorem start_mem_nullable_iff {g₁ : Grammar} (hg : g.IsReadable)
    (h : g.binarize.outcome = .ok g₁) : g₁.start ∈ g₁.rules.nullable ↔ g.Accepts [] := by
  obtain ⟨cuts, hcut⟩ := binarize_cut h
  have hg₁ := hcut.coherent hg.coherent
  have hexp := hg₁.keys g₁.start (hcut.start_mem hg.start_mem)
  rw [RuleTable.mem_nullable_iff hg₁.keys hg₁.marker hexp, hcut.start]
  exact hcut.generates_iff hg.coherent.supplied hg.coherent.start_not_mem_pool

theorem not_accepts_of_alternatives_eq_nil (hexp : g.start ∈ g.vocabulary)
    (h : g.alternatives g.start = []) (w : List Symbol) : ¬g.Accepts w := by
  intro hw
  rcases yields_singleton_iff.mp hw with ⟨hfixed, _⟩ | ⟨_, rhs, hrhs, _⟩
  · exact hfixed hexp
  · have hnone : rhs ∈ g.alternatives g.start := hrhs
    rw [h] at hnone
    exact List.not_mem_nil hnone

/-- A production that pruning leaves has only productive symbols on its right side. -/
theorem exists_accepts_prune (hkeys : ∀ s ∈ g.rules, s ∈ g.vocabulary) (hstart : g.start ∈ g.rules)
    (h : g.prune.alternatives g.prune.start ≠ []) : ∃ w, g.prune.Accepts w := by
  obtain ⟨rhs, hrhs⟩ := List.exists_mem_of_ne_nil _ h
  have hkept := (mem_alternatives_dropUnreachable.mp hrhs).1
  obtain ⟨hold, hfree, _⟩ := mem_alternatives_dropUnproductive.mp hkept
  have hproductive : g.start ∈ g.productive :=
    mem_productive_iff_exists_alternative.mpr ⟨rhs, hold, hfree⟩
  obtain ⟨w, hw⟩ := (mem_productive_iff hkeys (hkeys g.start hstart)).mp hproductive
  exact ⟨w, (accepts_prune_iff hstart).mpr hw⟩

/-- With every member of its closure the start symbol has the words of the whole closure. -/
theorem Prepared.accepts_everyMember_iff {g₁ g₃ g₄ r : Grammar} {o : Options} {D : UnitClosure}
    {stages : List Stage} (h : Prepared g .everyMember g₁ g₃ g₄) (hg : g.IsReadable)
    (hlate : ∀ t ∈ stages, t.IsLate)
    (hr : (Conversion.through o stages ⟨g₄, D⟩).outcome = .ok r) (w : List Symbol) :
    r.Accepts w ↔ g.Accepts w ∧ w ≠ [] := by
  obtain ⟨members, others, _, hmembers, hstands, hcompleted⟩ := h.exists_members hg
  have hsources : g₃.copySources .everyMember others = members.toList := by
    rw [hmembers, ← h.start_eq hg]
    rfl
  calc r.Accepts w ↔ g₄.Generates g.start w := h.accepts_iff hg hlate hr w
    _ ↔ ∃ m ∈ members, g₃.Generates m w := by
      rw [(h.generates_iff hg hmembers hstands hcompleted).1 w, hsources]
      rfl
    _ ↔ ∃ m, g₁.dropEmpty.StandsFor g.start m ∧ g₃.Generates m w := by simp only [hstands]
    _ ↔ g.Accepts w ∧ w ≠ [] := h.exists_standsFor_iff hg w

end Grammar

section Truth

variable {g r : Grammar} {o : Options}

theorem mem_notices_convert_iff (hg : g.IsReadable) (hr : (g.convert o).outcome = .ok r) {n : Notice}
    (hn : n.level = .warning) : n ∈ (g.convert o).notices ↔
      (g.Accepts [] ∧ n = .startNullable g.start) ∨
        (r.alternatives r.start = [] ∧ n = .generatesNothing g.start) := by
  obtain ⟨g₁, hg₁, hwarnings⟩ := Conversion.warnings_convert_eq hr
  obtain ⟨cuts, hcut⟩ := Grammar.binarize_cut hg₁
  have hnotice : n ∈ (g.convert o).notices ↔ n ∈ warnings (g.convert o).notices := by
    rw [mem_warnings_iff]
    exact (and_iff_left hn).symm
  rw [hnotice, hwarnings, List.mem_append, Conversion.closingNotices, List.mem_ite_nil_right,
    List.mem_ite_nil_right, List.mem_singleton, List.mem_singleton,
    Grammar.start_mem_nullable_iff hg hg₁, hcut.start, (Settled.of_convert_outcome hg hr).start_eq]

theorem warnings_convert_sublist (hg : g.IsReadable) (hr : (g.convert o).outcome = .ok r) :
    (warnings (g.convert o).notices).Sublist [.startNullable g.start, .generatesNothing g.start] := by
  obtain ⟨g₁, hg₁, hwarnings⟩ := Conversion.warnings_convert_eq hr
  obtain ⟨cuts, hcut⟩ := Grammar.binarize_cut hg₁
  have hsublist : ∀ {c : Prop} [Decidable c] {m : Notice},
      (if c then [m] else []).Sublist [m] := by
    intro c _ m
    split
    · exact List.Sublist.refl _
    · exact List.nil_sublist _
  rw [hwarnings, Conversion.closingNotices, hcut.start,
    (Settled.of_convert_outcome hg hr).start_eq]
  exact List.Sublist.append hsublist hsublist

theorem startNullable_mem_iff (hg : g.IsReadable) (hr : (g.convert o).outcome = .ok r) :
    .startNullable g.start ∈ (g.convert o).notices ↔ g.Accepts [] := by
  rw [mem_notices_convert_iff hg hr rfl]
  simp only [and_true, reduceCtorEq, and_false, or_false]

theorem generatesNothing_mem_iff (hg : g.IsReadable) (hr : (g.convert o).outcome = .ok r) :
    .generatesNothing g.start ∈ (g.convert o).notices ↔ r.alternatives r.start = [] := by
  rw [mem_notices_convert_iff hg hr rfl]
  simp only [and_true, reduceCtorEq, and_false, false_or]

theorem not_accepts_of_generatesNothing (hg : g.IsReadable) (hr : (g.convert o).outcome = .ok r)
    (hn : .generatesNothing g.start ∈ (g.convert o).notices) (w : List Symbol) : ¬r.Accepts w := by
  have hdone := Settled.of_convert_outcome hg hr
  exact Grammar.not_accepts_of_alternatives_eq_nil hdone.start_mem_vocabulary
    ((generatesNothing_mem_iff hg hr).mp hn) w

theorem generatesNothing_mem_of_prune (hg : g.IsReadable) (hr : (g.convert o).outcome = .ok r)
    (ho : o.prune = true) (hnone : ∀ w, ¬r.Accepts w) :
    .generatesNothing g.start ∈ (g.convert o).notices := by
  rw [generatesNothing_mem_iff hg hr]
  obtain ⟨_, g', hsettled, rfl⟩ := exists_prune_of_convert hg ho hr
  by_contra hfull
  obtain ⟨w, hw⟩ := Grammar.exists_accepts_prune hsettled.coherent.keys hsettled.start_mem hfull
  exact hnone w hw

variable {file : String} {bytes : Option (List UInt8)} {start : Option Symbol}

/-- There are two warnings at most: that the grammar has the empty word, and that the result has no word;
with pruning neither is ever left out.  Where moreover every member of the closure is copied, a
conversion without warnings keeps the language, which is not empty, and after the second warning the
grammar had no word but the empty one. -/
theorem warnings_convert (h : GrammarFile.ofBytes? file bytes start = .ok g)
    (hr : (g.convert o).outcome = .ok r) :
    (warnings (g.convert o).notices).Sublist [.startNullable g.start, .generatesNothing g.start] ∧
    (.startNullable g.start ∈ (g.convert o).notices ↔ g.Accepts []) ∧
    (.generatesNothing g.start ∈ (g.convert o).notices → ∀ w, ¬r.Accepts w) ∧
    (o.prune = true →
      (.generatesNothing g.start ∈ (g.convert o).notices ↔ ∀ w, ¬r.Accepts w)) ∧
    (o.closureCopy = .everyMember → o.prune = true →
      (warnings (g.convert o).notices = [] →
        (∃ w, r.Accepts w) ∧ ∀ w, r.Accepts w ↔ g.Accepts w) ∧
      (.generatesNothing g.start ∈ (g.convert o).notices → ∀ w, g.Accepts w → w = [])) := by
  have hg := isReadable_of_ofBytes? h
  have hnullable := startNullable_mem_iff hg hr
  have hnothing := not_accepts_of_generatesNothing hg hr
  have hpruned := generatesNothing_mem_of_prune hg hr
  refine ⟨warnings_convert_sublist hg hr, hnullable, hnothing, fun ho => ⟨hnothing, hpruned ho⟩, ?_⟩
  intro hmode ho
  obtain ⟨g₁, g₃, g₄, _, hprep, _, D, stages, hlate, hthrough⟩ :=
    Grammar.exists_prepared_of_convert hr
  rw [hmode] at hprep
  have hwords := hprep.accepts_everyMember_iff hg hlate hthrough
  constructor
  · intro hquiet
    have hnone : ∀ n, n.level = .warning → n ∉ (g.convert o).notices := by
      intro n hn hmem
      have hwarning := mem_warnings_iff.mpr ⟨hmem, hn⟩
      rw [hquiet] at hwarning
      exact List.not_mem_nil hwarning
    have hempty : ¬g.Accepts [] := fun hw => hnone _ rfl (hnullable.mpr hw)
    refine ⟨?_, fun w => ?_⟩
    · by_contra hall
      exact hnone _ rfl (hpruned ho (not_exists.mp hall))
    · rw [hwords]
      refine and_iff_left_of_imp fun hw hnil => ?_
      rw [hnil] at hw
      exact hempty hw
  · intro hn w hw
    by_contra hne
    exact hnothing hn w ((hwords w).mpr ⟨hw, hne⟩)

/-- The sample has the empty word and others. -/
theorem warnings_convert_sample :
    GrammarFile.ofBytes? "sample" (some (GrammarFile.encodeText sampleText.toList)) none =
      .ok sampleGrammar ∧
    ∃ r, (sampleGrammar.convert ⟨.everyMember, true, true⟩).outcome = .ok r ∧
      warnings (sampleGrammar.convert ⟨.everyMember, true, true⟩).notices =
        [.startNullable sampleGrammar.start] ∧
      sampleGrammar.Accepts [] ∧ ¬∀ w, ¬r.Accepts w := by
  obtain ⟨r, hr⟩ := exists_of_toOption_isSome
    (x := (sampleGrammar.convert ⟨.everyMember, true, true⟩).outcome) (by decide +kernel)
  obtain ⟨_, hnullable, _, hpruned, _⟩ := warnings_convert ofBytes?_sampleText hr
  have hwarnings : warnings (sampleGrammar.convert ⟨.everyMember, true, true⟩).notices =
      [.startNullable sampleGrammar.start] := by decide +kernel
  have hmem : ∀ n, n ∈ (sampleGrammar.convert ⟨.everyMember, true, true⟩).notices →
      n.level = .warning → n = .startNullable sampleGrammar.start := by
    intro n hn hlevel
    have hwarning := mem_warnings_iff.mpr ⟨hn, hlevel⟩
    rw [hwarnings] at hwarning
    exact List.mem_singleton.mp hwarning
  refine ⟨ofBytes?_sampleText, r, hr, hwarnings, hnullable.mp ?_, fun hnone => ?_⟩
  · refine (mem_warnings_iff.mp ?_).1
    rw [hwarnings]
    exact List.mem_singleton.mpr rfl
  · cases hmem _ ((hpruned rfl).mpr hnone) rfl

end Truth

end ChomskyForm
