import ChomskyForm.Proofs.Stages.Binary
import ChomskyForm.Proofs.Stages.EmptyFree
import ChomskyForm.Proofs.Stages.Lifted
import ChomskyForm.Proofs.Stages.StartRules
import ChomskyForm.Proofs.Stages.UnitFree
import ChomskyForm.Proofs.Stages.Useful

/-!
# Terminals stay terminals

Whether a symbol is a nonterminal shows in the vocabulary alone, which the stages extend and cut
down.  A stage leaves no mention of a nonterminal that it drops (`KeepsKinds`), so that in no history
of stages, in whatever order, a symbol that was a nonterminal once is used as a terminal later
(`Coined.run`).
-/

namespace ChomskyForm

/-! ### Histories -/

/-- A piece of work on a grammar. -/
inductive Move where
  | draw
  | computeClosure
  | binarize
  | dropEmpty
  /-- With the closure of the grammar as it is. -/
  | eliminateUnits
  /-- With one of the closures computed so far, which are numbered from zero. -/
  | completeStart (closure : Nat) (mode : ClosureCopy)
  | liftTerminals
  | prune
deriving DecidableEq

/-- The grammar that a history has led to, with the closures computed on the way. -/
structure Progress where
  grammar : Grammar
  closures : List UnitClosure := []
deriving DecidableEq

namespace Progress

/-- Carries out a move, if it is possible. -/
def perform (p : Progress) : Move → Option Progress
  | .draw => p.grammar.draw.map fun (_, g) => { p with grammar := g }
  | .computeClosure => some { p with closures := p.closures ++ [p.grammar.unitClosure] }
  | .binarize => p.grammar.binarize.outcome.toOption.map fun g => { p with grammar := g }
  | .dropEmpty => some { p with grammar := p.grammar.dropEmpty }
  | .eliminateUnits =>
    let D := p.grammar.unitClosure
    (p.grammar.eliminateUnits D).toOption.map fun g => ⟨g, p.closures ++ [D]⟩
  | .completeStart n mode => do
    let D ← p.closures[n]?
    (p.grammar.completeStart D mode).outcome.toOption.map fun g => { p with grammar := g }
  | .liftTerminals => p.grammar.liftTerminals.outcome.toOption.map fun g => { p with grammar := g }
  | .prune => some { p with grammar := p.grammar.prune }

/-- A move that is not possible changes nothing. -/
def after (p : Progress) (m : Move) : Progress := (p.perform m).getD p

def run (p : Progress) (moves : List Move) : Progress := moves.foldl after p

theorem run_cons (p : Progress) (m : Move) (moves : List Move) :
    p.run (m :: moves) = (p.after m).run moves := rfl

end Progress

/-! ### One stage -/

namespace Grammar

/-- A symbol that `g'` uses is one of its nonterminals, or it was used as a terminal before; new
nonterminals come from the pool. -/
structure KeepsKinds (g g' : Grammar) : Prop where
  start : g'.start = g.start
  coherent : g'.Coherent
  pool : ∀ s ∈ g'.pool.letters, s ∈ g.pool.letters
  vocabulary : ∀ s ∈ g'.vocabulary, s ∈ g.vocabulary ∨ s ∈ g.pool.letters
  uses : ∀ s, g'.Uses s → s ∈ g'.vocabulary ∨ (g.Uses s ∧ s ∉ g.vocabulary)
  start_mem : g.start ∈ g.rules → g'.start ∈ g'.rules

variable {g g' : Grammar}

theorem keepsKinds_refl (hg : g.Coherent) : KeepsKinds g g where
  start := rfl
  coherent := hg
  pool _ hs := hs
  vocabulary _ hs := Or.inl hs
  uses s hs := by
    by_cases hmem : s ∈ g.vocabulary
    · exact Or.inl hmem
    · exact Or.inr ⟨hs, hmem⟩
  start_mem hstart := hstart

theorem Drew.madeFrom {ls : List Symbol} (h : g.Drew ls g') (hkeys : ∀ s ∈ g.rules, s ∈ g.vocabulary) :
    MadeFrom g ls g' where
  start := h.start
  pool := h.pool
  keys s hs := by
    rw [h.rules] at hs
    exact h.mem_vocabulary.mpr (Or.inl (hkeys s hs))
  vocabulary _ hs := h.mem_vocabulary.mp hs
  uses s hs := by
    simp only [Uses, alternatives, h.rules] at hs
    exact Or.inl hs

theorem keepsKinds_draw {letter : Symbol} (hg : g.Coherent) (h : g.draw = some (letter, g')) :
    KeepsKinds g g' := by
  have hdrew := drew_of_draw h
  refine ⟨hdrew.start, hg.of_madeFrom (hdrew.madeFrom hg.keys), ?_, ?_, ?_, ?_⟩
  · intro s hs
    rw [hdrew.pool]
    exact List.mem_append_right _ hs
  · intro s hs
    refine (hdrew.mem_vocabulary.mp hs).imp_right fun hletter => ?_
    rw [hdrew.pool]
    exact List.mem_append_left _ hletter
  · intro s hs
    by_cases hmem : s ∈ g'.vocabulary
    · exact Or.inl hmem
    · rw [hdrew.mem_vocabulary, not_or] at hmem
      simp only [Uses, alternatives, hdrew.rules] at hs
      exact Or.inr ⟨hs, hmem.1⟩
  · intro hstart
    rw [hdrew.start, hdrew.rules]
    exact hstart

theorem keepsKinds_binarize (hg : g.Coherent) (h : g.binarize.outcome = .ok g') :
    KeepsKinds g g' := by
  obtain ⟨cuts, hcut⟩ := binarize_cut h
  refine ⟨hcut.start, hcut.coherent hg, fun s hs => hcut.mem_pool_of_mem_pool hs, ?_, ?_,
    hcut.start_mem⟩
  · intro s hs
    exact ((hcut.mem_vocabulary_iff hg.keys).mp hs).imp_right hcut.mem_pool_of_mem_drawn
  · intro s hs
    by_cases hmem : s ∈ g'.vocabulary
    · exact Or.inl hmem
    · rw [hcut.mem_vocabulary_iff hg.keys, not_or] at hmem
      exact Or.inr ⟨(hcut.uses hs).resolve_right hmem.2, hmem.1⟩

theorem keepsKinds_dropEmpty (hg : g.Coherent) : KeepsKinds g g.dropEmpty := by
  refine ⟨start_dropEmpty, coherent_dropEmpty hg, ?_, ?_, ?_, ?_⟩
  · intro s hs
    rw [pool_dropEmpty] at hs
    exact hs
  · intro s hs
    exact Or.inl ((mem_vocabulary_dropEmpty hg.keys).mp hs).1
  · intro s hs
    by_cases hmem : s ∈ g.dropEmpty.vocabulary
    · exact Or.inl hmem
    · exact Or.inr ⟨uses_dropEmpty hs, fun hold => not_uses_dropEmpty hg.keys hold hmem hs⟩
  · intro hstart
    rw [start_dropEmpty]
    exact start_mem_dropEmpty hstart

theorem keepsKinds_eliminateUnits (hg : g.Coherent)
    (h : g.eliminateUnits g.unitClosure = .ok g') : KeepsKinds g g' := by
  have hexpanded := expanded_of_eliminateUnits hg.keys h
  refine ⟨hexpanded.start, coherent_eliminateUnits h hg, ?_, ?_, ?_,
    start_mem_eliminateUnits hg.keys h⟩
  · intro s hs
    rw [hexpanded.pool] at hs
    exact hs
  · intro s hs
    rw [hexpanded.vocabulary] at hs
    exact Or.inl hs
  · intro s hs
    rw [hexpanded.vocabulary]
    by_cases hmem : s ∈ g.vocabulary
    · exact Or.inl hmem
    · exact Or.inr ⟨(uses_eliminateUnits hg.keys h hs).resolve_right hmem, hmem⟩

theorem keepsKinds_completeStart {D : UnitClosure} {mode : ClosureCopy} (hg : g.Coherent)
    (hexp : g.start ∈ g.vocabulary) (h : (g.completeStart D mode).outcome = .ok g') :
    KeepsKinds g g' := by
  obtain ⟨_, _, hcompleted⟩ := completeStart_completed hexp h
  refine ⟨hcompleted.start, hcompleted.coherent hg hexp, ?_, ?_, ?_,
    fun _ => hcompleted.start_mem⟩
  · intro s hs
    rw [hcompleted.pool] at hs
    exact hs
  · intro s hs
    rw [hcompleted.vocabulary] at hs
    exact Or.inl hs
  · intro s hs
    rw [hcompleted.vocabulary]
    by_cases hmem : s ∈ g.vocabulary
    · exact Or.inl hmem
    · exact Or.inr ⟨hcompleted.uses hs, hmem⟩

theorem keepsKinds_liftTerminals (hg : g.Coherent) (h : g.liftTerminals.outcome = .ok g') :
    KeepsKinds g g' := by
  obtain ⟨σ, hstood⟩ := stoodIn_of_liftTerminals hg.supplied h
  refine ⟨hstood.start, hstood.coherent hg, ?_, ?_, ?_, hstood.start_mem⟩
  · intro s hs
    rw [hstood.pool]
    exact List.mem_append_right _ hs
  · intro s hs
    exact ((hstood.vocabulary s).mp hs).imp_right hstood.mem_pool_of_mem_values
  · intro s hs
    by_cases hmem : s ∈ g'.vocabulary
    · exact Or.inl hmem
    · rw [hstood.vocabulary, not_or] at hmem
      exact Or.inr ⟨(hstood.uses hs).resolve_right hmem.2, hmem.1⟩

theorem keepsKinds_prune (hg : g.Coherent) : KeepsKinds g g.prune := by
  refine ⟨rfl, coherent_prune hg, fun s hs => hs, ?_, ?_, start_mem_prune⟩
  · intro s hs
    exact Or.inl (mem_vocabulary_prune.mp hs).1
  · intro s hs
    by_cases hmem : s ∈ g.vocabulary
    · exact Or.inl (mem_vocabulary_prune_of_uses hs hmem)
    · exact Or.inr ⟨uses_prune hs, hmem⟩

end Grammar

/-! ### Whole histories -/

/-- What is known of a history: `ever` holds of the symbols that have been nonterminals so far, and
`fixed` of symbols that may never be. -/
structure Coined (fixed ever : Symbol → Prop) (p : Progress) : Prop where
  coherent : p.grammar.Coherent
  current : ∀ s ∈ p.grammar.vocabulary, ever s
  pool : ∀ s ∈ p.grammar.pool.letters, ¬ever s
  uses : ∀ s, p.grammar.Uses s → ever s → s ∈ p.grammar.vocabulary
  start : ever p.grammar.start → p.grammar.start ∈ p.grammar.rules
  closures : ∀ D ∈ p.closures, ∀ s ∈ D, ever s
  fixed : ∀ s, fixed s → ¬ever s ∧ s ∉ p.grammar.pool.letters

namespace Coined

variable {fixed ever : Symbol → Prop} {p : Progress}

/-- The nonterminals of the next grammar count as well from then on. -/
def Later (ever : Symbol → Prop) (g : Grammar) (s : Symbol) : Prop := ever s ∨ s ∈ g.vocabulary

theorem of_keepsKinds (h : Coined fixed ever p) {g : Grammar} (hg : p.grammar.KeepsKinds g)
    {closures : List UnitClosure} (hclosures : ∀ D ∈ closures, ∀ s ∈ D, ever s) :
    Coined fixed (Later ever g) ⟨g, closures⟩ where
  coherent := hg.coherent
  current s hs := Or.inr hs
  pool s hs hever := by
    rcases hever with hever | hmem
    · exact h.pool s (hg.pool s hs) hever
    · exact (hg.coherent.fresh s hs).1 hmem
  uses s hs hever := by
    rcases hever with hever | hmem
    · rcases hg.uses s hs with hmem | ⟨huses, hterminal⟩
      · exact hmem
      · exact absurd (h.uses s huses hever) hterminal
    · exact hmem
  start hever := by
    refine hg.start_mem (h.start ?_)
    rw [hg.start] at hever
    rcases hever with hever | hmem
    · exact hever
    · rcases hg.vocabulary _ hmem with hold | hletter
      · exact h.current _ hold
      · exact absurd hletter h.coherent.start_not_mem_pool
  closures D hD s hs := Or.inl (hclosures D hD s hs)
  fixed s hs := by
    obtain ⟨hever, hpool⟩ := h.fixed s hs
    refine ⟨?_, fun hmem => hpool (hg.pool s hmem)⟩
    intro hlater
    rcases hlater with hlater | hmem
    · exact hever hlater
    · exact (hg.vocabulary s hmem).elim (fun hold => hever (h.current s hold)) hpool

theorem of_mem_append {D : UnitClosure} (h : Coined fixed ever p)
    (hD : D ∈ p.closures ++ [p.grammar.unitClosure]) : ∀ s ∈ D, ever s := by
  rcases List.mem_append.mp hD with hD | hD
  · exact h.closures D hD
  · rw [List.mem_singleton.mp hD]
    intro s hs
    exact h.current s (Grammar.mem_unitClosure_iff.mp hs)

theorem perform (h : Coined fixed ever p) {m : Move} {q : Progress} (hq : p.perform m = some q) :
    Coined fixed (Later ever q.grammar) q := by
  cases m with
  | draw =>
    obtain ⟨⟨letter, g⟩, hdraw, hq⟩ := Option.map_eq_some_iff.mp hq
    rw [← hq]
    exact h.of_keepsKinds (Grammar.keepsKinds_draw h.coherent hdraw) h.closures
  | computeClosure =>
    cases hq
    exact h.of_keepsKinds (Grammar.keepsKinds_refl h.coherent) fun D hD => h.of_mem_append hD
  | binarize =>
    obtain ⟨g, hg, hq⟩ := Option.map_eq_some_iff.mp hq
    rw [← hq]
    exact h.of_keepsKinds (Grammar.keepsKinds_binarize h.coherent (eq_ok_of_toOption_eq_some hg))
      h.closures
  | dropEmpty =>
    cases hq
    exact h.of_keepsKinds (Grammar.keepsKinds_dropEmpty h.coherent) h.closures
  | eliminateUnits =>
    obtain ⟨g, hg, hq⟩ := Option.map_eq_some_iff.mp hq
    rw [← hq]
    exact h.of_keepsKinds
      (Grammar.keepsKinds_eliminateUnits h.coherent (eq_ok_of_toOption_eq_some hg))
      fun D hD => h.of_mem_append hD
  | completeStart n mode =>
    obtain ⟨D, hD, hq⟩ := Option.bind_eq_some_iff.mp hq
    obtain ⟨g, hg, hq⟩ := Option.map_eq_some_iff.mp hq
    rw [← hq]
    have hok := eq_ok_of_toOption_eq_some hg
    -- the start symbol was a nonterminal when the closure was computed, so it is a left side
    have hever := h.closures D (List.mem_of_getElem? hD) _ (Grammar.start_mem_of_completeStart hok)
    have hexp := h.coherent.keys _ (h.start hever)
    exact h.of_keepsKinds (Grammar.keepsKinds_completeStart h.coherent hexp hok) h.closures
  | liftTerminals =>
    obtain ⟨g, hg, hq⟩ := Option.map_eq_some_iff.mp hq
    rw [← hq]
    exact h.of_keepsKinds
      (Grammar.keepsKinds_liftTerminals h.coherent (eq_ok_of_toOption_eq_some hg)) h.closures
  | prune =>
    cases hq
    exact h.of_keepsKinds (Grammar.keepsKinds_prune h.coherent) h.closures

theorem after (h : Coined fixed ever p) (m : Move) :
    ∃ ever', Coined fixed ever' (p.after m) ∧ ∀ s, ever s → ever' s := by
  rw [Progress.after]
  cases hq : p.perform m with
  | none => exact ⟨ever, h, fun _ => id⟩
  | some q => exact ⟨_, h.perform hq, fun _ => Or.inl⟩

/-- The invariant goes through a history, and counts every nonterminal that the history has seen. -/
theorem run (h : Coined fixed ever p) (moves : List Move) :
    ∃ ever', Coined fixed ever' (p.run moves) ∧ (∀ s, ever s → ever' s) ∧
      ∀ earlier later, moves = earlier ++ later →
        ∀ s ∈ (p.run earlier).grammar.vocabulary, ever' s := by
  induction moves generalizing p ever with
  | nil =>
    refine ⟨ever, h, fun _ => id, ?_⟩
    intro earlier later hmoves s hs
    rw [(List.append_eq_nil_iff.mp hmoves.symm).1] at hs
    exact h.current s hs
  | cons m moves ih =>
    obtain ⟨ever₁, h₁, hsub₁⟩ := h.after m
    obtain ⟨ever', h', hsub, hseen⟩ := ih h₁
    refine ⟨ever', h', fun s hs => hsub s (hsub₁ s hs), ?_⟩
    intro earlier later hmoves s hs
    cases earlier with
    | nil => exact hsub s (hsub₁ s (h.current s hs))
    | cons m' earlier =>
      obtain ⟨hm, hrest⟩ := List.cons.inj hmoves
      rw [← hm, Progress.run_cons] at hs
      exact hseen earlier later hrest s hs

/-- Nothing has happened yet. -/
theorem of_ofProductions {start : Symbol} {ps : List Production}
    (hps : ∀ p ∈ ps, p.1 ≠ Symbol.marker) :
    Coined (fun s => ((∃ p ∈ ps, s ∈ p.2) ∨ s = start) ∧ ∀ p ∈ ps, p.1 ≠ s)
      (· ∈ (Grammar.ofProductions start ps).vocabulary)
      { grammar := Grammar.ofProductions start ps } := by
  have hg := @Grammar.coherent_ofProductions start ps hps
  refine ⟨hg, fun s hs => hs, fun s hs => (hg.fresh s hs).1, fun s _ hs => hs, ?_,
    fun D hD => absurd hD List.not_mem_nil, ?_⟩
  · intro hs
    exact Grammar.mem_rules_ofProductions.mpr (Grammar.mem_vocabulary_ofProductions.mp hs)
  · rintro s ⟨hused, hright⟩
    refine ⟨?_, ?_⟩
    · intro hs
      obtain ⟨p, hp, hlhs⟩ := List.mem_map.mp (Grammar.mem_vocabulary_ofProductions.mp hs)
      exact hright p hp hlhs
    · intro hs
      rw [Grammar.pool_ofProductions, LetterPool.mem_excluding, List.mem_cons,
        List.mem_flatMap] at hs
      rcases hused with ⟨p, hp, hmem⟩ | hstart
      · exact hs.2 (Or.inr ⟨p, hp, List.mem_cons_of_mem _ hmem⟩)
      · exact hs.2 (Or.inl hstart)

end Coined

/-- Letters of the pool are unused, terminals stay terminals, and a symbol that was a nonterminal
once is used as a nonterminal only. -/
theorem kinds_of_run {start : Symbol} {ps : List Production}
    (hps : ∀ p ∈ ps, p.1 ≠ Symbol.marker) (moves : List Move) :
    let initial : Progress := { grammar := Grammar.ofProductions start ps }
    let g := (initial.run moves).grammar
    (∀ s ∈ g.pool.letters, s ∉ g.vocabulary ∧ s ∉ g.rules ∧ ¬g.Uses s ∧ s ≠ g.start) ∧
    (∀ s, (∃ p ∈ ps, s ∈ p.2) ∨ s = start → (∀ p ∈ ps, p.1 ≠ s) → s ∉ g.vocabulary) ∧
    (∀ earlier later, moves = earlier ++ later →
      ∀ s ∈ (initial.run earlier).grammar.vocabulary, g.Uses s → s ∈ g.vocabulary) := by
  intro initial g
  obtain ⟨ever, hcoined, _, hseen⟩ := (@Coined.of_ofProductions start ps hps).run moves
  refine ⟨?_, ?_, ?_⟩
  · intro s hs
    obtain ⟨hexp, hstart, huses⟩ := hcoined.coherent.fresh s hs
    exact ⟨hexp, fun hkey => hexp (hcoined.coherent.keys s hkey), huses, hstart⟩
  · intro s hused hright hs
    exact (hcoined.fixed s ⟨hused, hright⟩).1 (hcoined.current s hs)
  · intro earlier later hmoves s hs huses
    exact hcoined.uses s huses (hseen earlier later hmoves s hs)

/-! `D` derives no word, and the stages come in an order of their own. -/

def mixedProductions : List Production :=
  [(⟨'S'⟩, [⟨'D'⟩, ⟨'a'⟩]), (⟨'S'⟩, [⟨'a'⟩, ⟨'S'⟩, ⟨'b'⟩]), (⟨'S'⟩, [⟨'A'⟩]), (⟨'A'⟩, [⟨'e'⟩]),
    (⟨'D'⟩, [⟨'D'⟩, ⟨'x'⟩])]

def mixedMoves : List Move :=
  [.eliminateUnits, .prune, .draw, .liftTerminals, .dropEmpty, .binarize,
    .completeStart 0 .everyMember, .eliminateUnits, .liftTerminals, .prune]

theorem kinds_of_run_mixed :
    let initial : Progress := { grammar := Grammar.ofProductions ⟨'S'⟩ mixedProductions }
    let g := (initial.run mixedMoves).grammar
    ⟨'D'⟩ ∈ initial.grammar.vocabulary ∧ ⟨'D'⟩ ∉ g.vocabulary ∧ ¬g.Uses ⟨'D'⟩ ∧
      ⟨'a'⟩ ∉ g.vocabulary := by
  intro initial g
  have hmarker : ∀ p ∈ mixedProductions, p.1 ≠ Symbol.marker := by decide
  have hinitial : ⟨'D'⟩ ∈ initial.grammar.vocabulary := by decide +kernel
  have hgone : ⟨'D'⟩ ∉ g.vocabulary := by decide +kernel
  obtain ⟨_, hterminal, hkept⟩ := @kinds_of_run ⟨'S'⟩ mixedProductions hmarker mixedMoves
  refine ⟨hinitial, hgone, fun huses => hgone (hkept [] _ rfl _ hinitial huses), ?_⟩
  exact hterminal ⟨'a'⟩ (Or.inl ⟨(⟨'S'⟩, [⟨'D'⟩, ⟨'a'⟩]), by decide, by decide⟩) (by decide)

end ChomskyForm
