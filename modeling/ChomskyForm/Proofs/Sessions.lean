import ChomskyForm.Proofs.Histories
import ChomskyForm.Workspace

/-!
# Sessions in a workspace

A workspace keeps one closure, the one that was computed last, and a history keeps them all.  But for
the edits that reach into the grammar or the closure by hand, every edit is an action of a history
(`Progress.record`), and both lead to the same grammar (`Progress.LeadsTo.afterAll`).  So a session has
the properties of histories: its grammar stays tidy (`Workspace.tidy_afterAll`), its pool unused where
no production is added (`Workspace.supplied_afterAll`), and its terminals stay terminals where units are
eliminated by a closure that is up to date (`Workspace.kinds_afterAll`).
-/

namespace ChomskyForm

/-- What no stage does by itself: a part of the grammar or of the closure is taken away or replaced. -/
def Edit.IsManual : Edit → Prop
  | .forgetClosure _ | .discardLetters _ | .dropRule _ | .dropNonterminal _ | .setStart _ => True
  | _ => False

instance : DecidablePred Edit.IsManual
  | .forgetClosure _ | .discardLetters _ | .dropRule _ | .dropNonterminal _ | .setStart _ =>
    .isTrue trivial
  | .binarize | .dropEmpty | .eliminateUnits | .completeStart _ | .liftTerminals | .prune
  | .computeClosure | .add _ _ | .draw | .save => .isFalse id

/-! ### One edit -/

namespace Progress

/-- The actions that come to the same as an edit.  The closure of a workspace is the last one of the
history; if it belongs to the grammar as it is, units are eliminated by a move. -/
def record (p : Progress) : Edit → List Action
  | .binarize => [.move .binarize]
  | .dropEmpty => [.move .dropEmpty]
  | .eliminateUnits =>
    if p.closures.getLast? = some p.grammar.unitClosure then [.move .eliminateUnits]
    else [.eliminateUnitsBy (p.closures.length - 1)]
  | .completeStart mode => [.move (.completeStart (p.closures.length - 1) mode)]
  | .liftTerminals => [.move .liftTerminals]
  | .prune => [.move .prune]
  | .computeClosure => [.move .computeClosure]
  | .add lhs rhs => [.add lhs rhs]
  | .draw => [.move .draw]
  | .save => []
  | .forgetClosure _ | .discardLetters _ | .dropRule _ | .dropNonterminal _ | .setStart _ => []

def recordAll (p : Progress) : List Edit → List Action
  | [] => []
  | e :: es => p.record e ++ (p.runActions (p.record e)).recordAll es

/-- The history and the session are at the same grammar, and the closure of the workspace is the last
one of the history. -/
structure LeadsTo (p : Progress) (w : Workspace) : Prop where
  grammar : p.grammar = w.grammar
  closure : p.closures.getLast? = some w.closure

/-- The history of a workspace that was just opened: its closure is empty. -/
def opening (g : Grammar) : Progress := ⟨g, [∅]⟩

theorem leadsTo_opening (g : Grammar) : (opening g).LeadsTo { grammar := g } := ⟨rfl, rfl⟩

theorem record_of_current {p : Progress} (h : p.closures.getLast? = some p.grammar.unitClosure) :
    p.record .eliminateUnits = [.move .eliminateUnits] := if_pos h

theorem record_of_outdated {p : Progress} (h : p.closures.getLast? ≠ some p.grammar.unitClosure) :
    p.record .eliminateUnits = [.eliminateUnitsBy (p.closures.length - 1)] := if_neg h

theorem runActions_singleton (p : Progress) (a : Action) : p.runActions [a] = p.afterAction a := rfl

namespace LeadsTo

variable {p : Progress} {w : Workspace} {e : Edit}

theorem getElem?_closures (h : p.LeadsTo w) :
    p.closures[p.closures.length - 1]? = some w.closure := by
  rw [← List.getLast?_eq_getElem?]
  exact h.closure

/-- An edit that has the outcome `r` of a stage, and an action that has it as well. -/
theorem of_stage (h : p.LeadsTo w) {a : Action} {r : Except ConversionError Grammar}
    {closures : List UnitClosure} (hlast : closures.getLast? = some w.closure)
    (hedit : (w.apply e).outcome = r.map fun g => (.done, w.withGrammar g))
    (haction : p.act a = r.toOption.map fun g => ⟨g, closures⟩) :
    (p.afterAction a).LeadsTo (w.after e) := by
  cases r with
  | error err =>
    rw [Workspace.after_of_error hedit, afterAction, haction]
    exact h
  | ok g =>
    rw [Workspace.after, hedit, afterAction, haction]
    exact ⟨rfl, hlast⟩

theorem after (h : p.LeadsTo w) (he : ¬e.IsManual) :
    (p.runActions (p.record e)).LeadsTo (w.after e) := by
  have hclosure := h.getElem?_closures
  have hlast := h.closure
  obtain ⟨g, closures⟩ := p
  obtain ⟨g', D, saved⟩ := w
  obtain rfl : g = g' := h.grammar
  cases e with
  | binarize => exact h.of_stage hlast (Noted.outcome_bind_pure ..) rfl
  | dropEmpty => exact ⟨rfl, hlast⟩
  | eliminateUnits =>
    by_cases hcurrent : closures.getLast? = some g.unitClosure
    · obtain rfl : D = g.unitClosure := Option.some.inj (hlast.symm.trans hcurrent)
      rw [record_of_current hcurrent]
      exact h.of_stage List.getLast?_concat (Noted.outcome_bind_pure ..) rfl
    · rw [record_of_outdated hcurrent]
      refine h.of_stage hlast (Noted.outcome_bind_pure ..) ?_
      rw [act, hclosure]
      rfl
  | completeStart mode =>
    refine h.of_stage hlast (Noted.outcome_bind_pure ..) ?_
    rw [act, perform, hclosure]
    rfl
  | liftTerminals => exact h.of_stage hlast (Noted.outcome_bind_pure ..) rfl
  | prune => exact ⟨rfl, hlast⟩
  | computeClosure => exact ⟨rfl, List.getLast?_concat⟩
  | add lhs rhs => exact ⟨rfl, hlast⟩
  | draw =>
    rw [record, runActions_singleton, afterAction, act, perform, Workspace.after, Workspace.apply]
    cases hdraw : g.draw with
    | none => exact h
    | some drawn => exact ⟨rfl, hlast⟩
  | save => exact ⟨rfl, hlast⟩
  | forgetClosure s => exact absurd trivial he
  | discardLetters count => exact absurd trivial he
  | dropRule s => exact absurd trivial he
  | dropNonterminal s => exact absurd trivial he
  | setStart s => exact absurd trivial he

/-- A session without edits by hand is a history. -/
theorem afterAll (h : p.LeadsTo w) {es : List Edit} (hes : ∀ e ∈ es, ¬e.IsManual) :
    (p.runActions (p.recordAll es)).LeadsTo (w.afterAll es) := by
  induction es generalizing p w with
  | nil => exact h
  | cons e es ih =>
    obtain ⟨he, hrest⟩ := List.forall_mem_cons.mp hes
    rw [recordAll, runActions_append]
    exact ih (h.after he) hrest

end LeadsTo

/-- The first elimination is by the closure of the grammar, the second by one that is out of date. -/
example :
    (opening (Grammar.ofProductions ⟨'S'⟩ [(⟨'S'⟩, [⟨'A'⟩]), (⟨'A'⟩, [⟨'a'⟩])])).recordAll
        [.computeClosure, .eliminateUnits, .save, .prune, .eliminateUnits,
          .completeStart .everyMember] =
      [.move .computeClosure, .move .eliminateUnits, .move .prune, .eliminateUnitsBy 2,
        .move (.completeStart 2 .everyMember)] := by
  decide +kernel

/-! ### What is recorded -/

theorem recordAll_append (p : Progress) (es es' : List Edit) :
    p.recordAll (es ++ es') = p.recordAll es ++ (p.runActions (p.recordAll es)).recordAll es' := by
  induction es generalizing p with
  | nil => rfl
  | cons e es ih =>
    rw [List.cons_append, recordAll, recordAll, ih, runActions_append, List.append_assoc]

theorem isInternal_of_mem_record {p : Progress} {e : Edit} (he : ∀ lhs rhs, e ≠ .add lhs rhs) :
    ∀ a ∈ p.record e, a.IsInternal := by
  intro a ha
  cases e with
  | add lhs rhs => exact absurd rfl (he lhs rhs)
  | eliminateUnits =>
    rw [record] at ha
    split at ha <;> exact List.mem_singleton.mp ha ▸ trivial
  | binarize | dropEmpty | completeStart | liftTerminals | prune | computeClosure | draw =>
    rw [List.mem_singleton.mp ha]
    trivial
  | save | forgetClosure | discardLetters | dropRule | dropNonterminal | setStart =>
    exact absurd ha List.not_mem_nil

theorem isInternal_of_mem_recordAll {p : Progress} {es : List Edit}
    (hes : ∀ e ∈ es, ∀ lhs rhs, e ≠ .add lhs rhs) : ∀ a ∈ p.recordAll es, a.IsInternal := by
  induction es generalizing p with
  | nil => exact fun a ha => absurd ha List.not_mem_nil
  | cons e es ih =>
    obtain ⟨he, hrest⟩ := List.forall_mem_cons.mp hes
    intro a ha
    rcases List.mem_append.mp ha with ha | ha
    · exact isInternal_of_mem_record he a ha
    · exact ih hrest a ha

theorem runActions_map_move (p : Progress) (moves : List Move) :
    p.runActions (moves.map .move) = p.run moves := List.foldl_map

end Progress

namespace Workspace

/-- Nothing is added or done by hand, and units are eliminated by the closure of the grammar as it
is. -/
def Admits (w : Workspace) : Edit → Prop
  | .add _ _ => False
  | .eliminateUnits => w.closure = w.grammar.unitClosure
  | e => ¬e.IsManual

def AdmitsAll (w : Workspace) : List Edit → Prop
  | [] => True
  | e :: es => w.Admits e ∧ (w.after e).AdmitsAll es

instance (w : Workspace) : DecidablePred w.Admits
  | .add _ _ => .isFalse id
  | .eliminateUnits => inferInstanceAs (Decidable (w.closure = w.grammar.unitClosure))
  | .forgetClosure _ | .discardLetters _ | .dropRule _ | .dropNonterminal _ | .setStart _ =>
    .isFalse (not_not_intro trivial)
  | .binarize | .dropEmpty | .completeStart _ | .liftTerminals | .prune | .computeClosure | .draw
  | .save => .isTrue id

instance decidableAdmitsAll : (w : Workspace) → (es : List Edit) → Decidable (w.AdmitsAll es)
  | _, [] => .isTrue trivial
  | w, e :: es =>
    have := decidableAdmitsAll (w.after e) es
    inferInstanceAs (Decidable (w.Admits e ∧ (w.after e).AdmitsAll es))

theorem Admits.not_isManual {w : Workspace} {e : Edit} (h : w.Admits e) : ¬e.IsManual := by
  cases e with
  | add | eliminateUnits => exact id
  | _ => exact h

theorem AdmitsAll.not_isManual {w : Workspace} {es : List Edit} (h : w.AdmitsAll es) :
    ∀ e ∈ es, ¬e.IsManual := by
  induction es generalizing w with
  | nil => exact fun e he => absurd he List.not_mem_nil
  | cons e es ih => exact List.forall_mem_cons.mpr ⟨h.1.not_isManual, ih h.2⟩

end Workspace

namespace Progress.LeadsTo

variable {p : Progress} {w : Workspace}

theorem exists_moves_record (h : p.LeadsTo w) {e : Edit} (he : w.Admits e) :
    ∃ moves : List Move, p.record e = moves.map .move := by
  cases e with
  | binarize => exact ⟨[.binarize], rfl⟩
  | dropEmpty => exact ⟨[.dropEmpty], rfl⟩
  | eliminateUnits =>
    refine ⟨[.eliminateUnits], record_of_current ?_⟩
    rw [h.closure, h.grammar]
    exact congrArg some he
  | completeStart mode => exact ⟨[.completeStart (p.closures.length - 1) mode], rfl⟩
  | liftTerminals => exact ⟨[.liftTerminals], rfl⟩
  | prune => exact ⟨[.prune], rfl⟩
  | computeClosure => exact ⟨[.computeClosure], rfl⟩
  | draw => exact ⟨[.draw], rfl⟩
  | save => exact ⟨[], rfl⟩
  | add => exact he.elim
  | forgetClosure | discardLetters | dropRule | dropNonterminal | setStart => exact absurd trivial he

/-- A session in which nothing happens but stages is a history of moves. -/
theorem exists_moves_recordAll (h : p.LeadsTo w) {es : List Edit} (hes : w.AdmitsAll es) :
    ∃ moves : List Move, p.recordAll es = moves.map .move := by
  induction es generalizing p w with
  | nil => exact ⟨[], rfl⟩
  | cons e es ih =>
    obtain ⟨moves, hmoves⟩ := h.exists_moves_record hes.1
    obtain ⟨moves', hmoves'⟩ := ih (h.after hes.1.not_isManual) hes.2
    refine ⟨moves ++ moves', ?_⟩
    rw [recordAll, hmoves, List.map_append, ← hmoves', hmoves]

end Progress.LeadsTo

/-! ### Whole sessions -/

theorem Progress.not_mem_of_opening {g : Grammar} {D : UnitClosure} (hD : D ∈ (opening g).closures)
    (s : Symbol) : s ∉ D := by
  rw [List.mem_singleton.mp hD]
  exact List.not_mem_nil

theorem Kept.opening {g : Grammar} (hg : g.Tidy) : Kept (Progress.opening g) :=
  ⟨hg, fun _ hD hs => absurd hs (Progress.not_mem_of_opening hD _)⟩

theorem Sound.opening {g : Grammar} (hg : g.Tidy) (hsupplied : g.Supplied) :
    Sound (Progress.opening g) :=
  ⟨Kept.opening hg, hsupplied, fun _ hD s members hget =>
    absurd (OrderedMap.mem_iff_get?.mpr ⟨members, hget⟩) (Progress.not_mem_of_opening hD s)⟩

theorem Coined.opening {fixed ever : Symbol → Prop} {g : Grammar}
    (h : Coined fixed ever { grammar := g }) : Coined fixed ever (Progress.opening g) where
  coherent := h.coherent
  current := h.current
  pool := h.pool
  uses := h.uses
  start := h.start
  closures _ hD s hs := absurd hs (Progress.not_mem_of_opening hD s)
  fixed := h.fixed

namespace Workspace

variable {es : List Edit}

theorem grammar_afterAll (g : Grammar) (hes : ∀ e ∈ es, ¬e.IsManual) :
    (afterAll { grammar := g } es).grammar =
      ((Progress.opening g).runActions ((Progress.opening g).recordAll es)).grammar :=
  ((Progress.leadsTo_opening g).afterAll hes).grammar.symm

/-- The grammar stays tidy, its start symbol stays the same, and a left side if it is one. -/
theorem tidy_afterAll (start : Symbol) (ps : List Production) (hes : ∀ e ∈ es, ¬e.IsManual) :
    let initial : Workspace := { grammar := Grammar.ofProductions start ps }
    let g := (initial.afterAll es).grammar
    g.Tidy ∧ g.start = start ∧ (start ∈ initial.grammar.rules → start ∈ g.rules) := by
  intro initial g
  have hname : (Progress.opening initial.grammar).grammar.start = start :=
    Grammar.start_ofProductions start ps
  have hgrammar : g = _ := grammar_afterAll initial.grammar hes
  have hopening := Kept.opening (Grammar.tidy_ofProductions start ps)
  obtain ⟨hkept, hstart, hkey⟩ := hopening.run ((Progress.opening initial.grammar).recordAll es)
  rw [← hgrammar, hname] at hstart hkey
  refine ⟨?_, hstart, hkey⟩
  rw [hgrammar]
  exact hkept.tidy

/-- Where no production is added the letters of the pool stay unused, whatever the closure. -/
theorem supplied_afterAll (start : Symbol) (ps : List Production) (hes : ∀ e ∈ es, ¬e.IsManual)
    (hadd : ∀ e ∈ es, ∀ lhs rhs, e ≠ .add lhs rhs) :
    (afterAll { grammar := Grammar.ofProductions start ps } es).grammar.Supplied := by
  have hopening := Sound.opening (Grammar.tidy_ofProductions start ps)
    (Grammar.supplied_ofProductions start ps)
  rw [grammar_afterAll _ hes]
  exact (hopening.run (Progress.isInternal_of_mem_recordAll hadd)).supplied

/-- Terminals stay terminals, and what was a nonterminal at any time is used as a nonterminal only. -/
theorem kinds_afterAll {start : Symbol} {ps : List Production}
    (hps : ∀ p ∈ ps, p.1 ≠ Symbol.marker)
    (hes : AdmitsAll { grammar := Grammar.ofProductions start ps } es) :
    let initial : Workspace := { grammar := Grammar.ofProductions start ps }
    let g := (initial.afterAll es).grammar
    (∀ s, (∃ p ∈ ps, s ∈ p.2) ∨ s = start → (∀ p ∈ ps, p.1 ≠ s) → s ∉ g.vocabulary) ∧
    ∀ earlier later, es = earlier ++ later →
      ∀ s ∈ (initial.afterAll earlier).grammar.vocabulary, g.Uses s → s ∈ g.vocabulary := by
  intro initial g
  have hopening := Progress.leadsTo_opening initial.grammar
  obtain ⟨moves, hmoves⟩ := hopening.exists_moves_recordAll hes
  obtain ⟨ever, hcoined, _, hseen⟩ := (@Coined.of_ofProductions start ps hps).opening.run moves
  have hgrammar : g = ((Progress.opening initial.grammar).run moves).grammar := by
    rw [← Progress.runActions_map_move, ← hmoves]
    exact grammar_afterAll _ hes.not_isManual
  rw [hgrammar]
  constructor
  · intro s hused hright hs
    exact (hcoined.fixed s ⟨hused, hright⟩).1 (hcoined.current s hs)
  · rintro earlier later rfl s hs huses
    -- what was done by then is recorded as the first of the moves
    rw [Progress.recordAll_append] at hmoves
    obtain ⟨done, rest, hsplit, hdone, _⟩ := List.map_eq_append_iff.mp hmoves.symm
    have hmanual := fun e he => hes.not_isManual e (List.mem_append_left later he)
    rw [grammar_afterAll _ hmanual, ← hdone, Progress.runActions_map_move] at hs
    exact hcoined.uses s huses (hseen done rest hsplit s hs)

/-- The stages in another order than that of a conversion. -/
example :
    AdmitsAll
      { grammar := Grammar.ofProductions ⟨'S'⟩ [(⟨'S'⟩, [⟨'a'⟩, ⟨'A'⟩, ⟨'b'⟩]), (⟨'A'⟩, [⟨'S'⟩])] }
      [.liftTerminals, .draw, .computeClosure, .eliminateUnits, .prune, .binarize,
        .completeStart .everyMember, .dropEmpty] := by
  decide +kernel

end Workspace

end ChomskyForm
