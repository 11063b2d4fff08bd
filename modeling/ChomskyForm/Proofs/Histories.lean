import ChomskyForm.Proofs.Conversion.Distinct
import ChomskyForm.Proofs.Kinds

/-!
# Histories in which anything may happen

A production may be added at any time, whatever its symbols, and unit productions may be eliminated by
a closure that is out of date.  Letters of the pool can occur in the grammar then, but its table stays
tidy: left sides are nonterminals, no alternative is repeated, and a start symbol that was a left side
once remains one (`tidy_of_actions`).  Where no production is added the letters of the pool stay unused
(`Sound.run`).
-/

namespace ChomskyForm

/-! ### Actions -/

/-- A piece of work on a grammar, or an intervention from outside. -/
inductive Action where
  | move (m : Move)
  /-- With one of the closures computed so far, which are numbered from zero. -/
  | eliminateUnitsBy (closure : Nat)
  | add (lhs : Symbol) (rhs : RightSide)
deriving DecidableEq

namespace Progress

/-- Carries out an action, if it is possible. -/
def act (p : Progress) : Action → Option Progress
  | .move m => p.perform m
  | .eliminateUnitsBy n => do
    let D ← p.closures[n]?
    (p.grammar.eliminateUnits D).toOption.map fun g => { p with grammar := g }
  | .add lhs rhs => some { p with grammar := p.grammar.add lhs rhs }

/-- An action that is not possible changes nothing. -/
def afterAction (p : Progress) (a : Action) : Progress := (p.act a).getD p

def runActions (p : Progress) (actions : List Action) : Progress := actions.foldl afterAction p

theorem runActions_append (p : Progress) (as bs : List Action) :
    p.runActions (as ++ bs) = (p.runActions as).runActions bs := List.foldl_append

/-- What every possible action keeps is true after all actions. -/
theorem runActions_induction {P : Progress → Prop} {Q : Action → Prop}
    (step : ∀ p a q, Q a → P p → p.act a = some q → P q) {p : Progress} (hp : P p)
    {actions : List Action} (hactions : ∀ a ∈ actions, Q a) : P (p.runActions actions) := by
  induction actions generalizing p with
  | nil => exact hp
  | cons a actions ih =>
    obtain ⟨ha, hrest⟩ := List.forall_mem_cons.mp hactions
    refine ih ?_ hrest
    rw [afterAction]
    cases hq : p.act a with
    | none => exact hp
    | some q => exact step p a q ha hp hq

end Progress

/-! ### Tidy grammars -/

namespace Grammar

structure Tidy (g : Grammar) : Prop where
  keys : ∀ s ∈ g.rules, s ∈ g.vocabulary
  distinct : g.rules.Distinct
  start : g.start ∈ g.vocabulary → g.start ∈ g.rules
  start_not_mem_pool : g.start ∉ g.pool.letters

/-- The grammar `g'` is a tidy successor of `g`. -/
structure Tidies (g g' : Grammar) : Prop where
  start : g'.start = g.start
  pool : ∀ s ∈ g'.pool.letters, s ∈ g.pool.letters
  keys : ∀ s ∈ g'.rules, s ∈ g'.vocabulary
  distinct : g'.rules.Distinct
  start_mem : g.start ∈ g.rules → g.start ∈ g'.rules
  start_new : g.start ∈ g'.vocabulary → g.start ∈ g.vocabulary ∨ g.start ∈ g'.rules

variable {g g' : Grammar}

theorem Tidies.tidy (h : Tidies g g') (hg : g.Tidy) : g'.Tidy where
  keys := h.keys
  distinct := h.distinct
  start hs := by
    rw [h.start] at hs ⊢
    exact (h.start_new hs).elim (fun hold => h.start_mem (hg.start hold)) id
  start_not_mem_pool hs := by
    rw [h.start] at hs
    exact hg.start_not_mem_pool (h.pool _ hs)

theorem tidies_refl (hg : g.Tidy) : Tidies g g :=
  ⟨rfl, fun _ => id, hg.keys, hg.distinct, id, Or.inl⟩

/-- What is made from a tidy grammar is tidy if it is without repetitions. -/
theorem Tidy.tidies_of_madeFrom {drawn : List Symbol} (hg : g.Tidy) (h : MadeFrom g drawn g')
    (hdistinct : g'.rules.Distinct) (hstart : g.start ∈ g.rules → g'.start ∈ g'.rules) :
    Tidies g g' where
  start := h.start
  pool s hs := by
    rw [h.pool]
    exact List.mem_append_right _ hs
  keys := h.keys
  distinct := hdistinct
  start_mem hs := by
    rw [← h.start]
    exact hstart hs
  start_new hs := by
    refine Or.inl ((h.vocabulary _ hs).resolve_right fun hdrawn => hg.start_not_mem_pool ?_)
    rw [h.pool]
    exact List.mem_append_left _ hdrawn

theorem tidies_add (hg : g.Tidy) (lhs : Symbol) (rhs : RightSide) : Tidies g (g.add lhs rhs) where
  start := rfl
  pool _ := id
  keys s hs := by
    rw [mem_rules_add] at hs
    rw [mem_vocabulary_add]
    exact hs.imp_left (hg.keys s)
  distinct := hg.distinct.add lhs rhs
  start_mem hs := mem_rules_add.mpr (Or.inl hs)
  start_new hs := by
    rw [mem_rules_add]
    exact (mem_vocabulary_add.mp hs).imp_right Or.inr

theorem tidies_draw {letter : Symbol} (hg : g.Tidy) (h : g.draw = some (letter, g')) :
    Tidies g g' := by
  have hdrew := drew_of_draw h
  refine hg.tidies_of_madeFrom (hdrew.madeFrom hg.keys) ?_ ?_
  · rw [hdrew.rules]
    exact hg.distinct
  · rw [hdrew.rules, hdrew.start]
    exact id

theorem tidies_binarize (hg : g.Tidy) (h : g.binarize.outcome = .ok g') : Tidies g g' := by
  obtain ⟨cuts, hcut⟩ := binarize_cut h
  exact hg.tidies_of_madeFrom (hcut.madeFrom hg.keys) (distinct_binarize h) hcut.start_mem

theorem tidies_dropEmpty (hg : g.Tidy) : Tidies g g.dropEmpty := by
  refine hg.tidies_of_madeFrom (madeFrom_dropEmpty hg.keys) (distinct_dropEmpty hg.distinct) ?_
  rw [start_dropEmpty]
  exact start_mem_dropEmpty

/-- With any closure, as the symbols that it brings in are on right sides only. -/
theorem tidies_eliminateUnits (hg : g.Tidy) {D : UnitClosure} (h : g.eliminateUnits D = .ok g') :
    Tidies g g' := by
  have hex := expanded_of_eliminateUnits hg.keys h
  refine ⟨hex.start, ?_, ?_, distinct_eliminateUnits hg.distinct h, ?_, ?_⟩
  · rw [hex.pool]
    exact fun _ => id
  · intro s hs
    rw [hex.vocabulary]
    exact hg.keys s (mem_rules_dropUnits.mp ((hex.keys s).mp hs)).1
  · intro hs
    rw [hex.keys]
    exact mem_rules_dropUnits.mpr ⟨hs, Or.inr rfl⟩
  · rw [hex.vocabulary]
    exact Or.inl

theorem tidies_completeStart (hg : g.Tidy) (hexp : g.start ∈ g.vocabulary) {D : UnitClosure}
    {mode : ClosureCopy} (h : (g.completeStart D mode).outcome = .ok g') : Tidies g g' := by
  obtain ⟨_, _, hcompleted⟩ := completeStart_completed hexp h
  exact hg.tidies_of_madeFrom (hcompleted.madeFrom hg.keys hexp)
    (distinct_completeStart hg.distinct h) fun _ => hcompleted.start_mem

theorem tidies_prune (hg : g.Tidy) : Tidies g g.prune :=
  hg.tidies_of_madeFrom (madeFrom_prune hg.keys) (distinct_prune hg.distinct) start_mem_prune

/-! Terminals are lifted in whatever grammar: a symbol that is a letter of the pool as well may become
a nonterminal on the way. -/

/-- The keys `ks` are copied so far, and letters were drawn. -/
structure Recopied (g : Grammar) (ks : List Symbol) (cur : Grammar) : Prop where
  start : cur.start = g.start
  pool : ∀ s ∈ cur.pool.letters, s ∈ g.pool.letters
  old : ∀ s ∈ g.vocabulary, s ∈ cur.vocabulary
  new : ∀ s ∈ cur.vocabulary, s ∈ g.vocabulary ∨ s ∈ g.pool.letters
  keys : ∀ s, s ∈ cur.rules ↔ s ∈ ks

theorem Recopied.withKey {cur : Grammar} {ks : List Symbol} (h : Recopied g ks cur) (lhs : Symbol) :
    Recopied g (ks ++ [lhs]) { cur with rules := cur.rules.withKey lhs } where
  start := h.start
  pool := h.pool
  old := h.old
  new := h.new
  keys s := by rw [RuleTable.mem_withKey, h.keys, List.mem_append, List.mem_singleton]

theorem Recopied.of_drew {cur next : Grammar} {ks ls : List Symbol} (h : Recopied g ks cur)
    (hdrew : cur.Drew ls next) : Recopied g ks next where
  start := hdrew.start.trans h.start
  pool s hs := by
    refine h.pool s ?_
    rw [hdrew.pool]
    exact List.mem_append_right _ hs
  old s hs := hdrew.mem_vocabulary.mpr (Or.inl (h.old s hs))
  new s hs := by
    rcases hdrew.mem_vocabulary.mp hs with hs | hs
    · exact h.new s hs
    · refine Or.inr (h.pool s ?_)
      rw [hdrew.pool]
      exact List.mem_append_left _ hs
  keys s := by rw [hdrew.rules, h.keys]

theorem Recopied.add {cur : Grammar} {ks : List Symbol} {lhs : Symbol} (h : Recopied g ks cur)
    (hlhs : lhs ∈ g.vocabulary) (hks : lhs ∈ ks) (rhs : RightSide) :
    Recopied g ks (cur.add lhs rhs) where
  start := h.start
  pool := h.pool
  old s hs := mem_vocabulary_add.mpr (Or.inl (h.old s hs))
  new s hs := by
    rcases mem_vocabulary_add.mp hs with hs | hs
    · exact h.new s hs
    · rw [hs]
      exact Or.inl hlhs
  keys s := by
    rw [mem_rules_add, h.keys]
    refine or_iff_left_of_imp fun hs => ?_
    rw [hs]
    exact hks

theorem tidies_liftTerminals (hg : g.Tidy) (h : g.liftTerminals.outcome = .ok g') :
    Tidies g g' := by
  have hdistinct := distinct_liftTerminals h
  obtain ⟨⟨copied, σ⟩, hfold, hpure⟩ := Noted.outcome_bind_eq_ok_iff.mp h
  obtain ⟨added, rfl⟩ : ∃ added, g' = copied.addAll added := by
    cases hpure
    exact ⟨_, rfl⟩
  have hcopied : Recopied g g.rules.keys copied := by
    refine Noted.rebuild_induction
      (fun lhs (state : Grammar × StandIns) =>
        ({ state.1 with rules := state.1.rules.withKey lhs }, state.2))
      (fun lhs state rhs => Grammar.addLifted lhs state rhs)
      (P := fun ks _ state => Recopied g ks state.1) ?_ ?_ ?_ hfold
    · intro ks _ state lhs hstate
      exact hstate.withKey lhs
    · intro ks _ state state' lhs rhs hp hstate hlhs hcopy
      obtain ⟨ls, next, rhs', hdrew, hstate'⟩ := drew_of_addLifted hcopy
      rw [hstate']
      have hkey := hg.keys lhs (mem_of_mem_alternatives (mem_productions_iff.mp hp))
      exact (hstate.of_drew hdrew).add hkey hlhs rhs'
    · exact ⟨rfl, fun _ => id, fun _ => id, fun _ => Or.inl, fun _ => Iff.rfl⟩
  refine ⟨?_, ?_, ?_, hdistinct, ?_, ?_⟩
  · rw [start_addAll, hcopied.start]
  · rw [pool_addAll]
    exact hcopied.pool
  · intro s hs
    rw [mem_rules_addAll, hcopied.keys, OrderedMap.mem_keys] at hs
    rw [mem_vocabulary_addAll]
    exact hs.imp_left fun hold => hcopied.old s (hg.keys s hold)
  · intro hs
    rw [mem_rules_addAll, hcopied.keys, OrderedMap.mem_keys]
    exact Or.inl hs
  · intro hs
    rw [mem_rules_addAll]
    rcases mem_vocabulary_addAll.mp hs with hs | hs
    · exact Or.inl ((hcopied.new _ hs).resolve_right hg.start_not_mem_pool)
    · exact Or.inr (Or.inr hs)

theorem tidy_ofProductions (start : Symbol) (ps : List Production) :
    (ofProductions start ps).Tidy where
  keys := (supplied_ofProductions start ps).keys
  distinct := distinct_ofProductions start ps
  start hs := mem_rules_ofProductions.mpr (mem_vocabulary_ofProductions.mp hs)
  start_not_mem_pool hs := ((supplied_ofProductions start ps).fresh _ hs).2.1 rfl

end Grammar

/-! ### Whole histories -/

/-- A tidy successor, which has no closures but those computed before or just now. -/
structure Progress.Follows (p q : Progress) : Prop where
  tidies : p.grammar.Tidies q.grammar
  closures : ∀ D ∈ q.closures, D ∈ p.closures ∨ D = p.grammar.unitClosure

/-- The grammar is tidy, and the start symbol is a left side if a closure has it. -/
structure Kept (p : Progress) : Prop where
  tidy : p.grammar.Tidy
  closures : ∀ D ∈ p.closures, p.grammar.start ∈ D → p.grammar.start ∈ p.grammar.rules

namespace Kept

variable {p q : Progress}

theorem follows_of_perform (h : Kept p) {m : Move} (hq : p.perform m = some q) : p.Follows q := by
  have hclosures : ∀ D ∈ p.closures ++ [p.grammar.unitClosure],
      D ∈ p.closures ∨ D = p.grammar.unitClosure := by
    intro D hD
    exact (List.mem_append.mp hD).imp_right List.mem_singleton.mp
  cases m with
  | draw =>
    obtain ⟨⟨letter, g⟩, hdraw, hq⟩ := Option.map_eq_some_iff.mp hq
    rw [← hq]
    exact ⟨Grammar.tidies_draw h.tidy hdraw, fun _ => Or.inl⟩
  | computeClosure =>
    cases hq
    exact ⟨Grammar.tidies_refl h.tidy, hclosures⟩
  | binarize =>
    obtain ⟨g, hg, hq⟩ := Option.map_eq_some_iff.mp hq
    rw [← hq]
    exact ⟨Grammar.tidies_binarize h.tidy (eq_ok_of_toOption_eq_some hg), fun _ => Or.inl⟩
  | dropEmpty =>
    cases hq
    exact ⟨Grammar.tidies_dropEmpty h.tidy, fun _ => Or.inl⟩
  | eliminateUnits =>
    obtain ⟨g, hg, hq⟩ := Option.map_eq_some_iff.mp hq
    rw [← hq]
    exact ⟨Grammar.tidies_eliminateUnits h.tidy (eq_ok_of_toOption_eq_some hg), hclosures⟩
  | completeStart n mode =>
    obtain ⟨D, hD, hq⟩ := Option.bind_eq_some_iff.mp hq
    obtain ⟨g, hg, hq⟩ := Option.map_eq_some_iff.mp hq
    rw [← hq]
    have hok := eq_ok_of_toOption_eq_some hg
    -- the closure may be old, but the start symbol is in it only if it is a left side by now
    have hstart := h.closures D (List.mem_of_getElem? hD) (Grammar.start_mem_of_completeStart hok)
    exact ⟨Grammar.tidies_completeStart h.tidy (h.tidy.keys _ hstart) hok, fun _ => Or.inl⟩
  | liftTerminals =>
    obtain ⟨g, hg, hq⟩ := Option.map_eq_some_iff.mp hq
    rw [← hq]
    exact ⟨Grammar.tidies_liftTerminals h.tidy (eq_ok_of_toOption_eq_some hg), fun _ => Or.inl⟩
  | prune =>
    cases hq
    exact ⟨Grammar.tidies_prune h.tidy, fun _ => Or.inl⟩

theorem follows_of_act (h : Kept p) {a : Action} (hq : p.act a = some q) : p.Follows q := by
  cases a with
  | move m => exact h.follows_of_perform hq
  | eliminateUnitsBy n =>
    obtain ⟨D, _, hq⟩ := Option.bind_eq_some_iff.mp hq
    obtain ⟨g, hg, hq⟩ := Option.map_eq_some_iff.mp hq
    rw [← hq]
    exact ⟨Grammar.tidies_eliminateUnits h.tidy (eq_ok_of_toOption_eq_some hg), fun _ => Or.inl⟩
  | add lhs rhs =>
    cases hq
    exact ⟨Grammar.tidies_add h.tidy lhs rhs, fun _ => Or.inl⟩

theorem of_follows (h : Kept p) (hpq : p.Follows q) : Kept q := by
  refine ⟨hpq.tidies.tidy h.tidy, fun D hD hs => ?_⟩
  rw [hpq.tidies.start] at hs ⊢
  refine hpq.tidies.start_mem ?_
  rcases hpq.closures D hD with hold | hnew
  · exact h.closures D hold hs
  · rw [hnew, Grammar.mem_unitClosure_iff] at hs
    exact h.tidy.start hs

/-- The start symbol stays as it is, and a left side if it is one. -/
theorem run (h : Kept p) (actions : List Action) :
    Kept (p.runActions actions) ∧ (p.runActions actions).grammar.start = p.grammar.start ∧
      (p.grammar.start ∈ p.grammar.rules →
        p.grammar.start ∈ (p.runActions actions).grammar.rules) := by
  refine Progress.runActions_induction
    (P := fun q => Kept q ∧ q.grammar.start = p.grammar.start ∧
      (p.grammar.start ∈ p.grammar.rules → p.grammar.start ∈ q.grammar.rules))
    (Q := fun _ => True) ?_ ⟨h, rfl, id⟩ fun _ _ => trivial
  rintro q a r _ ⟨hq, hstart, hkey⟩ hr
  have hnext := hq.follows_of_act hr
  have hmem := hnext.tidies.start_mem
  rw [hstart] at hmem
  exact ⟨hq.of_follows hnext, hnext.tidies.start.trans hstart, fun hs => hmem (hkey hs)⟩

theorem of_ofProductions (start : Symbol) (ps : List Production) :
    Kept { grammar := Grammar.ofProductions start ps } :=
  ⟨Grammar.tidy_ofProductions start ps, fun _ hD => absurd hD List.not_mem_nil⟩

end Kept

/-- After any actions the left sides are nonterminals, no alternative is repeated, and the start symbol
is a left side if it is a nonterminal, or if it was a left side at any time before. -/
theorem tidy_of_actions (start : Symbol) (ps : List Production) (actions : List Action) :
    let initial : Progress := { grammar := Grammar.ofProductions start ps }
    let g := (initial.runActions actions).grammar
    (∀ s ∈ g.rules, s ∈ g.vocabulary) ∧
    (∀ s, (g.alternatives s).Nodup) ∧
    (g.start = start ∧ (start ∈ g.vocabulary → start ∈ g.rules)) ∧
    ∀ earlier later, actions = earlier ++ later →
      start ∈ (initial.runActions earlier).grammar.rules → start ∈ g.rules := by
  intro initial g
  have hinitial : Kept initial := Kept.of_ofProductions start ps
  have hname : initial.grammar.start = start := Grammar.start_ofProductions start ps
  obtain ⟨hkept, hstart, _⟩ := hinitial.run actions
  rw [hname] at hstart
  refine ⟨hkept.tidy.keys, hkept.tidy.distinct, ⟨hstart, fun hs => ?_⟩, ?_⟩
  · rw [← hstart] at hs ⊢
    exact hkept.tidy.start hs
  · intro earlier later hactions hs
    obtain ⟨hmid, hstart', _⟩ := hinitial.run earlier
    obtain ⟨_, _, hkey⟩ := hmid.run later
    rw [hstart', hname, ← Progress.runActions_append, ← hactions] at hkey
    exact hkey hs

/-! The letters `B` and `C` are used before they are drawn.  After that the first closure is too old to
eliminate unit productions by it, but `S`, which loses its only production, is completed by it. -/

def meddledProductions : List Production :=
  [(⟨'S'⟩, [⟨'A'⟩]), (⟨'A'⟩, [⟨'a'⟩, ⟨'A'⟩, ⟨'b'⟩]), (⟨'A'⟩, [⟨'c'⟩])]

def meddledActions : List Action :=
  [.move .computeClosure, .add ⟨'B'⟩ [⟨'S'⟩, ⟨'C'⟩], .add ⟨'B'⟩ [⟨'S'⟩, ⟨'C'⟩], .move .draw,
    .move .binarize, .eliminateUnitsBy 0, .move .computeClosure, .eliminateUnitsBy 1,
    .move (.completeStart 0 .everyMember), .move .liftTerminals, .move .prune]

theorem tidy_of_actions_meddled :
    let initial : Progress := { grammar := Grammar.ofProductions ⟨'S'⟩ meddledProductions }
    let g := (initial.runActions meddledActions).grammar
    ⟨'S'⟩ ∈ initial.grammar.rules ∧ ⟨'S'⟩ ∈ g.rules ∧ ⟨'S'⟩ ∈ g.vocabulary ∧
      (g.alternatives ⟨'S'⟩).Nodup := by
  intro initial g
  have hinitial : ⟨'S'⟩ ∈ (initial.runActions []).grammar.rules := by decide +kernel
  obtain ⟨hkeys, hdistinct, _, hkept⟩ := @tidy_of_actions ⟨'S'⟩ meddledProductions meddledActions
  have hkey := hkept [] meddledActions rfl hinitial
  exact ⟨hinitial, hkey, hkeys _ hkey, hdistinct _⟩

/-! ### Histories without additions -/

namespace Grammar

variable {g g' : Grammar}

/-- The closure leads to no letter of the pool. -/
def Avoids (g : Grammar) (D : UnitClosure) : Prop :=
  ∀ s members, D.get? s = some members → ∀ t ∈ members, t ∉ g.pool.letters

theorem avoids_unitClosure (hg : g.Supplied) : g.Avoids g.unitClosure := by
  intro s members hget t ht hpool
  obtain ⟨hs, rfl⟩ := get?_unitClosure_eq_some_iff.mp hget
  have hstands : g.StandsFor s t := by
    rw [StandsFor, if_pos hs]
    exact ht
  exact (hg.fresh t hpool).1 (hstands.mem_iff.mpr hs)

theorem Avoids.of_pool {D : UnitClosure} (h : g.Avoids D)
    (hpool : ∀ s ∈ g'.pool.letters, s ∈ g.pool.letters) : g'.Avoids D :=
  fun s members hget t ht hs => h s members hget t ht (hpool t hs)

theorem Avoids.of_substitutes {D : UnitClosure} (h : g.Avoids D) {s t : Symbol} {ts : List Symbol}
    (hts : g.substitutes D s = .ok ts) (ht : t ∈ ts) (hs : s ∉ g.pool.letters) :
    t ∉ g.pool.letters := by
  rw [substitutes] at hts
  split at hts
  · cases hget : D.get? s with
    | none =>
      rw [hget] at hts
      cases hts
    | some members =>
      rw [hget] at hts
      cases hts
      exact h s members hget t ht
  · cases hts
    rw [List.mem_singleton.mp ht]
    exact hs

/-- With any closure that avoids the pool, as old as it may be. -/
theorem supplied_eliminateUnits (hg : g.Supplied) {D : UnitClosure} (hD : g.Avoids D)
    (h : g.eliminateUnits D = .ok g') : g'.Supplied := by
  have hex := expanded_of_eliminateUnits hg.keys h
  refine ⟨fun s hs => ?_, fun s hs => ?_⟩
  · rw [hex.vocabulary]
    exact hg.keys s (mem_rules_dropUnits.mp ((hex.keys s).mp hs)).1
  · rw [hex.pool] at hs
    obtain ⟨hexp, hne, hunused⟩ := hg.fresh s hs
    rw [hex.vocabulary, hex.start]
    refine ⟨hexp, hne, ?_⟩
    rintro ⟨lhs, rhs, hrhs, hmem⟩
    rcases (hex.alternatives lhs rhs).mp hrhs with
      hold | ⟨whole, hwhole, left, right, lefts, rights, rfl, hl, hr, hpair⟩
    · exact hunused (uses_of_mem (mem_alternatives_dropUnits.mp hold).1 hmem)
    · have hold := (mem_alternatives_dropUnits.mp (mem_productions_iff.mp hwhole)).1
      have hside : ∀ t ∈ [left, right], t ∉ g.pool.letters := fun t ht hpool =>
        (hg.fresh t hpool).2.2 (uses_of_mem hold ht)
      obtain ⟨l, hlmem, r, hrmem, rfl⟩ := RightSide.mem_pairs.mp hpair
      rcases List.mem_cons.mp hmem with heq | hmem
      · rw [heq] at hs
        exact hD.of_substitutes hl hlmem (hside left (List.mem_cons_self ..)) hs
      · rw [List.mem_singleton.mp hmem] at hs
        exact hD.of_substitutes hr hrmem
          (hside right (List.mem_cons_of_mem _ (List.mem_cons_self ..))) hs

end Grammar

/-- Nothing comes from outside. -/
def Action.IsInternal : Action → Prop
  | .move _ | .eliminateUnitsBy _ => True
  | .add _ _ => False

instance : DecidablePred Action.IsInternal
  | .move _ | .eliminateUnitsBy _ => .isTrue trivial
  | .add _ _ => .isFalse id

/-- The letters of the pool occur neither in the grammar nor in a closure. -/
structure Sound (p : Progress) : Prop extends Kept p where
  supplied : p.grammar.Supplied
  avoids : ∀ D ∈ p.closures, p.grammar.Avoids D

namespace Sound

variable {p q : Progress}

/-- All stages but one bring in nothing but letters that they draw. -/
theorem supplied_of_perform (h : Sound p) {m : Move} (hq : p.perform m = some q) :
    q.grammar.Supplied := by
  have hkeys := h.tidy.keys
  cases m with
  | draw =>
    obtain ⟨⟨letter, g⟩, hdraw, hq⟩ := Option.map_eq_some_iff.mp hq
    rw [← hq]
    exact h.supplied.of_madeFrom ((Grammar.drew_of_draw hdraw).madeFrom hkeys)
  | computeClosure =>
    cases hq
    exact h.supplied
  | binarize =>
    obtain ⟨g, hg, hq⟩ := Option.map_eq_some_iff.mp hq
    obtain ⟨cuts, hcut⟩ := Grammar.binarize_cut (eq_ok_of_toOption_eq_some hg)
    rw [← hq]
    exact h.supplied.of_madeFrom (hcut.madeFrom hkeys)
  | dropEmpty =>
    cases hq
    exact h.supplied.of_madeFrom (Grammar.madeFrom_dropEmpty hkeys)
  | eliminateUnits =>
    obtain ⟨g, hg, hq⟩ := Option.map_eq_some_iff.mp hq
    rw [← hq]
    exact Grammar.supplied_eliminateUnits h.supplied (Grammar.avoids_unitClosure h.supplied)
      (eq_ok_of_toOption_eq_some hg)
  | completeStart n mode =>
    obtain ⟨D, hD, hq⟩ := Option.bind_eq_some_iff.mp hq
    obtain ⟨g, hg, hq⟩ := Option.map_eq_some_iff.mp hq
    have hok := eq_ok_of_toOption_eq_some hg
    have hexp := hkeys _
      (h.closures D (List.mem_of_getElem? hD) (Grammar.start_mem_of_completeStart hok))
    obtain ⟨_, _, hcompleted⟩ := Grammar.completeStart_completed hexp hok
    rw [← hq]
    exact h.supplied.of_madeFrom (hcompleted.madeFrom hkeys hexp)
  | liftTerminals =>
    obtain ⟨g, hg, hq⟩ := Option.map_eq_some_iff.mp hq
    obtain ⟨σ, hstood⟩ :=
      Grammar.stoodIn_of_liftTerminals h.supplied (eq_ok_of_toOption_eq_some hg)
    rw [← hq]
    exact h.supplied.of_madeFrom (hstood.madeFrom hkeys)
  | prune =>
    cases hq
    exact h.supplied.of_madeFrom (Grammar.madeFrom_prune hkeys)

theorem act (h : Sound p) {a : Action} (ha : a.IsInternal) (hq : p.act a = some q) : Sound q := by
  have hfollows := h.toKept.follows_of_act hq
  have hsupplied : q.grammar.Supplied := by
    cases a with
    | move m => exact h.supplied_of_perform hq
    | eliminateUnitsBy n =>
      obtain ⟨D, hD, hq⟩ := Option.bind_eq_some_iff.mp hq
      obtain ⟨g, hg, hq⟩ := Option.map_eq_some_iff.mp hq
      rw [← hq]
      exact Grammar.supplied_eliminateUnits h.supplied (h.avoids D (List.mem_of_getElem? hD))
        (eq_ok_of_toOption_eq_some hg)
    | add lhs rhs => exact ha.elim
  refine ⟨h.toKept.of_follows hfollows, hsupplied, fun D hD => ?_⟩
  refine Grammar.Avoids.of_pool ?_ hfollows.tidies.pool
  rcases hfollows.closures D hD with hold | hnew
  · exact h.avoids D hold
  · rw [hnew]
    exact Grammar.avoids_unitClosure h.supplied

theorem run (h : Sound p) {actions : List Action} (hactions : ∀ a ∈ actions, a.IsInternal) :
    Sound (p.runActions actions) :=
  Progress.runActions_induction (P := Sound) (fun _ _ _ ha hp hq => hp.act ha hq) h hactions

theorem of_ofProductions (start : Symbol) (ps : List Production) :
    Sound { grammar := Grammar.ofProductions start ps } :=
  ⟨Kept.of_ofProductions start ps, Grammar.supplied_ofProductions start ps,
    fun _ hD => absurd hD List.not_mem_nil⟩

end Sound

end ChomskyForm
