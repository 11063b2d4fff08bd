import ChomskyForm.NormalForm.Lifted
import ChomskyForm.Proofs.Coherence
import ChomskyForm.Proofs.Outcome
import ChomskyForm.Proofs.Rebuild
import ChomskyForm.Proofs.Simulation

/-!
# Stand-ins for terminals

A pair keeps its nonterminals and has stand-ins for its terminals (`lifted`).  A stand-in is a letter
of the pool and derives its terminal alone (`StoodIn`), so the old symbols keep their words
(`StoodIn.generates_iff`).
-/

namespace ChomskyForm

/-- The table `σ'` has all the stand-ins of `σ`. -/
def StandIns.Extends (σ σ' : StandIns) : Prop := ∀ s t, σ.get? s = some t → σ'.get? s = some t

theorem StandIns.extends_insert {σ : StandIns} {s : Symbol} (hs : s ∉ σ) (t : Symbol) :
    StandIns.Extends σ (σ.insert s t) := by
  intro s' t' hget
  have hne : s' ≠ s := by
    intro heq
    rw [heq, OrderedMap.get?_eq_none_iff.mpr hs] at hget
    cases hget
  rw [OrderedMap.get?_insert_of_ne _ _ hne]
  exact hget

theorem StandIns.Extends.mem {σ σ' : StandIns} (h : StandIns.Extends σ σ') {s : Symbol}
    (hs : s ∈ σ) : s ∈ σ' := by
  obtain ⟨t, ht⟩ := OrderedMap.mem_iff_get?.mp hs
  exact OrderedMap.mem_iff_get?.mpr ⟨t, h s t ht⟩

namespace Grammar

variable {g cur g₅ : Grammar} {σ σ' : StandIns} {s t lhs : Symbol} {rhs : RightSide}

/-! ### Right sides with stand-ins -/

/-- The symbol to write for `s` in a pair. -/
def standIn (g : Grammar) (σ : StandIns) (s : Symbol) : Symbol :=
  if s ∈ g.vocabulary then s else (σ.get? s).getD s

theorem standIn_of_mem (hs : s ∈ g.vocabulary) : g.standIn σ s = s := if_pos hs

theorem standIn_of_get? (hs : s ∉ g.vocabulary) (ht : σ.get? s = some t) : g.standIn σ s = t := by
  rw [standIn, if_neg hs, ht, Option.getD_some]

/-- The right side to write for `rhs`. -/
def lifted (g : Grammar) (σ : StandIns) (rhs : RightSide) : RightSide :=
  if rhs.length = 2 then rhs.map (g.standIn σ) else rhs

theorem lifted_of_length_ne (h : rhs.length ≠ 2) : g.lifted σ rhs = rhs := if_neg h

theorem lifted_pair (l r : Symbol) : g.lifted σ [l, r] = [g.standIn σ l, g.standIn σ r] := rfl

theorem length_lifted : (g.lifted σ rhs).length = rhs.length := by
  by_cases h : rhs.length = 2
  · rw [lifted, if_pos h, List.length_map]
  · rw [lifted_of_length_ne h]

/-- Every terminal of a pair has its stand-in. -/
def Covered (g : Grammar) (σ : StandIns) (rhs : RightSide) : Prop :=
  rhs.length = 2 → ∀ s ∈ rhs, s ∈ g.vocabulary ∨ s ∈ σ

theorem covered_extends (h : g.Covered σ rhs) (hext : StandIns.Extends σ σ') :
    g.Covered σ' rhs := by
  intro hlen s hs
  exact (h hlen s hs).imp_right hext.mem

theorem standIn_extends (hext : StandIns.Extends σ σ') (hs : s ∈ g.vocabulary ∨ s ∈ σ) :
    g.standIn σ' s = g.standIn σ s := by
  by_cases hmem : s ∈ g.vocabulary
  · rw [standIn_of_mem hmem, standIn_of_mem hmem]
  · obtain ⟨t, ht⟩ := OrderedMap.mem_iff_get?.mp (hs.resolve_left hmem)
    rw [standIn_of_get? hmem ht, standIn_of_get? hmem (hext s t ht)]

theorem lifted_extends (h : g.Covered σ rhs) (hext : StandIns.Extends σ σ') :
    g.lifted σ' rhs = g.lifted σ rhs := by
  by_cases hlen : rhs.length = 2
  · rw [lifted, if_pos hlen, lifted, if_pos hlen]
    exact List.map_congr_left fun s hs => standIn_extends hext (h hlen s hs)
  · rw [lifted_of_length_ne hlen, lifted_of_length_ne hlen]

/-! ### Drawing stand-ins -/

/-- Some right side of two symbols has the symbol. -/
def UsesInPair (g : Grammar) (s : Symbol) : Prop :=
  ∃ lhs, ∃ rhs ∈ g.alternatives lhs, rhs.length = 2 ∧ s ∈ rhs

theorem UsesInPair.uses (h : g.UsesInPair s) : g.Uses s := by
  obtain ⟨lhs, rhs, hrhs, _, hs⟩ := h
  exact ⟨lhs, rhs, hrhs, hs⟩

/-- The stand-ins `σ` are letters that `cur` has and the pool of `g` had, each for a terminal of a
pair of `g`. -/
structure HasStandIns (g cur : Grammar) (σ : StandIns) : Prop where
  start : cur.start = g.start
  pool : g.pool.letters = σ.values ++ cur.pool.letters
  vocabulary : ∀ s, s ∈ cur.vocabulary ↔ s ∈ g.vocabulary ∨ s ∈ σ.values
  terminals : ∀ s ∈ σ, s ∉ g.vocabulary ∧ g.UsesInPair s

namespace HasStandIns

theorem mem_pool_of_mem_values (h : HasStandIns g cur σ) (hs : s ∈ σ.values) :
    s ∈ g.pool.letters := by
  rw [h.pool]
  exact List.mem_append_left _ hs

theorem congr {next : Grammar} (h : HasStandIns g cur σ) (hstart : next.start = cur.start)
    (hpool : next.pool = cur.pool) (hvocabulary : ∀ s, s ∈ next.vocabulary ↔ s ∈ cur.vocabulary) :
    HasStandIns g next σ where
  start := hstart.trans h.start
  pool := by rw [hpool, h.pool]
  vocabulary s := (hvocabulary s).trans (h.vocabulary s)
  terminals := h.terminals

theorem insert {next : Grammar} (h : HasStandIns g cur σ) (hs : s ∉ g.vocabulary)
    (hpair : g.UsesInPair s) (hσ : s ∉ σ) (hdrew : cur.Drew [t] next) :
    HasStandIns g next (σ.insert s t) := by
  have hvalues : (σ.insert s t).values = σ.values ++ [t] := by
    rw [OrderedMap.values, OrderedMap.entries_insert_of_not_mem hσ, List.map_append]
    rfl
  refine ⟨hdrew.start.trans h.start, ?_, ?_, ?_⟩
  · rw [hvalues, h.pool, hdrew.pool, List.append_assoc]
  · intro u
    rw [hvalues, hdrew.mem_vocabulary, h.vocabulary, List.mem_append, or_assoc]
  · intro u hu
    rcases OrderedMap.mem_insert.mp hu with hu | hu
    · exact h.terminals u hu
    · rw [hu]
      exact ⟨hs, hpair⟩

/-- A symbol of the grammar is a nonterminal now if it was one before. -/
theorem isNonterminal_iff (h : HasStandIns g cur σ) (hg : g.Supplied) (huses : g.Uses s) :
    cur.isNonterminal s = true ↔ s ∈ g.vocabulary := by
  rw [isNonterminal_eq_true_iff, h.vocabulary]
  refine or_iff_left fun hval => ?_
  exact (hg.fresh s (h.mem_pool_of_mem_values hval)).2.2 huses

/-- One symbol is written as its stand-in, which is drawn if need be. -/
theorem lift {next : Grammar} (h : HasStandIns g cur σ) (hg : g.Supplied) (hpair : g.UsesInPair s)
    (hlift : (Grammar.lift lhs s (cur, σ)).outcome = .ok (t, next, σ')) :
    HasStandIns g next σ' ∧ StandIns.Extends σ σ' ∧ next.rules = cur.rules ∧
      (s ∈ g.vocabulary ∨ s ∈ σ') ∧ t = g.standIn σ' s := by
  simp only [Grammar.lift] at hlift
  by_cases hs : s ∈ g.vocabulary
  · rw [if_pos ((h.isNonterminal_iff hg hpair.uses).mpr hs)] at hlift
    cases hlift
    exact ⟨h, fun _ _ => id, rfl, Or.inl hs, (standIn_of_mem hs).symm⟩
  · rw [if_neg (mt (h.isNonterminal_iff hg hpair.uses).mp hs)] at hlift
    cases hget : σ.get? s with
    | some u =>
      rw [hget] at hlift
      cases hlift
      exact ⟨h, fun _ _ => id, rfl, Or.inr (OrderedMap.mem_iff_get?.mpr ⟨_, hget⟩),
        (standIn_of_get? hs hget).symm⟩
    | none =>
      rw [hget] at hlift
      obtain ⟨⟨letter, g'⟩, hdraw, hpure⟩ := Noted.outcome_bind_eq_ok_iff.mp hlift
      cases hpure
      have hdrew := drew_of_drawFor hdraw
      have hσ : s ∉ σ := OrderedMap.get?_eq_none_iff.mp hget
      exact ⟨h.insert hs hpair hσ hdrew, StandIns.extends_insert hσ letter, hdrew.rules,
        Or.inr (OrderedMap.mem_insert.mpr (Or.inr rfl)),
        (standIn_of_get? hs (OrderedMap.get?_insert_self ..)).symm⟩

end HasStandIns

/-! ### What the stage does -/

/-- A production is copied with stand-ins for the terminals of a pair. -/
theorem HasStandIns.addLifted {state state' : Grammar × StandIns}
    (h : HasStandIns g state.1 state.2) (hg : g.Supplied) (hrhs : rhs ∈ g.alternatives lhs)
    (hadd : (Grammar.addLifted lhs state rhs).outcome = .ok state') :
    ∃ next, HasStandIns g next state'.2 ∧ StandIns.Extends state.2 state'.2 ∧
      next.rules = state.1.rules ∧ g.Covered state'.2 rhs ∧
      state'.1 = next.add lhs (g.lifted state'.2 rhs) := by
  have hother : ∀ rhs : RightSide, rhs.length ≠ 2 →
      (pure (state.1.add lhs rhs, state.2) : Noted ConversionError _).outcome = .ok state' →
      ∃ next, HasStandIns g next state'.2 ∧ StandIns.Extends state.2 state'.2 ∧
        next.rules = state.1.rules ∧ g.Covered state'.2 rhs ∧
        state'.1 = next.add lhs (g.lifted state'.2 rhs) := by
    intro rhs hlen hpure
    cases hpure
    refine ⟨state.1, h, fun _ _ => id, rfl, fun htwo => absurd htwo hlen, ?_⟩
    rw [lifted_of_length_ne hlen]
  match rhs with
  | [] | [_] | _ :: _ :: _ :: _ =>
    refine hother _ ?_ hadd
    simp only [List.length_cons, List.length_nil]
    omega
  | [l, r] =>
    obtain ⟨⟨l', state₁⟩, hleft, hnext⟩ := Noted.outcome_bind_eq_ok_iff.mp hadd
    obtain ⟨⟨r', state₂⟩, hright, hpure⟩ := Noted.outcome_bind_eq_ok_iff.mp hnext
    cases hpure
    have hl : g.UsesInPair l := ⟨lhs, _, hrhs, rfl, List.mem_cons_self ..⟩
    have hr : g.UsesInPair r :=
      ⟨lhs, _, hrhs, rfl, List.mem_cons_of_mem _ (List.mem_cons_self ..)⟩
    obtain ⟨h₁, hext₁, hrules₁, hcov₁, hl'⟩ := h.lift hg hl hleft
    obtain ⟨h₂, hext₂, hrules₂, hcov₂, hr'⟩ := h₁.lift hg hr hright
    have hcovered : g.Covered state₂.2 [l, r] := by
      intro _ s hs
      rcases List.mem_cons.mp hs with hs | hs
      · rw [hs]
        exact hcov₁.imp_right hext₂.mem
      · rw [List.mem_singleton.mp hs]
        exact hcov₂
    refine ⟨state₂.1, h₂, fun s t hst => hext₂ s t (hext₁ s t hst), hrules₂.trans hrules₁, hcovered,
      ?_⟩
    rw [lifted_pair, standIn_extends hext₂ hcov₁, ← hl', ← hr']

/-- The entries with stand-ins in their pairs. -/
def liftedEntries (g : Grammar) (σ : StandIns) (es : List (Symbol × List RightSide)) :
    List (Symbol × List RightSide) :=
  es.map fun e => (e.1, e.2.map (g.lifted σ))

theorem liftedEntries_concat (es : List (Symbol × List RightSide)) (copied : List RightSide) :
    g.liftedEntries σ (es ++ [(lhs, copied)]) =
      g.liftedEntries σ es ++ [(lhs, copied.map (g.lifted σ))] := by
  rw [liftedEntries, List.map_append]
  rfl

theorem liftedEntries_extends {es : List (Symbol × List RightSide)}
    (h : ∀ e ∈ es, ∀ rhs ∈ e.2, g.Covered σ rhs) (hext : StandIns.Extends σ σ') :
    g.liftedEntries σ' es = g.liftedEntries σ es := by
  refine List.map_congr_left fun e he => ?_
  rw [List.map_congr_left fun rhs hrhs => lifted_extends (h e he rhs hrhs) hext]

theorem map_fst_liftedEntries (es : List (Symbol × List RightSide)) :
    (g.liftedEntries σ es).map Prod.fst = es.map Prod.fst := by
  rw [liftedEntries, List.map_map]
  rfl

/-! The state of the work: the table so far, with a right side for each one of the entries seen. -/

structure Lifting (g : Grammar) (done : List (Symbol × List RightSide))
    (state : Grammar × StandIns) : Prop where
  standIns : HasStandIns g state.1 state.2
  covered : ∀ e ∈ done, ∀ rhs ∈ e.2, g.Covered state.2 rhs
  rules : state.1.rules = RuleTable.ofEntries (g.liftedEntries state.2 done)

theorem Lifting.withKey {done : List (Symbol × List RightSide)} {state : Grammar × StandIns}
    (h : Lifting g done state) (lhs : Symbol) :
    Lifting g (done ++ [(lhs, [])])
      ({ state.1 with rules := state.1.rules.withKey lhs }, state.2) where
  standIns := h.standIns.congr rfl rfl fun _ => Iff.rfl
  covered e he := by
    rcases List.mem_append.mp he with he | he
    · exact h.covered e he
    · rw [List.mem_singleton.mp he]
      exact fun _ hrhs => absurd hrhs List.not_mem_nil
  rules := by rw [liftedEntries_concat, List.map_nil, RuleTable.ofEntries_key, ← h.rules]

theorem Lifting.addLifted {done : List (Symbol × List RightSide)} {copied : List RightSide}
    {state state' : Grammar × StandIns} (h : Lifting g (done ++ [(lhs, copied)]) state)
    (hg : g.Supplied) (hrhs : rhs ∈ g.alternatives lhs)
    (hadd : (Grammar.addLifted lhs state rhs).outcome = .ok state') :
    Lifting g (done ++ [(lhs, copied ++ [rhs])]) state' := by
  obtain ⟨next, hnext, hext, hrules, hcovered, hstate⟩ := h.standIns.addLifted hg hrhs hadd
  have hold := liftedEntries_extends h.covered hext
  rw [liftedEntries_concat] at hold
  refine ⟨?_, ?_, ?_⟩
  · rw [hstate]
    refine hnext.congr rfl rfl fun s => ?_
    rw [mem_vocabulary_add]
    refine or_iff_left_of_imp fun hs => ?_
    rw [hs]
    exact (hnext.vocabulary lhs).mpr (Or.inl (hg.keys lhs (mem_of_mem_alternatives hrhs)))
  · intro e he
    rcases List.mem_append.mp he with he | he
    · exact fun r hr => covered_extends (h.covered e (List.mem_append_left _ he) r hr) hext
    · rw [List.mem_singleton.mp he]
      intro r hr
      rcases List.mem_append.mp hr with hr | hr
      · have hmem : (lhs, copied) ∈ done ++ [(lhs, copied)] :=
          List.mem_append_right _ (List.mem_singleton.mpr rfl)
        exact covered_extends (h.covered (lhs, copied) hmem r hr) hext
      · rw [List.mem_singleton.mp hr]
        exact hcovered
  · rw [liftedEntries_concat, List.map_append, List.map_singleton, RuleTable.ofEntries_alternative,
      hold, ← h.rules, hstate, ← hrules]
    rfl

/-- The entries of the stand-ins. -/
def standInEntries (σ : StandIns) : List (Symbol × List RightSide) :=
  σ.entries.map fun e => (e.2, [[e.1]])

theorem map_fst_standInEntries (σ : StandIns) : (standInEntries σ).map Prod.fst = σ.values := by
  rw [standInEntries, List.map_map]
  rfl

/-- The grammar `g₅` has the productions of `g`, with stand-ins in the pairs, and one production for
each stand-in. -/
structure StoodIn (g : Grammar) (σ : StandIns) (g₅ : Grammar) : Prop extends
    HasStandIns g g₅ σ where
  covered : ∀ s, ∀ rhs ∈ g.alternatives s, g.Covered σ rhs
  rules : g₅.rules =
    RuleTable.ofEntries (g.liftedEntries σ g.rules.entries ++ standInEntries σ)

theorem stoodIn_of_liftTerminals (hg : g.Supplied) (h : g.liftTerminals.outcome = .ok g₅) :
    ∃ σ, StoodIn g σ g₅ := by
  obtain ⟨⟨copied, σ⟩, hfold, hpure⟩ := Noted.outcome_bind_eq_ok_iff.mp h
  obtain ⟨added, hdef, rfl⟩ :
      ∃ added, added = σ.entries.map (fun e => (e.2, [e.1])) ∧ g₅ = copied.addAll added := by
    cases hpure
    exact ⟨_, rfl, rfl⟩
  obtain ⟨done, hdone, hlifting⟩ := Noted.rebuild_trace
    (fun lhs (state : Grammar × StandIns) =>
      ({ state.1 with rules := state.1.rules.withKey lhs }, state.2))
    (fun lhs state rhs => Grammar.addLifted lhs state rhs)
    id (P := Lifting g)
    (fun done state lhs hstate => hstate.withKey lhs)
    (fun done copied state state' lhs rhs hrule hstate hcopy =>
      ⟨rhs, rfl, hstate.addLifted hg (mem_productions_iff.mp hrule) hcopy⟩)
    ⟨⟨rfl, rfl, fun s => (or_iff_left List.not_mem_nil).symm, fun s hs => absurd hs List.not_mem_nil⟩,
      fun e he => absurd he List.not_mem_nil, rfl⟩
    hfold
  have hentries : done = g.rules.entries := by
    rw [← hdone]
    simp only [List.map_id, Prod.eta, List.map_id']
  subst hentries
  have hheads : added.map Prod.fst = σ.values := by
    rw [hdef, List.map_map]
    rfl
  have hadded : added.map (fun p => (p.1, [p.2])) = standInEntries σ := by
    rw [hdef, List.map_map]
    rfl
  refine ⟨σ, hlifting.standIns.congr (start_addAll ..) (pool_addAll ..) ?_, ?_, ?_⟩
  · intro s
    rw [mem_vocabulary_addAll, hheads]
    refine or_iff_left_of_imp fun hs => ?_
    exact (hlifting.standIns.vocabulary s).mpr (Or.inr hs)
  · intro s rhs hrhs
    obtain ⟨rhss, hget, hmem⟩ := RuleTable.mem_alternatives_iff.mp hrhs
    exact hlifting.covered (s, rhss) (OrderedMap.mem_entries_iff.mpr hget) rhs hmem
  · rw [rules_addAll, hlifting.rules, RuleTable.foldl_add_ofEntries, hadded]

namespace StoodIn

theorem keys (h : StoodIn g σ g₅) (s : Symbol) : s ∈ g₅.rules ↔ s ∈ g.rules ∨ s ∈ σ.values := by
  rw [h.rules, RuleTable.mem_ofEntries, List.map_append, List.mem_append, map_fst_liftedEntries,
    map_fst_standInEntries, ← OrderedMap.keys, OrderedMap.mem_keys]

theorem alternatives (h : StoodIn g σ g₅) (s : Symbol) (rhs : RightSide) :
    rhs ∈ g₅.alternatives s ↔
      (∃ whole ∈ g.alternatives s, rhs = g.lifted σ whole) ∨ ∃ t, σ.get? t = some s ∧ rhs = [t] := by
  rw [Grammar.alternatives, h.rules, RuleTable.mem_alternatives_ofEntries]
  simp only [List.mem_append, or_and_right, exists_or]
  refine or_congr ?_ ?_
  · simp only [Grammar.alternatives, RuleTable.mem_alternatives_iff, liftedEntries, List.mem_map]
    constructor
    · rintro ⟨_, ⟨e, he, rfl⟩, rfl, hrhs⟩
      obtain ⟨whole, hwhole, rfl⟩ := List.mem_map.mp hrhs
      exact ⟨whole, ⟨e.2, OrderedMap.mem_entries_iff.mp he, hwhole⟩, rfl⟩
    · rintro ⟨whole, ⟨rhss, hget, hwhole⟩, rfl⟩
      exact ⟨_, ⟨(s, rhss), OrderedMap.mem_entries_iff.mpr hget, rfl⟩, rfl,
        List.mem_map_of_mem hwhole⟩
  · simp only [standInEntries, List.mem_map]
    constructor
    · rintro ⟨_, ⟨e, he, rfl⟩, rfl, hrhs⟩
      exact ⟨e.1, OrderedMap.mem_entries_iff.mp he, List.mem_singleton.mp hrhs⟩
    · rintro ⟨t, hget, rfl⟩
      exact ⟨_, ⟨(t, s), OrderedMap.mem_entries_iff.mpr hget, rfl⟩, rfl, List.mem_singleton.mpr rfl⟩

/-! ### What the stage keeps and brings about -/

theorem not_mem_values (h : StoodIn g σ g₅) (hg : g.Supplied) (hrhs : rhs ∈ g.alternatives lhs)
    (hs : s ∈ rhs) : s ∉ σ.values := by
  intro hval
  exact hg.not_mem_pool hrhs hs (h.mem_pool_of_mem_values hval)

theorem standIn_mem (h : StoodIn g σ g₅) (hs : s ∈ g.vocabulary ∨ s ∈ σ) :
    g.standIn σ s ∈ g₅.vocabulary := by
  by_cases hmem : s ∈ g.vocabulary
  · rw [standIn_of_mem hmem]
    exact (h.vocabulary s).mpr (Or.inl hmem)
  · obtain ⟨t, ht⟩ := OrderedMap.mem_iff_get?.mp (hs.resolve_left hmem)
    rw [standIn_of_get? hmem ht]
    exact (h.vocabulary t).mpr (Or.inr (OrderedMap.mem_values_iff.mpr ⟨s, ht⟩))

/-- A symbol on a right side was on one before, or is a stand-in. -/
theorem uses (h : StoodIn g σ g₅) (huses : g₅.Uses s) : g.Uses s ∨ s ∈ σ.values := by
  obtain ⟨lhs, rhs, hrhs, hs⟩ := huses
  rcases (h.alternatives lhs rhs).mp hrhs with ⟨whole, hwhole, heq⟩ | ⟨t, hget, heq⟩
  · by_cases hlen : whole.length = 2
    · rw [heq, lifted, if_pos hlen] at hs
      obtain ⟨t, ht, hts⟩ := List.mem_map.mp hs
      by_cases hmem : t ∈ g.vocabulary
      · rw [standIn_of_mem hmem] at hts
        rw [← hts]
        exact Or.inl (uses_of_mem hwhole ht)
      · obtain ⟨u, hu⟩ := OrderedMap.mem_iff_get?.mp
          ((h.covered lhs whole hwhole hlen t ht).resolve_left hmem)
        rw [standIn_of_get? hmem hu] at hts
        rw [← hts]
        exact Or.inr (OrderedMap.mem_values_iff.mpr ⟨t, hu⟩)
    · rw [heq, lifted_of_length_ne hlen] at hs
      exact Or.inl (uses_of_mem hwhole hs)
  · rw [heq] at hs
    rw [List.mem_singleton.mp hs]
    exact Or.inl (h.terminals t (OrderedMap.mem_iff_get?.mpr ⟨lhs, hget⟩)).2.uses

theorem madeFrom (h : StoodIn g σ g₅) (hkeys : ∀ s ∈ g.rules, s ∈ g.vocabulary) :
    MadeFrom g σ.values g₅ where
  start := h.start
  pool := h.pool
  keys s hs := (h.vocabulary s).mpr (((h.keys s).mp hs).imp_left (hkeys s))
  vocabulary s hs := (h.vocabulary s).mp hs
  uses _ hs := (h.uses hs).imp_right Or.inr

theorem coherent (h : StoodIn g σ g₅) (hg : g.Coherent) : g₅.Coherent :=
  hg.of_madeFrom (h.madeFrom hg.keys)

theorem start_mem (h : StoodIn g σ g₅) (hstart : g.start ∈ g.rules) : g₅.start ∈ g₅.rules := by
  rw [h.start, h.keys]
  exact Or.inl hstart

theorem isBinary (h : StoodIn g σ g₅) (hbinary : g.IsBinary) : g₅.IsBinary := by
  rw [isBinary_iff] at hbinary ⊢
  intro s rhs hrhs
  rcases (h.alternatives s rhs).mp hrhs with ⟨whole, hwhole, heq⟩ | ⟨t, _, heq⟩
  · rw [heq, length_lifted]
    exact hbinary s whole hwhole
  · rw [heq]
    exact Or.inl rfl

theorem isEmptyFree (h : StoodIn g σ g₅) (hfree : g.IsEmptyFree) : g₅.IsEmptyFree := by
  rw [isEmptyFree_iff] at hfree ⊢
  intro s rhs hrhs hmarker
  rcases h.uses (uses_of_mem hrhs hmarker) with ⟨lhs, whole, hwhole, hmem⟩ | hval
  · exact hfree lhs whole hwhole hmem
  · exact LetterPool.ne_marker (h.mem_pool_of_mem_values hval) rfl

theorem isUnitFree (h : StoodIn g σ g₅) (hg : g.Coherent) (hfree : g.IsUnitFree) :
    g₅.IsUnitFree := by
  rw [isUnitFree_iff] at hfree ⊢
  intro s rhs hrhs t ht hone
  rcases (h.alternatives s rhs).mp hrhs with ⟨whole, hwhole, heq⟩ | ⟨u, hget, heq⟩
  · have hlen : whole.length ≠ 2 := by
      rw [← length_lifted (g := g) (σ := σ), ← heq, hone, List.length_singleton]
      decide
    rw [lifted_of_length_ne hlen] at heq
    rw [← heq, hone] at hwhole
    rcases (h.vocabulary t).mp ht with hmem | hval
    · exact hfree s [t] hwhole t hmem rfl
    · exact h.not_mem_values hg.supplied hwhole (List.mem_singleton.mpr rfl) hval
  · have hut : u = t := List.singleton_inj.mp (heq.symm.trans hone)
    obtain ⟨hfixed, hpair⟩ := h.terminals u (OrderedMap.mem_iff_get?.mpr ⟨s, hget⟩)
    rw [hut] at hfixed hpair
    rcases (h.vocabulary t).mp ht with hmem | hval
    · exact hfixed hmem
    · exact (hg.fresh t (h.mem_pool_of_mem_values hval)).2.2 hpair.uses

theorem isLifted (h : StoodIn g σ g₅) : g₅.IsLifted := by
  rw [isLifted_iff]
  intro s rhs hrhs hlen t ht
  rcases (h.alternatives s rhs).mp hrhs with ⟨whole, hwhole, heq⟩ | ⟨u, _, heq⟩
  · have htwo : whole.length = 2 := by
      rw [← length_lifted (g := g) (σ := σ), ← heq]
      exact hlen
    rw [heq, lifted, if_pos htwo] at ht
    obtain ⟨u, hu, hut⟩ := List.mem_map.mp ht
    rw [← hut]
    exact h.standIn_mem (h.covered s whole hwhole htwo u hu)
  · rw [heq] at hlen
    cases hlen

theorem alternatives_ne_nil (h : StoodIn g σ g₅)
    (hfull : ∀ s ∈ g.rules, s ≠ g.start → g.alternatives s ≠ []) (hs : s ∈ g₅.rules)
    (hne : s ≠ g₅.start) : g₅.alternatives s ≠ [] := by
  rw [h.start] at hne
  rcases (h.keys s).mp hs with hold | hval
  · obtain ⟨whole, hwhole⟩ := List.exists_mem_of_ne_nil _ (hfull s hold hne)
    exact List.ne_nil_of_mem ((h.alternatives s _).mpr (Or.inl ⟨whole, hwhole, rfl⟩))
  · obtain ⟨t, hget⟩ := OrderedMap.mem_values_iff.mp hval
    exact List.ne_nil_of_mem ((h.alternatives s _).mpr (Or.inr ⟨t, hget, rfl⟩))

/-! ### Words -/

/-- A stand-in derives what its terminal derives. -/
theorem yields_standIn (h : StoodIn g σ g₅) {w : List Symbol} (hs : s ∈ g.vocabulary ∨ s ∈ σ)
    (hw : g₅.Generates s w) : g₅.Generates (g.standIn σ s) w := by
  by_cases hmem : s ∈ g.vocabulary
  · rw [standIn_of_mem hmem]
    exact hw
  · have hσ := hs.resolve_left hmem
    obtain ⟨t, ht⟩ := OrderedMap.mem_iff_get?.mp hσ
    have hval : t ∈ σ.values := OrderedMap.mem_values_iff.mpr ⟨s, ht⟩
    rw [standIn_of_get? hmem ht]
    exact .of_alternative ((h.vocabulary t).mpr (Or.inr hval))
      ((h.alternatives t [s]).mpr (Or.inr ⟨s, ht, rfl⟩)) hw

theorem yields_lifted (h : StoodIn g σ g₅) {w : List Symbol} (hcovered : g.Covered σ rhs)
    (hw : Yields (· ∈ g₅.vocabulary) g₅.rules rhs w) :
    Yields (· ∈ g₅.vocabulary) g₅.rules (g.lifted σ rhs) w := by
  match rhs with
  | [] | [_] | _ :: _ :: _ :: _ =>
    rw [lifted_of_length_ne (by simp only [List.length_cons, List.length_nil]; omega)]
    exact hw
  | [l, r] =>
    obtain ⟨u, v, hsplit, hu, hv⟩ := yields_pair_iff.mp hw
    have hl := hcovered rfl l (List.mem_cons_self ..)
    have hr := hcovered rfl r (List.mem_cons_of_mem _ (List.mem_cons_self ..))
    rw [lifted_pair]
    exact yields_pair_iff.mpr ⟨u, v, hsplit, h.yields_standIn hl hu, h.yields_standIn hr hv⟩

theorem nodup_heads (h : StoodIn g σ g₅) : ((σ.entries.map Prod.swap).map Prod.fst).Nodup := by
  rw [List.map_map]
  exact LetterPool.nodup_of_letters_eq_append h.pool

/-- Reads a stand-in as its terminal, and any other symbol as itself. -/
def reading (h : StoodIn g σ g₅) (s : Symbol) : RightSide :=
  [((⟨σ.entries.map Prod.swap, h.nodup_heads⟩ : OrderedMap Symbol Symbol).get? s).getD s]

theorem reading_of_get? (h : StoodIn g σ g₅) (hst : σ.get? s = some t) : h.reading t = [s] := by
  have hget : (⟨σ.entries.map Prod.swap, h.nodup_heads⟩ : OrderedMap Symbol Symbol).get? t =
      some s :=
    OrderedMap.mem_entries_iff.mp (List.mem_map.mpr ⟨(s, t), OrderedMap.mem_entries_iff.mpr hst, rfl⟩)
  rw [reading, hget, Option.getD_some]

theorem reading_of_not_mem (h : StoodIn g σ g₅) (hs : s ∉ σ.values) : h.reading s = [s] := by
  have hget : (⟨σ.entries.map Prod.swap, h.nodup_heads⟩ : OrderedMap Symbol Symbol).get? s =
      none := by
    rw [OrderedMap.get?_eq_none_iff, ← OrderedMap.mem_keys]
    show s ∉ (σ.entries.map Prod.swap).map Prod.fst
    rw [List.map_map]
    exact hs
  rw [reading, hget, Option.getD_none]

theorem reading_standIn (h : StoodIn g σ g₅) (hval : s ∉ σ.values) (hs : s ∈ g.vocabulary ∨ s ∈ σ) :
    h.reading (g.standIn σ s) = [s] := by
  by_cases hmem : s ∈ g.vocabulary
  · rw [standIn_of_mem hmem]
    exact h.reading_of_not_mem hval
  · obtain ⟨t, ht⟩ := OrderedMap.mem_iff_get?.mp (hs.resolve_left hmem)
    rw [standIn_of_get? hmem ht]
    exact h.reading_of_get? ht

/-- Reading the stand-ins turns a right side back into what it was. -/
theorem flatMap_lifted (h : StoodIn g σ g₅) (hg : g.Supplied) (hrhs : rhs ∈ g.alternatives lhs) :
    (g.lifted σ rhs).flatMap h.reading = rhs := by
  by_cases hlen : rhs.length = 2
  · rw [lifted, if_pos hlen, List.flatMap_map]
    have hself : ∀ s ∈ rhs, h.reading (g.standIn σ s) = [s] := fun s hs =>
      h.reading_standIn (h.not_mem_values hg hrhs hs) (h.covered lhs rhs hrhs hlen s hs)
    rw [List.flatMap_congr hself]
    exact List.flatMap_singleton' _
  · rw [lifted_of_length_ne hlen]
    have hself : ∀ s ∈ rhs, h.reading s = [s] := fun s hs =>
      h.reading_of_not_mem (h.not_mem_values hg hrhs hs)
    rw [List.flatMap_congr hself]
    exact List.flatMap_singleton' _

theorem yields_reading (h : StoodIn g σ g₅) (hg : g.Supplied) {α : RightSide} {w : List Symbol}
    (hw : Yields (· ∈ g₅.vocabulary) g₅.rules α w) :
    Yields (· ∈ g.vocabulary) g.rules (α.flatMap h.reading) w := by
  refine hw.expand ?_ ?_
  · intro s hs
    rw [h.vocabulary, not_or] at hs
    rw [h.reading_of_not_mem hs.2]
    exact .of_fixed hs.1
  · intro s _ rhs hrhs u hu
    rcases (h.alternatives s rhs).mp hrhs with ⟨whole, hwhole, heq⟩ | ⟨t, hget, heq⟩
    · have hexp := hg.mem_vocabulary hwhole
      have hval : s ∉ σ.values := fun hval =>
        hg.not_mem_pool_of_mem_vocabulary hexp (h.mem_pool_of_mem_values hval)
      rw [heq, h.flatMap_lifted hg hwhole] at hu
      rw [h.reading_of_not_mem hval]
      exact .of_alternative hexp hwhole hu
    · have hval : t ∉ σ.values := by
        intro hval
        have huses := (h.terminals t (OrderedMap.mem_iff_get?.mpr ⟨s, hget⟩)).2.uses
        exact (hg.fresh t (h.mem_pool_of_mem_values hval)).2.2 huses
      rw [heq, List.flatMap_singleton, h.reading_of_not_mem hval] at hu
      rw [h.reading_of_get? hget]
      exact hu

/-- Lifting keeps the words of every symbol that is not one of the drawn letters. -/
theorem generates_iff (h : StoodIn g σ g₅) (hg : g.Supplied) (hs : s ∉ g.pool.letters)
    {w : List Symbol} : g₅.Generates s w ↔ g.Generates s w := by
  constructor
  · intro hw
    have hread := h.yields_reading hg hw
    have hself := h.reading_of_not_mem fun hval => hs (h.mem_pool_of_mem_values hval)
    rw [List.flatMap_singleton, hself] at hread
    exact hread
  · intro hw
    refine Yields.transfer (Q := fun t => t ∉ g.pool.letters) ?_ ?_ ?_ hw ?_
    · intro lhs _ _ rhs hrhs t ht
      exact hg.not_mem_pool hrhs ht
    · intro t ht hfixed hmem
      rcases (h.vocabulary t).mp hmem with hmem | hval
      · exact hfixed hmem
      · exact ht (h.mem_pool_of_mem_values hval)
    · intro lhs _ hexp rhs hrhs u hu
      exact .of_alternative ((h.vocabulary lhs).mpr (Or.inl hexp))
        ((h.alternatives lhs _).mpr (Or.inl ⟨rhs, hrhs, rfl⟩))
        (h.yields_lifted (h.covered lhs rhs hrhs) hu)
    · intro t ht
      rw [List.mem_singleton.mp ht]
      exact hs

end StoodIn

end Grammar

end ChomskyForm
