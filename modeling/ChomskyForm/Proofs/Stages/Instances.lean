import ChomskyForm.Proofs.Rebuild
import ChomskyForm.Proofs.Stages.Occurring
import ChomskyForm.Proofs.Stages.UnitFree

/-!
# Dropping unit productions under any closure

The closure may be out of date, or that of another grammar.  A nonterminal of a pair that it does not
know stops the work, and the first in the order of the table is reported
(`Grammar.foldlM_addInstances_of_unlisted`).  If there is none, the instances of the pairs are
appended to what is left of each list, in their order and without repetitions
(`Grammar.alternatives_addAll_newProductions`).
-/

namespace ChomskyForm

/-! ### Tables in the order of their productions -/

namespace RuleTable

/-- Appends the right sides that are not there yet, each once. -/
def appendNew (present more : List RightSide) : List RightSide :=
  present ++ (more.filter fun rhs => !present.contains rhs).eraseDups

theorem appendNew_eq (present more : List RightSide) :
    appendNew present more = present ++ (more.filter (· ∉ present)).eraseDups := by
  simp only [appendNew, List.contains_eq_mem, decide_not]

theorem appendNew_nil (present : List RightSide) : appendNew present [] = present := by
  simp [appendNew]

theorem appendNew_cons (present : List RightSide) (rhs : RightSide) (more : List RightSide) :
    appendNew present (rhs :: more) =
      appendNew (if rhs ∈ present then present else present ++ [rhs]) more := by
  by_cases h : rhs ∈ present
  · rw [if_pos h, appendNew_eq, appendNew_eq, List.filter_cons_of_neg (by simp [h])]
  · have htwice : (more.filter (· ∉ present)).filter (fun r => !r == rhs) =
        more.filter (· ∉ present ++ [rhs]) := by
      rw [List.filter_filter]
      refine List.filter_congr fun r _ => ?_
      by_cases hr : r = rhs <;> simp [hr]
    rw [if_neg h, appendNew_eq, appendNew_eq, List.filter_cons_of_pos (by simp [h]),
      List.eraseDups_cons, htwice, List.append_assoc, List.singleton_append]

variable {rules : RuleTable}

/-- The productions of one symbol are its alternatives, in their order. -/
theorem map_snd_filter_productions (rules : RuleTable) (s : Symbol) :
    (rules.productions.filter (·.1 = s)).map Prod.snd = rules.alternatives s := by
  obtain ⟨es, hes⟩ := rules
  show ((es.flatMap fun e => e.2.map fun rhs => (e.1, rhs)).filter _).map _ = (es.lookup s).getD []
  induction es with
  | nil => rfl
  | cons e es ih =>
    obtain ⟨k, rhss⟩ := e
    rw [List.map_cons, List.nodup_cons] at hes
    rw [List.flatMap_cons, List.filter_append, List.map_append, ih hes.2]
    by_cases h : s = k
    · subst h
      have hnone : es.lookup s = none := by
        rw [List.lookup_eq_none_iff]
        intro e he
        rw [bne_iff_ne]
        rintro rfl
        have hkey : e.1 ∈ es.map Prod.fst := List.mem_map_of_mem he
        exact hes.1 hkey
      simp [hnone, List.filter_map, Function.comp_def]
    · have h' : k ≠ s := fun hk => h hk.symm
      have hbeq : (s == k) = false := beq_eq_false_iff_ne.mpr h
      simp [List.filter_map, Function.comp_def, h', List.lookup_cons, hbeq]

/-- Nothing is lost with keys that have no alternatives. -/
theorem productions_filter_of_nil {p : Symbol → List RightSide → Bool}
    (h : ∀ e ∈ rules.entries, p e.1 e.2 = false → e.2 = []) :
    productions (OrderedMap.filter rules p) = rules.productions := by
  show (rules.entries.filter fun e => p e.1 e.2).flatMap _ = rules.entries.flatMap _
  generalize rules.entries = es at h
  induction es with
  | nil => rfl
  | cons e es ih =>
    obtain ⟨he, hes⟩ := List.forall_mem_cons.mp h
    rw [List.flatMap_cons, ← ih hes, List.filter_cons]
    cases hp : p e.1 e.2 with
    | true => rfl
    | false =>
      rw [he hp]
      rfl

theorem keys_filter {p : Symbol → List RightSide → Bool} {q : Symbol → Bool}
    (h : ∀ s, p s (rules.alternatives s) = q s) :
    (OrderedMap.filter rules p).keys = rules.keys.filter q := by
  rw [OrderedMap.keys, OrderedMap.keys, List.filter_map]
  refine congrArg _ (List.filter_congr fun e he => ?_)
  rw [Function.comp_apply, ← h, alternatives_of_mem_entries he]

end RuleTable

namespace Grammar

variable {g cur : Grammar} {D : UnitClosure}

theorem alternatives_addAll (g : Grammar) (ps : List Production) (s : Symbol) :
    (g.addAll ps).alternatives s =
      RuleTable.appendNew (g.alternatives s) ((ps.filter (·.1 = s)).map Prod.snd) := by
  induction ps generalizing g with
  | nil => exact (RuleTable.appendNew_nil _).symm
  | cons p ps ih =>
    have hstep : g.addAll (p :: ps) = (g.add p.1 p.2).addAll ps := rfl
    rw [hstep, ih]
    by_cases h : p.1 = s
    · subst h
      have hadd : (g.add p.1 p.2).alternatives p.1 =
          if p.2 ∈ g.alternatives p.1 then g.alternatives p.1
          else g.alternatives p.1 ++ [p.2] := by
        rw [add, alternatives, RuleTable.alternatives_add_self]
        simp only [RuleTable.has_eq_true_iff]
        rfl
      rw [List.filter_cons_of_pos (by simp), List.map_cons, RuleTable.appendNew_cons, hadd]
    · have hadd : (g.add p.1 p.2).alternatives s = g.alternatives s :=
        RuleTable.alternatives_add_of_ne _ _ fun hs => h hs.symm
      rw [List.filter_cons_of_neg (by simp [h]), hadd]

theorem keys_addAll_of_mem {ps : List Production} (h : ∀ p ∈ ps, p.1 ∈ g.rules) :
    (g.addAll ps).rules.keys = g.rules.keys := by
  induction ps generalizing g with
  | nil => rfl
  | cons p ps ih =>
    obtain ⟨hp, hps⟩ := List.forall_mem_cons.mp h
    have hkeys : (g.add p.1 p.2).rules.keys = g.rules.keys := by
      rw [add, RuleTable.add, OrderedMap.keys_insert, if_pos hp]
    have hstep : g.addAll (p :: ps) = (g.add p.1 p.2).addAll ps := rfl
    rw [hstep, ih, hkeys]
    exact fun q hq => mem_rules_add.mpr (Or.inl (hps q hq))

/-! ### What is left without the unit productions -/

/-- The alternatives of a symbol that are no single nonterminals. -/
def properAlternatives (g : Grammar) (s : Symbol) : List RightSide :=
  (g.alternatives s).filter fun rhs => !g.isUnit rhs

theorem productions_dropUnits :
    g.dropUnits.productions = (g.rules.filterAlternatives fun rhs => !g.isUnit rhs).productions :=
  RuleTable.productions_filter_of_nil fun e _ he => by
    rw [Bool.or_eq_false_iff, Bool.not_eq_false'] at he
    exact List.isEmpty_iff.mp he.1

theorem alternatives_dropUnits (s : Symbol) :
    g.dropUnits.alternatives s = g.properAlternatives s := by
  rw [alternatives, ← RuleTable.map_snd_filter_productions]
  show (g.dropUnits.productions.filter _).map _ = _
  rw [productions_dropUnits, RuleTable.map_snd_filter_productions,
    RuleTable.alternatives_filterAlternatives]
  rfl

theorem keys_dropUnits :
    g.dropUnits.rules.keys =
      g.rules.keys.filter fun s => g.properAlternatives s ≠ [] ∨ s = g.start := by
  rw [← OrderedMap.keys_mapValues g.rules fun _ rhss => rhss.filter fun rhs => !g.isUnit rhs]
  refine RuleTable.keys_filter fun s => ?_
  rw [RuleTable.alternatives_filterAlternatives]
  show (!(g.properAlternatives s).isEmpty || _) = _
  cases g.properAlternatives s <;> simp

/-! ### Looking symbols up in a closure -/

/-- The symbols of the right sides of two symbols, in their order. -/
def pairSymbols (ps : List Production) : List Symbol :=
  (ps.filter fun p => p.2.length = 2).flatMap Prod.snd

/-- The symbols that stand for `s`: the members of its set in the closure, or itself for a
terminal. -/
def members (g : Grammar) (D : UnitClosure) (s : Symbol) : List Symbol :=
  if s ∈ g.vocabulary then ((D.get? s).map OrderedSet.toList).getD [] else [s]

/-- What is made of a right side of two symbols, row by row. -/
def instances (g : Grammar) (D : UnitClosure) : RightSide → List RightSide
  | [left, right] => RightSide.pairs (g.members D left) (g.members D right)
  | _ => []

theorem instances_of_length_ne {rhs : RightSide} (h : rhs.length ≠ 2) : g.instances D rhs = [] := by
  match rhs with
  | [] | [_] | _ :: _ :: _ :: _ => rfl
  | [_, _] => exact absurd rfl h

theorem instances_of_isUnit {rhs : RightSide} (h : g.isUnit rhs = true) : g.instances D rhs = [] := by
  obtain ⟨s, _, rfl⟩ := isUnit_eq_true_iff.mp h
  rfl

theorem pairSymbols_cons_of_length_ne {p : Production} (h : p.2.length ≠ 2)
    (ps : List Production) : pairSymbols (p :: ps) = pairSymbols ps := by
  rw [pairSymbols, List.filter_cons_of_neg (by simp [h]), pairSymbols]

theorem pairSymbols_cons_pair (lhs left right : Symbol) (ps : List Production) :
    pairSymbols ((lhs, [left, right]) :: ps) = left :: right :: pairSymbols ps := rfl

theorem mem_pairSymbols {s : Symbol} : s ∈ pairSymbols g.productions ↔
    ∃ lhs, ∃ rhs ∈ g.alternatives lhs, rhs.length = 2 ∧ s ∈ rhs := by
  simp only [pairSymbols, List.mem_flatMap, List.mem_filter, decide_eq_true_eq, Prod.exists,
    mem_productions_iff, and_assoc]

theorem substitutes_of_listed {s : Symbol} (h : s ∈ g.vocabulary → s ∈ D) :
    g.substitutes D s = .ok (g.members D s) := by
  rw [substitutes, members]
  by_cases hs : s ∈ g.vocabulary
  · obtain ⟨reached, hget⟩ := OrderedMap.mem_iff_get?.mp (h hs)
    rw [if_pos (isNonterminal_eq_true_iff.mpr hs), if_pos hs, hget]
    rfl
  · rw [if_neg (mt isNonterminal_eq_true_iff.mp hs), if_neg hs]

theorem substitutes_of_unlisted {s : Symbol} (hs : s ∈ g.vocabulary) (h : s ∉ D) :
    g.substitutes D s = .error (.missingClosure s) := by
  rw [substitutes, if_pos (isNonterminal_eq_true_iff.mpr hs), OrderedMap.get?_eq_none_iff.mpr h]

/-! ### The pairs one after the other -/

/-- The productions that the pairs among `ps` give rise to. -/
def newProductions (g : Grammar) (D : UnitClosure) (ps : List Production) : List Production :=
  ps.flatMap fun p => (g.instances D p.2).map fun rhs => (p.1, rhs)

theorem map_snd_filter_newProductions (ps : List Production) (s : Symbol) :
    ((g.newProductions D ps).filter (·.1 = s)).map Prod.snd =
      ((ps.filter (·.1 = s)).map Prod.snd).flatMap (g.instances D) := by
  induction ps with
  | nil => rfl
  | cons p ps ih =>
    have hcons : g.newProductions D (p :: ps) =
        (g.instances D p.2).map (fun rhs => (p.1, rhs)) ++ g.newProductions D ps := rfl
    rw [hcons, List.filter_append, List.map_append, ih]
    by_cases h : p.1 = s
    · simp [List.filter_map, Function.comp_def, h]
    · simp [List.filter_map, Function.comp_def, h]

theorem addInstances_of_length_ne {p : Production} (h : p.2.length ≠ 2) :
    addInstances D cur p = .ok cur := by
  obtain ⟨lhs, rhs⟩ := p
  match rhs with
  | [] | [_] | _ :: _ :: _ :: _ => rfl
  | [_, _] => exact absurd rfl h

theorem addInstances_pair {lhs left right : Symbol} {lefts rights : List Symbol}
    (hleft : cur.substitutes D left = .ok lefts) (hright : cur.substitutes D right = .ok rights) :
    addInstances D cur (lhs, [left, right]) =
      .ok (cur.addAll ((RightSide.pairs lefts rights).map fun rhs => (lhs, rhs))) := by
  rw [addInstances, hleft, hright]
  rfl

theorem vocabulary_addAll_of_eq (hcur : cur.vocabulary = g.vocabulary) {lhs : Symbol}
    (hlhs : lhs ∈ g.vocabulary) (rhss : List RightSide) :
    (cur.addAll (rhss.map fun rhs => (lhs, rhs))).vocabulary = g.vocabulary := by
  rw [vocabulary_addAll_of_mem, hcur]
  intro q hq
  obtain ⟨_, _, rfl⟩ := List.mem_map.mp hq
  rw [hcur]
  exact hlhs

/-- Where the closure knows all nonterminals of the pairs, no step fails. -/
theorem foldlM_addInstances_of_listed {ps : List Production} (hcur : cur.vocabulary = g.vocabulary)
    (hps : ∀ p ∈ ps, p.1 ∈ g.vocabulary)
    (hlisted : ∀ s ∈ pairSymbols ps, s ∈ g.vocabulary → s ∈ D) :
    ps.foldlM (addInstances D) cur = .ok (cur.addAll (g.newProductions D ps)) := by
  induction ps generalizing cur with
  | nil => rfl
  | cons p ps ih =>
    obtain ⟨hp, hps'⟩ := List.forall_mem_cons.mp hps
    have hcons : g.newProductions D (p :: ps) =
        (g.instances D p.2).map (fun rhs => (p.1, rhs)) ++ g.newProductions D ps := rfl
    rw [List.foldlM_cons, hcons]
    by_cases hpair : p.2.length = 2
    · obtain ⟨lhs, rhs⟩ := p
      obtain ⟨left, right, rfl⟩ := List.length_eq_two.mp hpair
      rw [pairSymbols_cons_pair, List.forall_mem_cons, List.forall_mem_cons] at hlisted
      obtain ⟨hleft, hright, hrest⟩ := hlisted
      have hl := (substitutes_congr hcur D left).trans (substitutes_of_listed hleft)
      have hr := (substitutes_congr hcur D right).trans (substitutes_of_listed hright)
      rw [addInstances_pair hl hr, addAll_append]
      exact ih (vocabulary_addAll_of_eq hcur hp _) hps' hrest
    · rw [pairSymbols_cons_of_length_ne hpair] at hlisted
      rw [addInstances_of_length_ne hpair, instances_of_length_ne hpair]
      exact ih hcur hps' hlisted

/-- The first symbol that the closure does not know stops the work. -/
theorem foldlM_addInstances_of_unlisted {ps : List Production}
    (hcur : cur.vocabulary = g.vocabulary) (hps : ∀ p ∈ ps, p.1 ∈ g.vocabulary)
    {before after : List Symbol} {s : Symbol} (hsplit : pairSymbols ps = before ++ s :: after)
    (hbefore : ∀ t ∈ before, t ∈ g.vocabulary → t ∈ D) (hs : s ∈ g.vocabulary) (hunlisted : s ∉ D) :
    ps.foldlM (addInstances D) cur = .error (.missingClosure s) := by
  induction ps generalizing cur before with
  | nil => cases before <;> cases hsplit
  | cons p ps ih =>
    obtain ⟨hp, hps'⟩ := List.forall_mem_cons.mp hps
    rw [List.foldlM_cons]
    by_cases hpair : p.2.length = 2
    · obtain ⟨lhs, rhs⟩ := p
      obtain ⟨left, right, rfl⟩ := List.length_eq_two.mp hpair
      have hstop := (substitutes_congr hcur D s).trans (substitutes_of_unlisted hs hunlisted)
      have hgo : ∀ t ∈ before, cur.substitutes D t = .ok (g.members D t) := fun t ht =>
        (substitutes_congr hcur D t).trans (substitutes_of_listed (hbefore t ht))
      rw [pairSymbols_cons_pair] at hsplit
      match before with
      | [] =>
        cases hsplit
        rw [addInstances, hstop]
        rfl
      | [t] =>
        cases hsplit
        rw [addInstances, hgo left (List.mem_cons_self ..), hstop]
        rfl
      | t :: u :: before =>
        obtain ⟨hleft, hsplit⟩ := List.cons.inj hsplit
        obtain ⟨hright, hsplit⟩ := List.cons.inj hsplit
        rw [hleft, hright, addInstances_pair (hgo t (by simp)) (hgo u (by simp))]
        exact ih (vocabulary_addAll_of_eq hcur hp _) hps' hsplit fun v hv => hbefore v (by simp [hv])
    · rw [pairSymbols_cons_of_length_ne hpair] at hsplit
      rw [addInstances_of_length_ne hpair]
      exact ih hcur hps' hsplit hbefore

/-! ### The whole table -/

theorem pairSymbols_productions_dropUnits :
    pairSymbols g.dropUnits.productions = pairSymbols g.productions := by
  rw [productions_dropUnits, RuleTable.productions_filterAlternatives, pairSymbols,
    List.filter_filter]
  refine congrArg (List.flatMap Prod.snd) (List.filter_congr fun p _ => ?_)
  by_cases hpair : p.2.length = 2
  · obtain ⟨left, right, h⟩ := List.length_eq_two.mp hpair
    rw [h, isUnit_pair]
    rfl
  · simp [hpair]

/-- The instances that come from a list are those of what is left of it. -/
theorem flatMap_instances_properAlternatives (s : Symbol) :
    (g.properAlternatives s).flatMap (g.instances D) = (g.alternatives s).flatMap (g.instances D) := by
  rw [properAlternatives]
  generalize g.alternatives s = rhss
  induction rhss with
  | nil => rfl
  | cons rhs rhss ih =>
    rw [List.filter_cons, List.flatMap_cons]
    cases hunit : g.isUnit rhs with
    | true =>
      rw [instances_of_isUnit hunit, List.nil_append]
      exact ih
    | false => exact congrArg (g.instances D rhs ++ ·) ih

/-- The closure knows all nonterminals of the pairs, or there is a first that it does not know. -/
theorem listed_or_unlisted (g : Grammar) (D : UnitClosure) :
    (∀ s ∈ pairSymbols g.productions, s ∈ g.vocabulary → s ∈ D) ∨
      ∃ before s after, pairSymbols g.productions = before ++ s :: after ∧
        (∀ t ∈ before, t ∈ g.vocabulary → t ∈ D) ∧ s ∈ g.vocabulary ∧ s ∉ D := by
  rcases hfind : (pairSymbols g.productions).find? (fun s => s ∈ g.vocabulary ∧ s ∉ D) with _ | s
  · left
    rw [List.find?_eq_none] at hfind
    intro s hs hexp
    by_contra hunlisted
    exact hfind s hs (decide_eq_true ⟨hexp, hunlisted⟩)
  · right
    obtain ⟨hs, before, after, hsplit, hbefore⟩ := List.find?_eq_some_iff_append.mp hfind
    obtain ⟨hexp, hunlisted⟩ := of_decide_eq_true hs
    refine ⟨before, s, after, hsplit, fun t ht htexp => ?_, hexp, hunlisted⟩
    by_contra hnot
    have hpassed := hbefore t ht
    simp [htexp, hnot] at hpassed

theorem mem_rules_of_mem_newProductions {p : Production}
    (hp : p ∈ g.newProductions D g.dropUnits.productions) : p.1 ∈ g.dropUnits.rules := by
  obtain ⟨q, hq, hp⟩ := List.mem_flatMap.mp hp
  obtain ⟨_, _, rfl⟩ := List.mem_map.mp hp
  exact mem_of_mem_alternatives (mem_productions_iff.mp hq)

section Table

variable (hkeys : ∀ s ∈ g.rules, s ∈ g.vocabulary)

include hkeys

theorem mem_vocabulary_of_mem_productions_dropUnits :
    ∀ p ∈ g.dropUnits.productions, p.1 ∈ g.vocabulary := by
  rintro ⟨lhs, rhs⟩ hp
  exact hkeys lhs (mem_rules_dropUnits.mp (mem_of_mem_alternatives (mem_productions_iff.mp hp))).1

theorem eliminateUnits_of_listed
    (hlisted : ∀ s ∈ pairSymbols g.productions, s ∈ g.vocabulary → s ∈ D) :
    g.eliminateUnits D = .ok (g.dropUnits.addAll (g.newProductions D g.dropUnits.productions)) := by
  rw [← pairSymbols_productions_dropUnits] at hlisted
  have hsame : g.dropUnits.vocabulary = g.vocabulary := rfl
  exact foldlM_addInstances_of_listed hsame
    (mem_vocabulary_of_mem_productions_dropUnits hkeys) hlisted

theorem eliminateUnits_of_unlisted {before after : List Symbol} {s : Symbol}
    (hsplit : pairSymbols g.productions = before ++ s :: after)
    (hbefore : ∀ t ∈ before, t ∈ g.vocabulary → t ∈ D) (hs : s ∈ g.vocabulary) (hunlisted : s ∉ D) :
    g.eliminateUnits D = .error (.missingClosure s) := by
  rw [← pairSymbols_productions_dropUnits] at hsplit
  have hsame : g.dropUnits.vocabulary = g.vocabulary := rfl
  exact foldlM_addInstances_of_unlisted hsame
    (mem_vocabulary_of_mem_productions_dropUnits hkeys) hsplit hbefore hs hunlisted

/-- The error names the first symbol that is not known. -/
theorem eliminateUnits_eq_error_iff {e : ConversionError} :
    g.eliminateUnits D = .error e ↔
      ∃ before s after, pairSymbols g.productions = before ++ s :: after ∧
        (∀ t ∈ before, t ∈ g.vocabulary → t ∈ D) ∧ s ∈ g.vocabulary ∧ s ∉ D ∧
        e = .missingClosure s := by
  constructor
  · intro herror
    rcases listed_or_unlisted g D with hlisted | ⟨before, s, after, hsplit, hbefore, hs, hnot⟩
    · rw [eliminateUnits_of_listed hkeys hlisted] at herror
      cases herror
    · rw [eliminateUnits_of_unlisted hkeys hsplit hbefore hs hnot] at herror
      cases herror
      exact ⟨before, s, after, hsplit, hbefore, hs, hnot, rfl⟩
  · rintro ⟨before, s, after, hsplit, hbefore, hs, hnot, rfl⟩
    exact eliminateUnits_of_unlisted hkeys hsplit hbefore hs hnot

theorem exists_eliminateUnits_eq_error_iff :
    (∃ e, g.eliminateUnits D = .error e) ↔
      ∃ s ∈ pairSymbols g.productions, s ∈ g.vocabulary ∧ s ∉ D := by
  constructor
  · rintro ⟨e, herror⟩
    obtain ⟨before, s, after, hsplit, _, hs, hnot, _⟩ :=
      (eliminateUnits_eq_error_iff hkeys).mp herror
    refine ⟨s, ?_, hs, hnot⟩
    rw [hsplit]
    exact List.mem_append_right _ (List.mem_cons_self ..)
  · rintro ⟨s, hmem, hs, hnot⟩
    rcases listed_or_unlisted g D with hlisted | ⟨before, t, after, hsplit, hbefore, ht, hnot'⟩
    · exact absurd (hlisted s hmem hs) hnot
    · exact ⟨_, eliminateUnits_of_unlisted hkeys hsplit hbefore ht hnot'⟩

end Table

/-- The list of a symbol: what is left of it, and then what is new among its instances. -/
theorem alternatives_addAll_newProductions (s : Symbol) :
    (g.dropUnits.addAll (g.newProductions D g.dropUnits.productions)).alternatives s =
      RuleTable.appendNew (g.properAlternatives s) ((g.alternatives s).flatMap (g.instances D)) := by
  have hproper : (g.dropUnits.productions.filter (·.1 = s)).map Prod.snd = g.properAlternatives s :=
    (RuleTable.map_snd_filter_productions _ s).trans (alternatives_dropUnits s)
  rw [alternatives_addAll, map_snd_filter_newProductions, hproper, alternatives_dropUnits,
    flatMap_instances_properAlternatives]

/-- What becomes of a grammar under a closure of which nothing is known. -/
theorem eliminateUnits_under_closure (g : Grammar) (D : UnitClosure)
    (hkeys : ∀ s ∈ g.rules, s ∈ g.vocabulary) :
    ((∃ e, g.eliminateUnits D = .error e) ↔
      ∃ lhs, ∃ rhs ∈ g.alternatives lhs, rhs.length = 2 ∧ ∃ s ∈ rhs, s ∈ g.vocabulary ∧ s ∉ D) ∧
    (∀ e, g.eliminateUnits D = .error e ↔
      ∃ before s after, pairSymbols g.productions = before ++ s :: after ∧
        (∀ t ∈ before, t ∈ g.vocabulary → t ∈ D) ∧ s ∈ g.vocabulary ∧ s ∉ D ∧
        e = .missingClosure s) ∧
    ((∀ lhs, ∀ rhs ∈ g.alternatives lhs, rhs.length = 2 → ∀ s ∈ rhs, s ∈ g.vocabulary → s ∈ D) →
      ∃ g₃, g.eliminateUnits D = .ok g₃ ∧
        g₃.start = g.start ∧ g₃.vocabulary = g.vocabulary ∧ g₃.pool = g.pool ∧
        g₃.rules.keys = g.rules.keys.filter (fun s => g.properAlternatives s ≠ [] ∨ s = g.start) ∧
        ∀ s ∈ g₃.rules, g₃.alternatives s = g.properAlternatives s ++
          (((g.alternatives s).flatMap (g.instances D)).filter
            (· ∉ g.properAlternatives s)).eraseDups) := by
  refine ⟨?_, fun e => eliminateUnits_eq_error_iff hkeys, fun hlisted => ?_⟩
  · rw [exists_eliminateUnits_eq_error_iff hkeys]
    constructor
    · rintro ⟨s, hmem, hs, hnot⟩
      obtain ⟨lhs, rhs, hrhs, hpair, hin⟩ := mem_pairSymbols.mp hmem
      exact ⟨lhs, rhs, hrhs, hpair, s, hin, hs, hnot⟩
    · rintro ⟨lhs, rhs, hrhs, hpair, s, hin, hs, hnot⟩
      exact ⟨s, mem_pairSymbols.mpr ⟨lhs, rhs, hrhs, hpair, hin⟩, hs, hnot⟩
  · have hall : ∀ s ∈ pairSymbols g.productions, s ∈ g.vocabulary → s ∈ D := by
      intro s hs
      obtain ⟨lhs, rhs, hrhs, hpair, hin⟩ := mem_pairSymbols.mp hs
      exact hlisted lhs rhs hrhs hpair s hin
    refine ⟨_, eliminateUnits_of_listed hkeys hall, start_addAll .., ?_, pool_addAll .., ?_, ?_⟩
    · refine vocabulary_addAll_of_mem fun p hp => ?_
      exact hkeys _ (mem_rules_dropUnits.mp (mem_rules_of_mem_newProductions hp)).1
    · rw [keys_addAll_of_mem fun p hp => mem_rules_of_mem_newProductions hp, keys_dropUnits]
    · intro s _
      rw [alternatives_addAll_newProductions, RuleTable.appendNew_eq]

/-! The set of `A` lacks `A` itself and has a terminal, and one instance of `AB` is written further
down already. -/

def sharedPairs : Grammar :=
  .ofProductions ⟨'S'⟩ [(⟨'S'⟩, [⟨'A'⟩, ⟨'B'⟩]), (⟨'S'⟩, [⟨'B'⟩]), (⟨'S'⟩, [⟨'C'⟩, ⟨'B'⟩]),
    (⟨'A'⟩, [⟨'B'⟩]), (⟨'B'⟩, [⟨'b'⟩]), (⟨'C'⟩, [⟨'c'⟩])]

def foreignClosure : UnitClosure :=
  OrderedMap.ofKeys (.ofList [⟨'A'⟩, ⟨'B'⟩, ⟨'C'⟩]) fun s =>
    if s = ⟨'A'⟩ then .ofList [⟨'x'⟩, ⟨'C'⟩] else .singleton s

theorem eliminateUnits_under_closure_foreign :
    (∃ g₃, sharedPairs.eliminateUnits foreignClosure = .ok g₃ ∧
      g₃.rules.keys = [⟨'S'⟩, ⟨'B'⟩, ⟨'C'⟩] ∧
      g₃.alternatives ⟨'S'⟩ = [[⟨'A'⟩, ⟨'B'⟩], [⟨'C'⟩, ⟨'B'⟩], [⟨'x'⟩, ⟨'B'⟩]]) ∧
    sharedPairs.eliminateUnits (foreignClosure.erase ⟨'B'⟩) = .error (.missingClosure ⟨'B'⟩) := by
  have hkeys : ∀ s ∈ sharedPairs.rules, s ∈ sharedPairs.vocabulary := by
    have hall : ∀ s ∈ sharedPairs.rules.keys, s ∈ sharedPairs.vocabulary := by decide +kernel
    exact hall
  obtain ⟨_, _, hdone⟩ := eliminateUnits_under_closure sharedPairs foreignClosure hkeys
  obtain ⟨_, hstops, _⟩ :=
    eliminateUnits_under_closure sharedPairs (foreignClosure.erase ⟨'B'⟩) hkeys
  refine ⟨?_, (hstops _).mpr ⟨[⟨'A'⟩], ⟨'B'⟩, [⟨'C'⟩, ⟨'B'⟩], ?_⟩⟩
  · have hlisted : ∀ p ∈ sharedPairs.productions, ∀ s ∈ p.2, s ∈ sharedPairs.vocabulary →
        s ∈ foreignClosure := by decide +kernel
    obtain ⟨g₃, hg₃, _, _, _, hkeys₃, halternatives⟩ := hdone fun lhs rhs hrhs _ s hs =>
      hlisted (lhs, rhs) (mem_productions_iff.mpr hrhs) s hs
    have hleft : g₃.rules.keys = [⟨'S'⟩, ⟨'B'⟩, ⟨'C'⟩] := by
      rw [hkeys₃]
      decide +kernel
    refine ⟨g₃, hg₃, hleft, ?_⟩
    rw [halternatives ⟨'S'⟩ (OrderedMap.mem_keys.mp (hleft ▸ List.mem_cons_self ..))]
    decide +kernel
  · decide +kernel

end Grammar

end ChomskyForm
