import ChomskyForm.NormalForm.Binary
import ChomskyForm.NormalForm.Shape
import ChomskyForm.Proofs.Coherence
import ChomskyForm.Proofs.Outcome
import ChomskyForm.Proofs.Rebuild
import ChomskyForm.Proofs.Simulation

/-!
# Cutting long right sides

The productions of a binary grammar are the links of one chain for each production before
(`binarize_planned`).  Reading a drawn letter as the rest of the right side that it stands for turns
every link back into a piece of its production, which makes the words of all nonterminals the same
before and after (`Cut.generates_iff`).
-/

namespace ChomskyForm

/-! ### Chains of links -/

/-- The letters `ls` are as many as it takes to cut a right side. -/
inductive CutBy : RightSide → List Symbol → Prop
  | short {rhs : RightSide} (length : rhs.length ≤ 2) : CutBy rhs []
  | long {a b c l : Symbol} {rest : RightSide} {ls : List Symbol}
      (tail : CutBy (b :: c :: rest) ls) : CutBy (a :: b :: c :: rest) (l :: ls)

/-- The links into which a right side of `head` is cut with the given letters. -/
def chain (head : Symbol) : RightSide → List Symbol → List Production
  | a :: b :: c :: rest, l :: ls => (head, [a, l]) :: chain l (b :: c :: rest) ls
  | short, _ => [(head, short)]

/-- The right side that takes the place of one that is cut. -/
def firstLink : RightSide → List Symbol → RightSide
  | a :: _ :: _ :: _, l :: _ => [a, l]
  | short, _ => short

/-- The links after the first. -/
def laterLinks : RightSide → List Symbol → List Production
  | _ :: b :: c :: rest, l :: ls => chain l (b :: c :: rest) ls
  | _, _ => []

/-- What each letter of a chain stands for. -/
def suffixes : RightSide → List Symbol → List (Symbol × RightSide)
  | _ :: b :: c :: rest, l :: ls => (l, b :: c :: rest) :: suffixes (b :: c :: rest) ls
  | _, _ => []

theorem chain_nil (head : Symbol) (rhs : RightSide) : chain head rhs [] = [(head, rhs)] := by
  match rhs with
  | [] | [_] | [_, _] | _ :: _ :: _ :: _ => rfl

theorem chain_eq_cons (head : Symbol) (rhs : RightSide) (ls : List Symbol) :
    chain head rhs ls = (head, firstLink rhs ls) :: laterLinks rhs ls := by
  match rhs, ls with
  | [], _ | [_], _ | [_, _], _ | _ :: _ :: _ :: _, [] | _ :: _ :: _ :: _, _ :: _ => rfl

theorem suffixes_nil (rhs : RightSide) : suffixes rhs [] = [] := by
  match rhs with
  | [] | [_] | [_, _] | _ :: _ :: _ :: _ => rfl

namespace CutBy

variable {rhs : RightSide} {ls : List Symbol}

theorem length_eq (hc : CutBy rhs ls) : ls.length = rhs.length - 2 := by
  induction hc with
  | short hshort =>
    rw [List.length_nil]
    omega
  | long _ ih =>
    simp only [List.length_cons] at ih ⊢
    omega

theorem map_fst_chain (hc : CutBy rhs ls) (head : Symbol) :
    (chain head rhs ls).map Prod.fst = head :: ls := by
  induction hc generalizing head with
  | short _ => rw [chain_nil, List.map_singleton]
  | @long a b c l rest ls _ ih => rw [chain, List.map_cons, ih]

theorem map_fst_laterLinks (hc : CutBy rhs ls) : (laterLinks rhs ls).map Prod.fst = ls := by
  have hmap := hc.map_fst_chain Symbol.marker
  rw [chain_eq_cons, List.map_cons] at hmap
  exact (List.cons.inj hmap).2

theorem map_fst_suffixes (hc : CutBy rhs ls) : (suffixes rhs ls).map Prod.fst = ls := by
  induction hc with
  | short _ => rw [suffixes_nil, List.map_nil]
  | long _ ih => rw [suffixes, List.map_cons, ih]

/-- A chain is the production itself, or all its links have two symbols. -/
theorem chain_shape (hc : CutBy rhs ls) {head h : Symbol} {r : RightSide}
    (hmem : (h, r) ∈ chain head rhs ls) :
    (r = rhs ∧ rhs.length ≤ 2) ∨ (2 < rhs.length ∧ r.length = 2 ∧ ∀ t ∈ r, t ∈ rhs ∨ t ∈ ls) := by
  induction hc generalizing head with
  | short hshort =>
    rw [chain_nil, List.mem_singleton] at hmem
    cases hmem
    exact Or.inl ⟨rfl, hshort⟩
  | @long a b c l rest ls _ ih =>
    have hlong : 2 < (a :: b :: c :: rest).length := by
      simp only [List.length_cons]
      omega
    rw [chain] at hmem
    right
    rcases List.mem_cons.mp hmem with heq | hmem
    · cases heq
      refine ⟨hlong, rfl, fun t ht => ?_⟩
      rcases List.mem_cons.mp ht with ht | ht
      · exact Or.inl (List.mem_cons.mpr (Or.inl ht))
      · exact Or.inr (List.mem_cons.mpr (Or.inl (List.mem_singleton.mp ht)))
    · rcases ih hmem with ⟨hr, hshort⟩ | ⟨_, htwo, hsub⟩
      · have hrest : r.length = 2 := by
          rw [hr]
          simp only [List.length_cons] at hshort ⊢
          omega
        refine ⟨hlong, hrest, fun t ht => ?_⟩
        rw [hr] at ht
        exact Or.inl (List.mem_cons_of_mem _ ht)
      · refine ⟨hlong, htwo, fun t ht => ?_⟩
        rcases hsub t ht with ht | ht
        · exact Or.inl (List.mem_cons_of_mem _ ht)
        · exact Or.inr (List.mem_cons_of_mem _ ht)

/-- If all links are there, the head of a chain derives what the whole right side derives. -/
theorem yields_head {N : Symbol → Prop} {rules : RuleTable} (hc : CutBy rhs ls) {head : Symbol}
    {w : List Symbol} (hlinks : ∀ p ∈ chain head rhs ls, p.2 ∈ rules.alternatives p.1)
    (hexp : ∀ s ∈ head :: ls, N s) (h : Yields N rules rhs w) : Yields N rules [head] w := by
  induction hc generalizing head w with
  | @short rhs _ =>
    have hrule := hlinks (head, rhs) (by rw [chain_nil]; exact List.mem_singleton.mpr rfl)
    exact .of_alternative (hexp head (List.mem_cons_self ..)) hrule h
  | @long a b c l rest ls _ ih =>
    rw [chain] at hlinks
    obtain ⟨u, v, hw, hu, hv⟩ := yields_cons_iff.mp h
    have htail : Yields N rules [l] v :=
      ih (fun p hp => hlinks p (List.mem_cons_of_mem _ hp))
        (fun s hs => hexp s (List.mem_cons_of_mem _ hs)) hv
    have hrule := hlinks (head, [a, l]) (List.mem_cons_self ..)
    rw [hw]
    exact .of_alternative (hexp head (List.mem_cons_self ..)) hrule (hu.append htail)

/-- Reading each letter as its suffix turns a link back into the piece it was cut from. -/
theorem flatMap_link (hc : CutBy rhs ls) {φ : Symbol → RightSide} {head h : Symbol} {r : RightSide}
    (hφ : ∀ e ∈ suffixes rhs ls, φ e.1 = e.2) (hself : ∀ t ∈ rhs, φ t = [t])
    (hmem : (h, r) ∈ chain head rhs ls) :
    (h = head ∧ r.flatMap φ = rhs) ∨ (h ∈ ls ∧ r.flatMap φ = φ h) := by
  induction hc generalizing head with
  | short _ =>
    rw [chain_nil, List.mem_singleton] at hmem
    cases hmem
    refine Or.inl ⟨rfl, ?_⟩
    rw [List.flatMap_congr hself]
    exact List.flatMap_singleton' _
  | @long a b c l rest ls _ ih =>
    have hl : φ l = b :: c :: rest := hφ (l, b :: c :: rest) (List.mem_cons_self ..)
    rw [chain] at hmem
    rcases List.mem_cons.mp hmem with heq | hmem
    · cases heq
      refine Or.inl ⟨rfl, ?_⟩
      rw [List.flatMap_cons, List.flatMap_singleton, hself a (List.mem_cons_self ..), hl]
      rfl
    · have hrest := ih (fun e he => hφ e (List.mem_cons_of_mem _ he))
        (fun t ht => hself t (List.mem_cons_of_mem _ ht)) hmem
      right
      rcases hrest with ⟨hh, hr⟩ | ⟨hh, hr⟩
      · rw [hr, hh, hl]
        exact ⟨List.mem_cons_self .., rfl⟩
      · exact ⟨List.mem_cons_of_mem _ hh, hr⟩

end CutBy

/-- For each entry of a table the letters that its alternatives are cut with. -/
abbrev CutPlan := List (Symbol × List (RightSide × List Symbol))

namespace CutPlan

/-- Each production with its letters. -/
def cuts (plan : CutPlan) : List (Production × List Symbol) :=
  plan.flatMap fun e => e.2.map fun c => ((e.1, c.1), c.2)

/-- The entries with the first links alone. -/
def firstEntries (plan : CutPlan) : List (Symbol × List RightSide) :=
  plan.map fun e => (e.1, e.2.map fun c => firstLink c.1 c.2)

/-- The links that follow the table. -/
def waiting (plan : CutPlan) : List Production :=
  plan.cuts.flatMap fun c => laterLinks c.1.2 c.2

/-- The entries after all cuts. -/
def allEntries (plan : CutPlan) : List (Symbol × List RightSide) :=
  plan.firstEntries ++ plan.waiting.map fun p => (p.1, [p.2])

variable {plan : CutPlan} {lhs : Symbol} {copied : List (RightSide × List Symbol)}

theorem cuts_key : cuts (plan ++ [(lhs, [])]) = plan.cuts := by
  rw [cuts, List.flatMap_append, List.flatMap_singleton, List.map_nil, List.append_nil, cuts]

theorem cuts_alternative (c : RightSide × List Symbol) :
    cuts (plan ++ [(lhs, copied ++ [c])]) = cuts (plan ++ [(lhs, copied)]) ++ [((lhs, c.1), c.2)] := by
  simp only [cuts, List.flatMap_append, List.flatMap_singleton, List.map_append, List.append_assoc,
    List.map_cons, List.map_nil]

theorem firstEntries_concat : firstEntries (plan ++ [(lhs, copied)]) =
    plan.firstEntries ++ [(lhs, copied.map fun c => firstLink c.1 c.2)] := by
  rw [firstEntries, List.map_append]
  rfl

/-- The heads of the links that wait are the letters in the order in which they were drawn. -/
theorem map_fst_waiting (hletters : ∀ c ∈ plan.cuts, CutBy c.1.2 c.2) :
    plan.waiting.map Prod.fst = plan.cuts.flatMap Prod.snd := by
  rw [waiting, List.map_flatMap]
  exact List.flatMap_congr fun c hc => (hletters c hc).map_fst_laterLinks

theorem map_fst_allEntries (hletters : ∀ c ∈ plan.cuts, CutBy c.1.2 c.2) :
    plan.allEntries.map Prod.fst = plan.map Prod.fst ++ plan.cuts.flatMap Prod.snd := by
  rw [allEntries, List.map_append, firstEntries, List.map_map, List.map_map,
    ← map_fst_waiting hletters]
  rfl

theorem map_fst_eq_keys {rules : RuleTable}
    (h : plan.map (fun e => (e.1, e.2.map Prod.fst)) = rules.entries) :
    plan.map Prod.fst = rules.keys := by
  rw [OrderedMap.keys, ← h, List.map_map]
  rfl

theorem exists_cuts_iff {P : Symbol → RightSide → List Symbol → Prop} :
    (∃ c ∈ plan.cuts, P c.1.1 c.1.2 c.2) ↔ ∃ e ∈ plan, ∃ c ∈ e.2, P e.1 c.1 c.2 := by
  simp only [cuts, List.mem_flatMap, List.mem_map]
  constructor
  · rintro ⟨_, ⟨e, he, c, hc, rfl⟩, hP⟩
    exact ⟨e, he, c, hc, hP⟩
  · rintro ⟨e, he, c, hc, hP⟩
    exact ⟨_, ⟨e, he, c, hc, rfl⟩, hP⟩

/-- The alternatives in the entries are the links of all chains. -/
theorem exists_allEntries_iff {s : Symbol} {rhs : RightSide} :
    (∃ e ∈ plan.allEntries, e.1 = s ∧ rhs ∈ e.2) ↔
      ∃ c ∈ plan.cuts, (s, rhs) ∈ chain c.1.1 c.1.2 c.2 := by
  have hfirst : (∃ e ∈ plan.firstEntries, e.1 = s ∧ rhs ∈ e.2) ↔
      ∃ c ∈ plan.cuts, (s, rhs) = (c.1.1, firstLink c.1.2 c.2) := by
    rw [exists_cuts_iff (P := fun lhs whole ls => (s, rhs) = (lhs, firstLink whole ls))]
    simp only [firstEntries, List.mem_map, Prod.mk.injEq]
    constructor
    · rintro ⟨_, ⟨e, he, rfl⟩, rfl, hrhs⟩
      obtain ⟨c, hc, rfl⟩ := List.mem_map.mp hrhs
      exact ⟨e, he, c, hc, rfl, rfl⟩
    · rintro ⟨e, he, c, hc, rfl, rfl⟩
      exact ⟨_, ⟨e, he, rfl⟩, rfl, List.mem_map_of_mem hc⟩
  have hlater : (∃ e ∈ plan.waiting.map fun p => (p.1, [p.2]), e.1 = s ∧ rhs ∈ e.2) ↔
      ∃ c ∈ plan.cuts, (s, rhs) ∈ laterLinks c.1.2 c.2 := by
    rw [← List.mem_flatMap]
    constructor
    · rintro ⟨_, he, rfl, hrhs⟩
      obtain ⟨p, hp, rfl⟩ := List.mem_map.mp he
      rw [List.mem_singleton.mp hrhs]
      exact hp
    · intro hp
      exact ⟨_, List.mem_map_of_mem hp, rfl, List.mem_singleton.mpr rfl⟩
  simp only [chain_eq_cons, List.mem_cons, and_or_left, exists_or]
  rw [← hfirst, ← hlater]
  simp only [allEntries, List.mem_append, or_and_right, exists_or]

end CutPlan

/-! ### What the stage does -/

namespace Grammar

/-- The grammar `g₁` has the chains of `cuts`, which name each production of `g` with the letters
that it was cut with. -/
structure Cut (g g₁ : Grammar) (cuts : List (Production × List Symbol)) : Prop where
  productions : cuts.map Prod.fst = g.productions
  letters : ∀ c ∈ cuts, CutBy c.1.2 c.2
  pool : g.pool.letters = cuts.flatMap Prod.snd ++ g₁.pool.letters
  start : g₁.start = g.start
  alternatives : ∀ s rhs, rhs ∈ g₁.alternatives s ↔ ∃ c ∈ cuts, (s, rhs) ∈ chain c.1.1 c.1.2 c.2
  keys : ∀ s, s ∈ g₁.rules ↔ s ∈ g.rules ∨ s ∈ cuts.flatMap Prod.snd
  vocabulary : ∀ s, s ∈ g₁.vocabulary ↔
    s ∈ g.vocabulary ∨ s ∈ cuts.flatMap Prod.snd ∨ s ∈ g.productions.map Prod.fst

/-- The table is exactly that of a plan for the table of `g`. -/
structure PlannedCut (g g₁ : Grammar) (plan : CutPlan) : Prop extends Cut g g₁ plan.cuts where
  entries : plan.map (fun e => (e.1, e.2.map Prod.fst)) = g.rules.entries
  rules : g₁.rules = RuleTable.ofEntries plan.allEntries

theorem exists_cons_of_two_lt {rhs : RightSide} (h : 2 < rhs.length) :
    ∃ a b c rest, rhs = a :: b :: c :: rest := by
  match rhs with
  | [] | [_] | [_, _] =>
    simp only [List.length_cons, List.length_nil] at h
    omega
  | a :: b :: c :: rest => exact ⟨a, b, c, rest, rfl⟩

theorem chainFrom_of_length_le {rest : RightSide} (h : rest.length ≤ 2) (lhs : Symbol)
    (whole : RightSide) (head : Symbol) (g : Grammar) :
    chainFrom lhs whole head rest g = pure (g, [(head, rest)]) := by
  match rest with
  | [] | [_] | [_, _] => rfl
  | _ :: _ :: _ :: _ =>
    simp only [List.length_cons] at h
    omega

theorem addCut_of_length_le {rhs : RightSide} (h : rhs.length ≤ 2) (g : Grammar) (lhs : Symbol) :
    g.addCut lhs rhs = pure (g.add lhs rhs, []) := by
  match rhs with
  | [] | [_] | [_, _] => rfl
  | _ :: _ :: _ :: _ =>
    simp only [List.length_cons] at h
    omega

theorem chainFrom_chain {lhs head : Symbol} {whole rest : RightSide} {g g' : Grammar}
    {links : List Production} (h : (chainFrom lhs whole head rest g).outcome = .ok (g', links)) :
    ∃ ls, CutBy rest ls ∧ links = chain head rest ls ∧ g.Drew ls g' := by
  induction rest generalizing head g links with
  | nil =>
    cases h
    exact ⟨[], .short (Nat.zero_le _), rfl, .refl _⟩
  | cons a tail ih =>
    by_cases hshort : (a :: tail).length ≤ 2
    · rw [chainFrom_of_length_le hshort] at h
      cases h
      exact ⟨[], .short hshort, (chain_nil ..).symm, .refl _⟩
    · match tail with
      | [] | [_] =>
        simp only [List.length_cons, List.length_nil] at hshort
        omega
      | b :: c :: rest =>
        obtain ⟨⟨letter, g₁⟩, hdraw, hnext⟩ := Noted.outcome_bind_eq_ok_iff.mp h
        obtain ⟨⟨g₂, links₂⟩, hrest, hpure⟩ := Noted.outcome_bind_eq_ok_iff.mp hnext
        cases hpure
        obtain ⟨ls, hcut, hlinks, hdrew⟩ := ih hrest
        refine ⟨letter :: ls, .long hcut, ?_, (drew_of_drawFor hdraw).trans hdrew⟩
        rw [chain, hlinks]

/-- One alternative: its first link is added, and the other links wait. -/
theorem addCut_chain {lhs : Symbol} {rhs : RightSide} {g g' : Grammar} {links : List Production}
    (h : (g.addCut lhs rhs).outcome = .ok (g', links)) :
    ∃ ls, CutBy rhs ls ∧ links = laterLinks rhs ls ∧ g'.start = g.start ∧
      g'.rules = g.rules.add lhs (firstLink rhs ls) ∧ g.pool.letters = ls ++ g'.pool.letters ∧
      ∀ s, s ∈ g'.vocabulary ↔ s ∈ g.vocabulary ∨ s ∈ ls ∨ s = lhs := by
  by_cases hshort : rhs.length ≤ 2
  · have hchain := chain_eq_cons lhs rhs []
    rw [chain_nil, List.cons.injEq, Prod.mk.injEq] at hchain
    obtain ⟨⟨_, hfirst⟩, hlinks⟩ := hchain
    rw [addCut_of_length_le hshort] at h
    cases h
    refine ⟨[], .short hshort, hlinks, rfl, ?_, rfl, fun s => ?_⟩
    · rw [← hfirst]
      rfl
    · simp only [add, OrderedSet.mem_insert, List.not_mem_nil, false_or]
  · obtain ⟨a, b, c, rest, rfl⟩ := exists_cons_of_two_lt (Nat.lt_of_not_le hshort)
    obtain ⟨⟨letter, g₁⟩, hdraw, hnext⟩ := Noted.outcome_bind_eq_ok_iff.mp h
    have hfirst := drew_of_drawFor hdraw
    obtain ⟨ls, hcut, hlinks, hdrew⟩ := chainFrom_chain hnext
    refine ⟨letter :: ls, .long hcut, hlinks, ?_, ?_, ?_, fun s => ?_⟩
    · rw [hdrew.start]
      exact hfirst.start
    · rw [hdrew.rules, ← hfirst.rules]
      rfl
    · rw [hfirst.pool, List.cons_append, List.cons_append, List.nil_append]
      exact congrArg _ hdrew.pool
    · rw [hdrew.mem_vocabulary, mem_vocabulary_add, hfirst.mem_vocabulary, List.mem_singleton,
        List.mem_cons]
      simp only [or_assoc, or_comm, or_left_comm]

/-! The state of the work: the table so far, the links that wait, and how the productions seen so
far were cut. -/

structure Cutting (g : Grammar) (plan : CutPlan) (state : Grammar × List Production) : Prop where
  letters : ∀ c ∈ plan.cuts, CutBy c.1.2 c.2
  pool : g.pool.letters = plan.cuts.flatMap Prod.snd ++ state.1.pool.letters
  start : state.1.start = g.start
  rules : state.1.rules = RuleTable.ofEntries plan.firstEntries
  links : state.2 = plan.waiting
  vocabulary : ∀ s, s ∈ state.1.vocabulary ↔
    s ∈ g.vocabulary ∨ s ∈ plan.cuts.flatMap Prod.snd ∨ s ∈ (plan.cuts.map Prod.fst).map Prod.fst

theorem Cutting.withKey {g : Grammar} {plan : CutPlan} {state : Grammar × List Production}
    (h : Cutting g plan state) (lhs : Symbol) :
    Cutting g (plan ++ [(lhs, [])])
      ({ state.1 with rules := state.1.rules.withKey lhs }, state.2) := by
  refine ⟨?_, ?_, h.start, ?_, ?_, ?_⟩
  · rw [CutPlan.cuts_key]
    exact h.letters
  · rw [CutPlan.cuts_key]
    exact h.pool
  · rw [CutPlan.firstEntries_concat, List.map_nil, RuleTable.ofEntries_key, ← h.rules]
  · rw [CutPlan.waiting, CutPlan.cuts_key]
    exact h.links
  · rw [CutPlan.cuts_key]
    exact h.vocabulary

theorem Cutting.addCut {g g' : Grammar} {plan : CutPlan} {lhs : Symbol}
    {copied : List (RightSide × List Symbol)} {state : Grammar × List Production}
    (h : Cutting g (plan ++ [(lhs, copied)]) state) {rhs : RightSide} {links : List Production}
    (hadd : (state.1.addCut lhs rhs).outcome = .ok (g', links)) :
    ∃ ls, Cutting g (plan ++ [(lhs, copied ++ [(rhs, ls)])]) (g', state.2 ++ links) := by
  obtain ⟨ls, hcut, hlinks, hstart, hrules, hpool, hvocabulary⟩ := addCut_chain hadd
  have hcuts : CutPlan.cuts (plan ++ [(lhs, copied ++ [(rhs, ls)])]) =
      CutPlan.cuts (plan ++ [(lhs, copied)]) ++ [((lhs, rhs), ls)] :=
    CutPlan.cuts_alternative (rhs, ls)
  have hdrawn : (CutPlan.cuts (plan ++ [(lhs, copied ++ [(rhs, ls)])])).flatMap Prod.snd =
      (CutPlan.cuts (plan ++ [(lhs, copied)])).flatMap Prod.snd ++ ls := by
    rw [hcuts, List.flatMap_append, List.flatMap_singleton]
  refine ⟨ls, ?_, ?_, hstart.trans h.start, ?_, ?_, ?_⟩
  · rw [hcuts]
    intro c hc
    rcases List.mem_append.mp hc with hc | hc
    · exact h.letters c hc
    · rw [List.mem_singleton.mp hc]
      exact hcut
  · rw [hdrawn, h.pool, hpool, List.append_assoc]
  · rw [CutPlan.firstEntries_concat, List.map_append, List.map_singleton,
      RuleTable.ofEntries_alternative, ← CutPlan.firstEntries_concat, ← h.rules, hrules]
  · rw [CutPlan.waiting, hcuts, List.flatMap_append, List.flatMap_singleton, h.links, hlinks]
    rfl
  · intro s
    rw [hdrawn, hvocabulary, h.vocabulary, hcuts, List.map_append, List.map_append,
      List.mem_append, List.mem_append, List.map_singleton, List.map_singleton, List.mem_singleton]
    simp only [or_assoc, or_comm, or_left_comm]

/-- When the links that wait are added, the plan is carried out. -/
theorem Cutting.planned {g : Grammar} {plan : CutPlan} {state : Grammar × List Production}
    (h : Cutting g plan state)
    (hentries : plan.map (fun e => (e.1, e.2.map Prod.fst)) = g.rules.entries) :
    PlannedCut g (state.1.addAll state.2) plan := by
  have hproductions : plan.cuts.map Prod.fst = g.productions := by
    rw [productions, RuleTable.productions, ← hentries, List.flatMap_map, CutPlan.cuts,
      List.map_flatMap]
    refine List.flatMap_congr fun e _ => ?_
    rw [List.map_map, List.map_map]
    rfl
  have hrules : (state.1.addAll state.2).rules = RuleTable.ofEntries plan.allEntries := by
    rw [rules_addAll, h.rules, h.links, RuleTable.foldl_add_ofEntries, CutPlan.allEntries]
  have hheads := CutPlan.map_fst_waiting h.letters
  refine ⟨⟨hproductions, h.letters, ?_, ?_, ?_, ?_, ?_⟩, hentries, hrules⟩
  · rw [pool_addAll]
    exact h.pool
  · rw [start_addAll]
    exact h.start
  · intro s rhs
    rw [alternatives, hrules, RuleTable.mem_alternatives_ofEntries, CutPlan.exists_allEntries_iff]
  · intro s
    rw [hrules, RuleTable.mem_ofEntries, CutPlan.map_fst_allEntries h.letters, List.mem_append,
      CutPlan.map_fst_eq_keys hentries, OrderedMap.mem_keys]
  · intro s
    rw [mem_vocabulary_addAll, h.vocabulary, h.links, hheads, hproductions]
    exact or_iff_left_of_imp fun hs => Or.inr (Or.inl hs)

theorem binarize_planned {g g₁ : Grammar} (h : g.binarize.outcome = .ok g₁) :
    ∃ plan, PlannedCut g g₁ plan := by
  obtain ⟨⟨cut, links⟩, hfold, hpure⟩ := Noted.outcome_bind_eq_ok_iff.mp h
  cases hpure
  obtain ⟨plan, hentries, hcutting⟩ := Noted.rebuild_trace
    (fun lhs (state : Grammar × List Production) =>
      ({ state.1 with rules := state.1.rules.withKey lhs }, state.2))
    (fun lhs state rhs => do
      let next ← state.1.addCut lhs rhs
      pure (next.1, state.2 ++ next.2))
    Prod.fst (P := Cutting g)
    (fun plan state lhs hstate => hstate.withKey lhs)
    (fun plan copied state state' lhs rhs _ hstate hcopy => by
      obtain ⟨⟨g', links⟩, hadd, hpure⟩ := Noted.outcome_bind_eq_ok_iff.mp hcopy
      cases hpure
      obtain ⟨ls, hnext⟩ := hstate.addCut hadd
      exact ⟨(rhs, ls), rfl, hnext⟩)
    ⟨fun c hc => absurd hc List.not_mem_nil, rfl, rfl, rfl, rfl, fun s => by
      simp only [CutPlan.cuts, List.flatMap_nil, List.map_nil, List.not_mem_nil, or_false]⟩
    hfold
  exact ⟨plan, hcutting.planned hentries⟩

theorem binarize_cut {g g₁ : Grammar} (h : g.binarize.outcome = .ok g₁) :
    ∃ cuts, Cut g g₁ cuts := by
  obtain ⟨plan, hplan⟩ := binarize_planned h
  exact ⟨plan.cuts, hplan.toCut⟩

/-! ### What it keeps -/

namespace Cut

variable {g g₁ : Grammar} {cuts : List (Production × List Symbol)}

theorem exists_of_mem_alternatives (h : Cut g g₁ cuts) {lhs : Symbol} {rhs : RightSide}
    (hrhs : rhs ∈ g.alternatives lhs) : ∃ ls, ((lhs, rhs), ls) ∈ cuts := by
  rw [← mem_productions_iff, ← h.productions, List.mem_map] at hrhs
  obtain ⟨⟨p, ls⟩, hc, hp⟩ := hrhs
  cases hp
  exact ⟨ls, hc⟩

theorem mem_alternatives_of_mem (h : Cut g g₁ cuts) {c : Production × List Symbol}
    (hc : c ∈ cuts) : c.1.2 ∈ g.alternatives c.1.1 := by
  rw [← mem_productions_iff, ← h.productions]
  exact List.mem_map_of_mem hc

theorem mem_vocabulary_iff (h : Cut g g₁ cuts) (hkeys : ∀ s ∈ g.rules, s ∈ g.vocabulary)
    {s : Symbol} : s ∈ g₁.vocabulary ↔ s ∈ g.vocabulary ∨ s ∈ cuts.flatMap Prod.snd := by
  rw [h.vocabulary]
  constructor
  · intro hs
    rcases hs with hs | hs | hs
    · exact Or.inl hs
    · exact Or.inr hs
    · obtain ⟨p, hp, rfl⟩ := List.mem_map.mp hs
      exact Or.inl (hkeys p.1 (mem_of_mem_alternatives (mem_productions_iff.mp hp)))
  · intro hs
    rcases hs with hs | hs
    · exact Or.inl hs
    · exact Or.inr (Or.inl hs)

/-- A right side is an old one, or it has two symbols of an old one or of the drawn letters. -/
theorem shape (h : Cut g g₁ cuts) {s : Symbol} {rhs : RightSide}
    (hrhs : rhs ∈ g₁.alternatives s) :
    ∃ p ∈ g.productions, (rhs = p.2 ∧ rhs.length ≤ 2) ∨
      (2 < p.2.length ∧ rhs.length = 2 ∧ ∀ t ∈ rhs, t ∈ p.2 ∨ t ∈ cuts.flatMap Prod.snd) := by
  obtain ⟨c, hc, hlink⟩ := (h.alternatives s rhs).mp hrhs
  refine ⟨c.1, mem_productions_iff.mpr (h.mem_alternatives_of_mem hc), ?_⟩
  rcases (h.letters c hc).chain_shape hlink with ⟨hr, hshort⟩ | ⟨hlong, htwo, hsub⟩
  · rw [hr]
    exact Or.inl ⟨rfl, hshort⟩
  · refine Or.inr ⟨hlong, htwo, fun t ht => ?_⟩
    rcases hsub t ht with ht | ht
    · exact Or.inl ht
    · exact Or.inr (List.mem_flatMap.mpr ⟨c, hc, ht⟩)

theorem uses (h : Cut g g₁ cuts) {s : Symbol} (hs : g₁.Uses s) :
    g.Uses s ∨ s ∈ cuts.flatMap Prod.snd := by
  obtain ⟨lhs, rhs, hrhs, hmem⟩ := hs
  obtain ⟨p, hp, ⟨hr, _⟩ | ⟨_, _, hsub⟩⟩ := h.shape hrhs
  · rw [hr] at hmem
    exact Or.inl (uses_of_mem (mem_productions_iff.mp hp) hmem)
  · rcases hsub s hmem with hmem | hmem
    · exact Or.inl (uses_of_mem (mem_productions_iff.mp hp) hmem)
    · exact Or.inr hmem

theorem mem_pool_of_mem_drawn (h : Cut g g₁ cuts) {s : Symbol} (hs : s ∈ cuts.flatMap Prod.snd) :
    s ∈ g.pool.letters := by
  rw [h.pool]
  exact List.mem_append_left _ hs

theorem mem_pool_of_mem_pool (h : Cut g g₁ cuts) {s : Symbol} (hs : s ∈ g₁.pool.letters) :
    s ∈ g.pool.letters := by
  rw [h.pool]
  exact List.mem_append_right _ hs

theorem madeFrom (h : Cut g g₁ cuts) (hkeys : ∀ s ∈ g.rules, s ∈ g.vocabulary) :
    MadeFrom g (cuts.flatMap Prod.snd) g₁ where
  start := h.start
  pool := h.pool
  keys s hs := by
    rw [h.mem_vocabulary_iff hkeys]
    exact ((h.keys s).mp hs).imp_left (hkeys s)
  vocabulary _ hs := (h.mem_vocabulary_iff hkeys).mp hs
  uses _ hs := (h.uses hs).imp_right Or.inr

theorem coherent (h : Cut g g₁ cuts) (hg : g.Coherent) : g₁.Coherent :=
  hg.of_madeFrom (h.madeFrom hg.keys)

theorem start_mem (h : Cut g g₁ cuts) (hstart : g.start ∈ g.rules) : g₁.start ∈ g₁.rules := by
  rw [h.start, h.keys]
  exact Or.inl hstart

theorem isBinary (h : Cut g g₁ cuts) (hmarker : g.MarkerAlone) : g₁.IsBinary := by
  rw [isBinary_iff]
  intro s rhs hrhs
  obtain ⟨p, hp, ⟨hr, hshort⟩ | ⟨_, htwo, _⟩⟩ := h.shape hrhs
  · have hne := (hmarker p.1 p.2 (mem_productions_iff.mp hp)).1
    rw [← hr] at hne
    have hpos := List.length_pos_iff.mpr hne
    omega
  · exact Or.inr htwo

theorem markerAlone (h : Cut g g₁ cuts) (hmarker : g.MarkerAlone) : g₁.MarkerAlone := by
  intro s rhs hrhs
  obtain ⟨p, hp, ⟨hr, _⟩ | ⟨hlong, htwo, hsub⟩⟩ := h.shape hrhs
  · rw [hr]
    exact hmarker p.1 p.2 (mem_productions_iff.mp hp)
  · refine ⟨List.ne_nil_of_length_pos (by omega), fun hmem => ?_⟩
    rcases hsub _ hmem with hmem | hmem
    · have halone := (hmarker p.1 p.2 (mem_productions_iff.mp hp)).2 hmem
      rw [halone, List.length_singleton] at hlong
      omega
    · exact absurd rfl (LetterPool.ne_marker (h.mem_pool_of_mem_drawn hmem))

/-! ### Words -/

/-- What each drawn letter stands for. -/
def standing (cuts : List (Production × List Symbol)) : List (Symbol × RightSide) :=
  cuts.flatMap fun c => suffixes c.1.2 c.2

theorem map_fst_standing (h : Cut g g₁ cuts) :
    (standing cuts).map Prod.fst = cuts.flatMap Prod.snd := by
  rw [standing, List.map_flatMap]
  exact List.flatMap_congr fun c hc => (h.letters c hc).map_fst_suffixes

theorem nodup_standing (h : Cut g g₁ cuts) : ((standing cuts).map Prod.fst).Nodup := by
  rw [h.map_fst_standing]
  exact LetterPool.nodup_of_letters_eq_append h.pool

/-- Reads a drawn letter as what it stands for, and any other symbol as itself. -/
def reading (h : Cut g g₁ cuts) (s : Symbol) : RightSide :=
  ((⟨standing cuts, h.nodup_standing⟩ : OrderedMap Symbol RightSide).get? s).getD [s]

theorem reading_of_mem (h : Cut g g₁ cuts) {e : Symbol × RightSide} (he : e ∈ standing cuts) :
    h.reading e.1 = e.2 := by
  have hget : (⟨standing cuts, h.nodup_standing⟩ : OrderedMap Symbol RightSide).get? e.1 =
      some e.2 := OrderedMap.mem_entries_iff.mp he
  rw [reading, hget, Option.getD_some]

theorem reading_of_not_mem (h : Cut g g₁ cuts) {s : Symbol} (hs : s ∉ cuts.flatMap Prod.snd) :
    h.reading s = [s] := by
  have hget : (⟨standing cuts, h.nodup_standing⟩ : OrderedMap Symbol RightSide).get? s = none := by
    rw [OrderedMap.get?_eq_none_iff, ← OrderedMap.mem_keys]
    show s ∉ (standing cuts).map Prod.fst
    rw [h.map_fst_standing]
    exact hs
  rw [reading, hget, Option.getD_none]

/-- A link is read as its production, or as the rest of one that its head stands for. -/
theorem flatMap_link (h : Cut g g₁ cuts) (hg : g.Supplied) {c : Production × List Symbol}
    (hc : c ∈ cuts) {s : Symbol} {rhs : RightSide} (hlink : (s, rhs) ∈ chain c.1.1 c.1.2 c.2) :
    (s = c.1.1 ∧ rhs.flatMap h.reading = c.1.2) ∨
      (s ∈ c.2 ∧ rhs.flatMap h.reading = h.reading s) := by
  refine (h.letters c hc).flatMap_link
    (fun e he => h.reading_of_mem (List.mem_flatMap.mpr ⟨c, hc, he⟩)) (fun t ht => ?_) hlink
  refine h.reading_of_not_mem fun hdrawn => ?_
  exact hg.not_mem_pool (h.mem_alternatives_of_mem hc) ht (h.mem_pool_of_mem_drawn hdrawn)

theorem yields_reading (h : Cut g g₁ cuts) (hg : g.Supplied) {α : RightSide} {w : List Symbol}
    (hw : Yields (· ∈ g₁.vocabulary) g₁.rules α w) :
    Yields (· ∈ g.vocabulary) g.rules (α.flatMap h.reading) w := by
  refine hw.expand ?_ ?_
  · intro s hs
    rw [h.mem_vocabulary_iff hg.keys, not_or] at hs
    rw [h.reading_of_not_mem hs.2]
    exact .of_fixed hs.1
  · intro s _ rhs hrhs u hu
    obtain ⟨c, hc, hlink⟩ := (h.alternatives s rhs).mp hrhs
    have hold := h.mem_alternatives_of_mem hc
    rcases h.flatMap_link hg hc hlink with ⟨hs, hr⟩ | ⟨_, hr⟩
    · have hexp := hg.mem_vocabulary hold
      have hself := h.reading_of_not_mem fun hdrawn =>
        hg.not_mem_pool_of_mem_vocabulary hexp (h.mem_pool_of_mem_drawn hdrawn)
      rw [hr] at hu
      rw [hs, hself]
      exact .of_alternative hexp hold hu
    · rw [hr] at hu
      exact hu

/-- Cutting keeps the words of every symbol that is not one of the drawn letters. -/
theorem generates_iff (h : Cut g g₁ cuts) (hg : g.Supplied) {s : Symbol}
    (hs : s ∉ g.pool.letters) {w : List Symbol} : g₁.Generates s w ↔ g.Generates s w := by
  constructor
  · intro hw
    have hread := h.yields_reading hg hw
    have hself := h.reading_of_not_mem fun hdrawn => hs (h.mem_pool_of_mem_drawn hdrawn)
    rw [List.flatMap_singleton, hself] at hread
    exact hread
  · intro hw
    refine Yields.transfer (Q := fun t => t ∉ g.pool.letters) ?_ ?_ ?_ hw ?_
    · intro lhs _ _ rhs hrhs t ht
      exact hg.not_mem_pool hrhs ht
    · intro t ht hfixed hmem
      rcases (h.mem_vocabulary_iff hg.keys).mp hmem with hmem | hmem
      · exact hfixed hmem
      · exact ht (h.mem_pool_of_mem_drawn hmem)
    · intro lhs _ hexp rhs hrhs u hu
      obtain ⟨ls, hc⟩ := h.exists_of_mem_alternatives hrhs
      refine (h.letters _ hc).yields_head ?_ ?_ hu
      · intro p hp
        exact (h.alternatives p.1 p.2).mpr ⟨_, hc, hp⟩
      · intro t ht
        rw [h.mem_vocabulary_iff hg.keys]
        rcases List.mem_cons.mp ht with ht | ht
        · rw [ht]
          exact Or.inl hexp
        · exact Or.inr (List.mem_flatMap.mpr ⟨_, hc, ht⟩)
    · intro t ht
      rw [List.mem_singleton.mp ht]
      exact hs

end Cut

end Grammar

end ChomskyForm
