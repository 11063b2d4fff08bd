import ChomskyForm.Proofs.Inlining
import ChomskyForm.Proofs.Stages.Binary
import Mathlib.Data.List.Perm.Basic

/-!
# Long right sides put together again

Where no alternative is repeated, the table of a binary grammar has the entries of the plan by which
it was cut, in their order (`PlannedCut.entries_eq`).  Each drawn letter is the last symbol of one
right side and stands nowhere else, and with the productions of the drawn letters in their places the
old table comes back (`uncut_binarize`).
-/

namespace ChomskyForm

/-! ### Chains of links -/

namespace CutBy

variable {rhs : RightSide} {ls : List Symbol}

/-- The rest of a right side that a letter stands for. -/
theorem length_of_mem_suffixes (hc : CutBy rhs ls) {e : Symbol × RightSide}
    (he : e ∈ suffixes rhs ls) : 2 ≤ e.2.length ∧ e.2.length < rhs.length := by
  induction hc with
  | short _ =>
    rw [suffixes_nil] at he
    exact absurd he List.not_mem_nil
  | @long a b c l rest ls _ ih =>
    rw [suffixes] at he
    rcases List.mem_cons.mp he with heq | he
    · rw [heq]
      simp only [List.length_cons]
      omega
    · obtain ⟨htwo, hlt⟩ := ih he
      exact ⟨htwo, Nat.lt_succ_of_lt hlt⟩

/-- The right side that takes the place of another. -/
theorem firstLink_cases (hc : CutBy rhs ls) :
    (rhs.length ≤ 2 → firstLink rhs ls = rhs) ∧
      (2 < rhs.length → ∃ l ∈ ls, firstLink rhs ls = rhs.take 1 ++ [l]) := by
  cases hc with
  | short hshort =>
    refine ⟨fun _ => ?_, fun hlong => absurd hshort (Nat.not_le.mpr hlong)⟩
    match rhs with
    | [] | [_] | [_, _] | _ :: _ :: _ :: _ => rfl
  | @long a b c l rest ls _ =>
    refine ⟨fun hshort => ?_, fun _ => ⟨l, List.mem_cons_self .., rfl⟩⟩
    simp only [List.length_cons] at hshort
    omega

/-- Each letter ends a link. -/
theorem exists_getLast? (hc : CutBy rhs ls) (head : Symbol) {l : Symbol} (hl : l ∈ ls) :
    ∃ p ∈ chain head rhs ls, p.2.getLast? = some l := by
  induction hc generalizing head with
  | short _ => exact absurd hl List.not_mem_nil
  | @long a b c l' rest ls _ ih =>
    rw [chain]
    rcases List.mem_cons.mp hl with heq | hl
    · rw [heq]
      exact ⟨_, List.mem_cons_self .., rfl⟩
    · obtain ⟨p, hp, hlast⟩ := ih l' hl
      exact ⟨p, List.mem_cons_of_mem _ hp, hlast⟩

/-- A chain has the symbols of the right side and each letter once. -/
theorem symbols_chain_perm (hc : CutBy rhs ls) (head : Symbol) :
    ((chain head rhs ls).flatMap Prod.snd).Perm (rhs ++ ls) := by
  induction hc generalizing head with
  | short _ => rw [chain_nil, List.flatMap_singleton, List.append_nil]
  | @long a b c l rest ls _ ih =>
    rw [chain, List.flatMap_cons, List.cons_append, List.cons_append]
    refine List.Perm.cons a ?_
    exact ((ih l).cons l).trans List.perm_middle.symm

end CutBy

/-! ### The table after the cuts -/

namespace Grammar

/-- What stands in the place of a right side: itself, or its first symbol and a drawn letter. -/
def TakesPlace (drawn : List Symbol) (rhs rhs' : RightSide) : Prop :=
  (rhs.length ≤ 2 → rhs' = rhs) ∧ (2 < rhs.length → ∃ l ∈ drawn, rhs' = rhs.take 1 ++ [l])

namespace PlannedCut

variable {g g₁ : Grammar} {plan : CutPlan} {s l : Symbol}

theorem map_fst (h : PlannedCut g g₁ plan) : plan.map Prod.fst = g.rules.keys :=
  CutPlan.map_fst_eq_keys h.entries

theorem alternatives_of_mem (h : PlannedCut g g₁ plan) {e : Symbol × List (RightSide × List Symbol)}
    (he : e ∈ plan) : g.alternatives e.1 = e.2.map Prod.fst := by
  have hentry : (e.1, e.2.map Prod.fst) ∈ g.rules.entries := by
    rw [← h.entries]
    exact List.mem_map_of_mem he
  exact RuleTable.alternatives_of_mem_entries hentry

theorem mem_cuts {e : Symbol × List (RightSide × List Symbol)} (he : e ∈ plan)
    {c : RightSide × List Symbol} (hc : c ∈ e.2) : ((e.1, c.1), c.2) ∈ plan.cuts :=
  List.mem_flatMap.mpr ⟨e, he, List.mem_map_of_mem hc⟩

theorem not_mem_drawn (h : PlannedCut g g₁ plan) (hg : g.Supplied) (hs : s ∈ g.vocabulary) :
    s ∉ plan.cuts.flatMap Prod.snd := fun hdrawn =>
  hg.not_mem_pool_of_mem_vocabulary hs (h.mem_pool_of_mem_drawn hdrawn)

theorem flatMap_firstLink (h : PlannedCut g g₁ plan) (hg : g.Supplied)
    {c : Production × List Symbol} (hc : c ∈ plan.cuts) :
    (firstLink c.1.2 c.2).flatMap h.reading = c.1.2 := by
  have hlink : (c.1.1, firstLink c.1.2 c.2) ∈ chain c.1.1 c.1.2 c.2 := by
    rw [chain_eq_cons]
    exact List.mem_cons_self ..
  rcases h.flatMap_link hg hc hlink with ⟨_, hr⟩ | ⟨hdrawn, _⟩
  · exact hr
  · have hhead := hg.mem_vocabulary (h.mem_alternatives_of_mem hc)
    exact absurd (List.mem_flatMap.mpr ⟨c, hc, hdrawn⟩) (h.not_mem_drawn hg hhead)

theorem flatMap_laterLink (h : PlannedCut g g₁ plan) (hg : g.Supplied)
    {c : Production × List Symbol} (hc : c ∈ plan.cuts) {p : Production}
    (hp : p ∈ laterLinks c.1.2 c.2) : p.2.flatMap h.reading = h.reading p.1 := by
  have hlink : (p.1, p.2) ∈ chain c.1.1 c.1.2 c.2 := by
    rw [chain_eq_cons]
    exact List.mem_cons_of_mem _ hp
  rcases h.flatMap_link hg hc hlink with ⟨hhead, _⟩ | ⟨_, hr⟩
  · have hletter : p.1 ∈ c.2 := by
      rw [← (h.letters c hc).map_fst_laterLinks]
      exact List.mem_map_of_mem hp
    have hold := hg.mem_vocabulary (h.mem_alternatives_of_mem hc)
    rw [← hhead] at hold
    exact absurd (List.mem_flatMap.mpr ⟨c, hc, hletter⟩) (h.not_mem_drawn hg hold)
  · exact hr

theorem readsAs (h : PlannedCut g g₁ plan) (hg : g.Supplied) :
    RuleTable.ReadsAs h.reading plan.firstEntries g.rules := by
  rw [RuleTable.ReadsAs, ← h.entries, CutPlan.firstEntries, List.map_map]
  refine List.map_congr_left fun e he => Prod.ext rfl ?_
  show (e.2.map fun c => firstLink c.1 c.2).map (fun rhs => rhs.flatMap h.reading) =
    e.2.map Prod.fst
  rw [List.map_map]
  exact List.map_congr_left fun c hc => h.flatMap_firstLink hg (mem_cuts he hc)

/-- The letters head the links that wait. -/
theorem map_fst_added (h : PlannedCut g g₁ plan) :
    (plan.waiting.map fun p => (p.1, [p.2])).map Prod.fst = plan.cuts.flatMap Prod.snd := by
  rw [← CutPlan.map_fst_waiting h.letters, List.map_map]
  rfl

theorem not_mem_rules (h : PlannedCut g g₁ plan) (hg : g.Supplied)
    (hl : l ∈ plan.cuts.flatMap Prod.snd) : l ∉ g.rules :=
  fun hmem => h.not_mem_drawn hg (hg.keys l hmem) hl

theorem entries_eq (h : PlannedCut g g₁ plan) (hg : g.Supplied) (hd : g.rules.Distinct) :
    g₁.rules.entries = plan.allEntries := by
  rw [h.rules]
  refine (h.readsAs hg).entries_ofEntries hd ?_ ?_ fun e he => ?_
  · rw [h.map_fst_added]
    exact LetterPool.nodup_of_letters_eq_append h.pool
  · rw [h.map_fst_added]
    exact fun l hl => h.not_mem_rules hg hl
  · obtain ⟨p, _, rfl⟩ := List.mem_map.mp he
    exact ⟨p.2, rfl⟩

theorem keys_eq (h : PlannedCut g g₁ plan) (hg : g.Supplied) (hd : g.rules.Distinct) :
    g₁.rules.keys = g.rules.keys ++ plan.cuts.flatMap Prod.snd := by
  rw [OrderedMap.keys, h.entries_eq hg hd, CutPlan.map_fst_allEntries h.letters, h.map_fst]

theorem forall₂_takesPlace (h : PlannedCut g g₁ plan) (hg : g.Supplied) (hd : g.rules.Distinct)
    (hs : s ∈ g.rules) : List.Forall₂ (TakesPlace (plan.cuts.flatMap Prod.snd))
      (g.alternatives s) (g₁.alternatives s) := by
  rw [← OrderedMap.mem_keys, ← h.map_fst] at hs
  obtain ⟨e, he, rfl⟩ := List.mem_map.mp hs
  have hentry : (e.1, e.2.map fun c => firstLink c.1 c.2) ∈ g₁.rules.entries := by
    rw [h.entries_eq hg hd]
    exact List.mem_append_left _ (List.mem_map_of_mem he)
  have hnew : g₁.alternatives e.1 = e.2.map fun c => firstLink c.1 c.2 :=
    RuleTable.alternatives_of_mem_entries hentry
  rw [h.alternatives_of_mem he, hnew, List.forall₂_map_left_iff, List.forall₂_map_right_iff,
    List.forall₂_same]
  intro c hc
  have hcut := mem_cuts he hc
  obtain ⟨hshort, hlong⟩ := (h.letters _ hcut).firstLink_cases
  refine ⟨hshort, fun hlength => ?_⟩
  obtain ⟨l, hl, heq⟩ := hlong hlength
  exact ⟨l, List.mem_flatMap.mpr ⟨_, hcut, hl⟩, heq⟩

/-- A drawn letter heads one of the links that wait, and nothing else. -/
theorem exists_alternatives_eq (h : PlannedCut g g₁ plan) (hg : g.Supplied)
    (hd : g.rules.Distinct) (hl : l ∈ plan.cuts.flatMap Prod.snd) :
    ∃ c ∈ plan.cuts, ∃ rhs, (l, rhs) ∈ laterLinks c.1.2 c.2 ∧ g₁.alternatives l = [rhs] := by
  rw [← CutPlan.map_fst_waiting h.letters] at hl
  obtain ⟨p, hp, rfl⟩ := List.mem_map.mp hl
  obtain ⟨c, hc, hlink⟩ := List.mem_flatMap.mp hp
  refine ⟨c, hc, p.2, hlink, ?_⟩
  have hentry : (p.1, [p.2]) ∈ g₁.rules.entries := by
    rw [h.entries_eq hg hd]
    exact List.mem_append_right _ (List.mem_map_of_mem hp)
  exact RuleTable.alternatives_of_mem_entries hentry

/-! ### Where the letters stand -/

theorem symbols_perm (h : PlannedCut g g₁ plan) (hg : g.Supplied) (hd : g.rules.Distinct) :
    (g₁.productions.flatMap Prod.snd).Perm
      (g.productions.flatMap Prod.snd ++ plan.cuts.flatMap Prod.snd) := by
  have hfirst : plan.firstEntries.flatMap (fun e => e.2.flatten) =
      plan.cuts.flatMap fun c => firstLink c.1.2 c.2 := by
    rw [CutPlan.firstEntries, CutPlan.cuts, List.flatMap_map, List.flatMap_assoc]
    refine List.flatMap_congr fun e _ => ?_
    rw [List.flatMap_map]
    rfl
  have hlater : (plan.waiting.map fun p => (p.1, [p.2])).flatMap (fun e => e.2.flatten) =
      plan.cuts.flatMap fun c => (laterLinks c.1.2 c.2).flatMap Prod.snd := by
    rw [CutPlan.waiting, List.flatMap_map, List.flatMap_assoc]
    simp only [List.flatten_singleton]
  have hnew : g₁.productions.flatMap Prod.snd =
      (plan.cuts.flatMap fun c => firstLink c.1.2 c.2) ++
        plan.cuts.flatMap fun c => (laterLinks c.1.2 c.2).flatMap Prod.snd := by
    rw [← hfirst, ← hlater, ← List.flatMap_append, ← CutPlan.allEntries, ← h.entries_eq hg hd,
      productions, RuleTable.productions, List.flatMap_assoc]
    refine List.flatMap_congr fun e _ => ?_
    rw [List.flatMap_map]
    exact List.flatMap_id'
  have hold : g.productions.flatMap Prod.snd = plan.cuts.flatMap fun c => c.1.2 := by
    rw [← h.productions, List.flatMap_map]
  rw [hnew, hold]
  -- the first links of all chains come before the later links of any, so it is only up to order
  refine (List.flatMap_append_perm ..).trans ?_
  refine (List.Perm.flatMap_left _ fun c hc => ?_).trans (List.flatMap_append_perm ..).symm
  have hchain := (h.letters c hc).symbols_chain_perm c.1.1
  rw [chain_eq_cons, List.flatMap_cons] at hchain
  exact hchain

theorem not_uses_of_mem_drawn (h : PlannedCut g g₁ plan) (hg : g.Supplied)
    (hl : l ∈ plan.cuts.flatMap Prod.snd) : ¬g.Uses l :=
  (hg.fresh l (h.mem_pool_of_mem_drawn hl)).2.2

theorem count_symbols (h : PlannedCut g g₁ plan) (hg : g.Supplied) (hd : g.rules.Distinct)
    (hl : l ∈ plan.cuts.flatMap Prod.snd) : (g₁.productions.flatMap Prod.snd).count l = 1 := by
  have hold : l ∉ g.productions.flatMap Prod.snd := by
    intro hmem
    obtain ⟨p, hp, hmem⟩ := List.mem_flatMap.mp hmem
    exact h.not_uses_of_mem_drawn hg hl (uses_of_mem (mem_productions_iff.mp hp) hmem)
  rw [(h.symbols_perm hg hd).count_eq, List.count_append, List.count_eq_zero_of_not_mem hold,
    List.count_eq_one_of_mem (LetterPool.nodup_of_letters_eq_append h.pool) hl]

theorem exists_getLast? (h : PlannedCut g g₁ plan) (hl : l ∈ plan.cuts.flatMap Prod.snd) :
    ∃ p ∈ g₁.productions, p.2.getLast? = some l := by
  obtain ⟨c, hc, hl⟩ := List.mem_flatMap.mp hl
  obtain ⟨p, hp, hlast⟩ := (h.letters c hc).exists_getLast? c.1.1 hl
  exact ⟨p, mem_productions_iff.mpr ((h.alternatives p.1 p.2).mpr ⟨c, hc, hp⟩), hlast⟩

/-! ### The way back -/

theorem exists_length_reading (h : PlannedCut g g₁ plan) (hl : l ∈ plan.cuts.flatMap Prod.snd) :
    ∃ c ∈ plan.cuts, 2 ≤ (h.reading l).length ∧ (h.reading l).length < c.1.2.length := by
  rw [← h.map_fst_standing] at hl
  obtain ⟨e, he, rfl⟩ := List.mem_map.mp hl
  obtain ⟨c, hc, hsuffix⟩ := List.mem_flatMap.mp he
  rw [h.reading_of_mem he]
  exact ⟨c, hc, (h.letters c hc).length_of_mem_suffixes hsuffix⟩

theorem length_reading_pos (h : PlannedCut g g₁ plan) (s : Symbol) :
    0 < (h.reading s).length := by
  by_cases hs : s ∈ plan.cuts.flatMap Prod.snd
  · obtain ⟨_, _, htwo, _⟩ := h.exists_length_reading hs
    omega
  · rw [h.reading_of_not_mem hs, List.length_singleton]
    exact Nat.one_pos

/-- A letter stands for less than the head of the link that it is in. -/
theorem length_reading_lt (h : PlannedCut g g₁ plan) (hg : g.Supplied)
    {c : Production × List Symbol} (hc : c ∈ plan.cuts) {rhs : RightSide}
    (hlink : (l, rhs) ∈ laterLinks c.1.2 c.2) {t : Symbol} (ht : t ∈ rhs) :
    (h.reading t).length < (h.reading l).length := by
  have hmem : (l, rhs) ∈ chain c.1.1 c.1.2 c.2 := by
    rw [chain_eq_cons]
    exact List.mem_cons_of_mem _ hlink
  have htwo : rhs.length = 2 := by
    rcases (h.letters c hc).chain_shape hmem with ⟨_, hshort⟩ | ⟨_, htwo, _⟩
    · have hnone := congrArg List.length (h.letters c hc).map_fst_laterLinks
      rw [List.length_map, (h.letters c hc).length_eq] at hnone
      have hpos := List.length_pos_of_mem hlink
      omega
    · exact htwo
  obtain ⟨x, y, rfl⟩ := List.length_eq_two.mp htwo
  have hread : h.reading x ++ h.reading y = h.reading l := by
    have hpiece := h.flatMap_laterLink hg hc hlink
    rw [List.flatMap_cons, List.flatMap_singleton] at hpiece
    exact hpiece
  -- neither of the two is read as nothing
  have hx := h.length_reading_pos x
  have hy := h.length_reading_pos y
  rw [← hread, List.length_append]
  rcases List.mem_cons.mp ht with ht | ht
  · rw [ht]
    omega
  · rw [List.mem_singleton.mp ht]
    omega

/-- The rank of a letter is the number of letters that it takes to cut what it stands for. -/
theorem unfolds (h : PlannedCut g g₁ plan) (hg : g.Supplied) (hd : g.rules.Distinct) :
    RuleTable.Unfolds g₁.rules (plan.cuts.flatMap Prod.snd) h.reading
      fun l => (h.reading l).length - 2 where
  self _ hs := h.reading_of_not_mem hs
  rule l hl := by
    obtain ⟨c, hc, rhs, hlink, hrule⟩ := h.exists_alternatives_eq hg hd hl
    refine ⟨rhs, hrule, h.flatMap_laterLink hg hc hlink, fun t ht hletter => ?_⟩
    obtain ⟨_, _, htwo, _⟩ := h.exists_length_reading hletter
    have hlt := h.length_reading_lt hg hc hlink ht
    omega
  rank_lt l hl := by
    obtain ⟨c, hc, htwo, hlt⟩ := h.exists_length_reading hl
    have hlength := (h.letters c hc).length_eq
    have hle := ((List.sublist_flatten_of_mem (List.mem_map_of_mem hc)).length_le :
      c.2.length ≤ (plan.cuts.map Prod.snd).flatten.length)
    rw [← List.flatMap_def] at hle
    omega

theorem inlined_eq (h : PlannedCut g g₁ plan) (hg : g.Supplied) (hd : g.rules.Distinct) :
    g₁.rules.inlined (plan.cuts.flatMap Prod.snd) = g.rules :=
  (h.unfolds hg hd).inlined_eq (h.entries_eq hg hd) (h.readsAs hg) h.map_fst_added
    fun _ hl => h.not_mem_rules hg hl

end PlannedCut

/-- Cutting adds an entry for each drawn letter after those of the old left sides, which keep their
alternatives or have the first links of them; a letter has one production and stands once, at the end
of a right side.  With these productions in the places of the letters the old table comes back. -/
theorem uncut_binarize {start : Symbol} {ps : List Production} {g₁ : Grammar}
    (h : (ofProductions start ps).binarize.outcome = .ok g₁) :
    let g := ofProductions start ps
    ∃ drawn, g.pool.letters = drawn ++ g₁.pool.letters ∧
      g₁.rules.keys = g.rules.keys ++ drawn ∧
      (∀ s ∈ g.rules, List.Forall₂ (TakesPlace drawn) (g.alternatives s) (g₁.alternatives s)) ∧
      (∀ l ∈ drawn, (g₁.alternatives l).length = 1 ∧
        (g₁.productions.flatMap Prod.snd).count l = 1 ∧
        ∃ p ∈ g₁.productions, p.2.getLast? = some l) ∧
      (g₁.rules.inlined drawn = g.rules ∧ ∀ l ∈ drawn, ¬g.Uses l) ∧
      ∀ s ∈ g.vocabulary, ∀ w, g₁.Generates s w ↔ g.Generates s w := by
  intro g
  have hg : g.Supplied := supplied_ofProductions start ps
  have hd : g.rules.Distinct := distinct_ofProductions start ps
  obtain ⟨plan, hplan⟩ := binarize_planned h
  refine ⟨plan.cuts.flatMap Prod.snd, hplan.pool, hplan.keys_eq hg hd,
    fun s hs => hplan.forall₂_takesPlace hg hd hs, fun l hl => ?_,
    ⟨hplan.inlined_eq hg hd, fun l hl => hplan.not_uses_of_mem_drawn hg hl⟩, fun s hs w => ?_⟩
  · obtain ⟨_, _, rhs, _, hrule⟩ := hplan.exists_alternatives_eq hg hd hl
    refine ⟨?_, hplan.count_symbols hg hd hl, hplan.exists_getLast? hl⟩
    rw [hrule, List.length_singleton]
  · exact hplan.generates_iff hg (hg.not_mem_pool_of_mem_vocabulary hs)

/-! The same long right side comes twice, and two others differ in their first symbols only. -/

def tangledProductions : List Production :=
  [(⟨'S'⟩, [⟨'a'⟩, ⟨'S'⟩, ⟨'b'⟩, ⟨'c'⟩]), (⟨'S'⟩, [⟨'a'⟩, ⟨'S'⟩, ⟨'b'⟩]), (⟨'S'⟩, []),
    (⟨'T'⟩, [⟨'a'⟩, ⟨'S'⟩, ⟨'b'⟩, ⟨'c'⟩]), (⟨'S'⟩, [⟨'a'⟩, ⟨'S'⟩, ⟨'b'⟩, ⟨'c'⟩])]

theorem uncut_binarize_tangled :
    ∃ g₁, (ofProductions ⟨'S'⟩ tangledProductions).binarize.outcome = .ok g₁ ∧
      g₁.rules.keys = [⟨'S'⟩, ⟨'T'⟩, ⟨'A'⟩, ⟨'B'⟩, ⟨'C'⟩, ⟨'D'⟩, ⟨'E'⟩] ∧
      (g₁.productions.flatMap Prod.snd).count ⟨'B'⟩ = 1 ∧
      g₁.rules.inlined [⟨'A'⟩, ⟨'B'⟩, ⟨'C'⟩, ⟨'D'⟩, ⟨'E'⟩] =
        (ofProductions ⟨'S'⟩ tangledProductions).rules := by
  obtain ⟨g₁, h⟩ := exists_of_toOption_isSome
    (x := (ofProductions ⟨'S'⟩ tangledProductions).binarize.outcome) (by decide +kernel)
  have hlook := eq_of_map_toOption h (fun g => g.rules.keys)
    (b := [⟨'S'⟩, ⟨'T'⟩, ⟨'A'⟩, ⟨'B'⟩, ⟨'C'⟩, ⟨'D'⟩, ⟨'E'⟩]) (by decide +kernel)
  have hold : (ofProductions ⟨'S'⟩ tangledProductions).rules.keys = [⟨'S'⟩, ⟨'T'⟩] := by
    decide +kernel
  obtain ⟨drawn, _, hkeys, _, hletters, ⟨hback, _⟩, _⟩ := uncut_binarize h
  rw [hlook, hold] at hkeys
  have hdrawn : drawn = [⟨'A'⟩, ⟨'B'⟩, ⟨'C'⟩, ⟨'D'⟩, ⟨'E'⟩] :=
    (List.cons.inj (List.cons.inj hkeys).2).2.symm
  rw [hdrawn] at hletters hback
  exact ⟨g₁, h, hlook, (hletters ⟨'B'⟩ (by decide)).2.1, hback⟩

end Grammar

end ChomskyForm
