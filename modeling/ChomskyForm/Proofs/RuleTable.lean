import ChomskyForm.Grammar.Basic
import Mathlib.Data.List.Nodup

/-!
# What the operations on a table of rules do to its alternatives

The view of a table is the list of alternatives of each symbol, together with its keys.  Each
operation gets one lemma for either; `mem_productions_iff` ties the list of productions to the view.
-/

namespace ChomskyForm

/-! ### Entries and look-ups -/

namespace OrderedMap

variable {κ ν : Type} [DecidableEq κ]

theorem mem_entries_iff {m : OrderedMap κ ν} {k : κ} {v : ν} :
    (k, v) ∈ m.entries ↔ m.get? k = some v := by
  obtain ⟨es, hes⟩ := m
  show (k, v) ∈ es ↔ es.lookup k = some v
  induction es with
  | nil => simp only [List.not_mem_nil, List.lookup_nil, reduceCtorEq]
  | cons e rest ih =>
    obtain ⟨k₀, v₀⟩ := e
    rw [List.map_cons, List.nodup_cons] at hes
    have hrest := ih hes.2
    by_cases h : k = k₀
    · subst h
      have hnot : (k, v) ∉ rest := by
        intro hmem
        have hkey : k ∈ rest.map Prod.fst := List.mem_map_of_mem (f := Prod.fst) hmem
        exact hes.1 hkey
      simp only [List.mem_cons, Prod.mk.injEq, true_and, hnot, or_false, List.lookup_cons, BEq.rfl,
        Option.some.injEq]
      exact eq_comm
    · have hbeq : (k == k₀) = false := beq_eq_false_iff_ne.mpr h
      simp only [List.mem_cons, Prod.mk.injEq, h, false_and, false_or, List.lookup_cons, hbeq, hrest]

theorem mem_iff_get? {m : OrderedMap κ ν} {k : κ} : k ∈ m ↔ ∃ v, m.get? k = some v := by
  constructor
  · intro h
    obtain ⟨e, he, rfl⟩ := List.mem_map.mp h
    exact ⟨e.2, mem_entries_iff.mp he⟩
  · rintro ⟨v, hv⟩
    exact List.mem_map_of_mem (f := Prod.fst) (mem_entries_iff.mpr hv)

theorem get?_mapValues {ν' : Type} (m : OrderedMap κ ν) (f : κ → ν → ν') (k : κ) :
    (m.mapValues f).get? k = (m.get? k).map (f k) := by
  show (m.entries.map fun e => (e.1, f e.1 e.2)).lookup k = (m.entries.lookup k).map (f k)
  induction m.entries with
  | nil => rfl
  | cons e rest ih =>
    obtain ⟨k₀, v₀⟩ := e
    by_cases h : k = k₀
    · subst h
      simp only [List.map_cons, List.lookup_cons, BEq.rfl, Option.map_some]
    · have hbeq : (k == k₀) = false := beq_eq_false_iff_ne.mpr h
      simp only [List.map_cons, List.lookup_cons, hbeq, ih]

omit [DecidableEq κ] in
theorem mem_mapValues {ν' : Type} {m : OrderedMap κ ν} {f : κ → ν → ν'} {k : κ} :
    k ∈ m.mapValues f ↔ k ∈ m := by
  rw [← mem_keys, keys_mapValues, mem_keys]

theorem get?_filter_eq_some_iff {m : OrderedMap κ ν} {p : κ → ν → Bool} {k : κ} {v : ν} :
    (m.filter p).get? k = some v ↔ m.get? k = some v ∧ p k v = true := by
  rw [← mem_entries_iff, mem_entries_filter, mem_entries_iff]

theorem mem_filter {m : OrderedMap κ ν} {p : κ → ν → Bool} {k : κ} :
    k ∈ m.filter p ↔ ∃ v, m.get? k = some v ∧ p k v = true := by
  simp only [mem_iff_get?, get?_filter_eq_some_iff]

theorem get?_ofKeys {s : OrderedSet κ} {f : κ → ν} {k : κ} {v : ν} :
    (ofKeys s f).get? k = some v ↔ k ∈ s ∧ v = f k := by
  rw [← mem_entries_iff]
  simp only [ofKeys, List.mem_map, Prod.mk.injEq]
  constructor
  · rintro ⟨a, ha, hak, hav⟩
    subst hak
    exact ⟨ha, hav.symm⟩
  · rintro ⟨hk, hv⟩
    exact ⟨k, hk, rfl, hv.symm⟩

theorem entries_insert_of_not_mem {m : OrderedMap κ ν} {k : κ} (h : k ∉ m) (v : ν) :
    (m.insert k v).entries = m.entries ++ [(k, v)] := by
  obtain ⟨es, hes⟩ := m
  have hkey : k ∉ es.map Prod.fst := h
  show insertEntry k v es = es ++ [(k, v)]
  clear h hes
  induction es with
  | nil => rfl
  | cons e rest ih =>
    rw [List.map_cons, List.mem_cons, not_or] at hkey
    rw [insertEntry, if_neg (fun he => hkey.1 he.symm), ih hkey.2, List.cons_append]

theorem mem_values_iff {m : OrderedMap κ ν} {v : ν} : v ∈ m.values ↔ ∃ k, m.get? k = some v := by
  simp only [values, List.mem_map, Prod.exists, exists_eq_right, mem_entries_iff]

end OrderedMap

theorem RightSide.not_mentions_iff {rhs : RightSide} {symbols : OrderedSet Symbol} :
    (!rhs.mentions symbols.toList) = true ↔ ∀ s ∈ rhs, s ∉ symbols := by
  rw [Bool.not_eq_true', Bool.eq_false_iff, ne_eq, mentions_eq_true_iff]
  simp only [OrderedSet.mem_toList, not_exists, not_and]

/-! ### Alternatives -/

namespace RuleTable

theorem mem_alternatives_iff {rules : RuleTable} {s : Symbol} {rhs : RightSide} :
    rhs ∈ alternatives rules s ↔ ∃ rhss, rules.get? s = some rhss ∧ rhs ∈ rhss := by
  rw [alternatives]
  cases rules.get? s with
  | none => simp only [Option.getD_none, List.not_mem_nil, reduceCtorEq, false_and, exists_false]
  | some rhss => simp only [Option.getD_some, Option.some.injEq, exists_eq_left']

theorem mem_of_mem_alternatives {rules : RuleTable} {s : Symbol} {rhs : RightSide}
    (h : rhs ∈ alternatives rules s) : s ∈ rules := by
  obtain ⟨rhss, hget, _⟩ := mem_alternatives_iff.mp h
  exact OrderedMap.mem_iff_get?.mpr ⟨rhss, hget⟩

theorem alternatives_of_get? {rules : RuleTable} {s : Symbol} {rhss : List RightSide}
    (h : rules.get? s = some rhss) : alternatives rules s = rhss := by
  rw [alternatives, h, Option.getD_some]

theorem mem_productions_iff {rules : RuleTable} {s : Symbol} {rhs : RightSide} :
    (s, rhs) ∈ rules.productions ↔ rhs ∈ alternatives rules s := by
  rw [mem_productions, mem_alternatives_iff]
  constructor
  · rintro ⟨e, he, hs, hrhs⟩
    subst hs
    exact ⟨e.2, OrderedMap.mem_entries_iff.mp he, hrhs⟩
  · rintro ⟨rhss, hget, hrhs⟩
    exact ⟨(s, rhss), OrderedMap.mem_entries_iff.mpr hget, rfl, hrhs⟩

theorem alternatives_withKey (rules : RuleTable) (lhs s : Symbol) :
    alternatives (withKey rules lhs) s = alternatives rules s := by
  by_cases h : s = lhs
  · subst h
    exact alternatives_of_get? (OrderedMap.get?_insert_self ..)
  · rw [alternatives, withKey, OrderedMap.get?_insert_of_ne _ _ h, alternatives]

theorem mem_withKey {rules : RuleTable} {lhs s : Symbol} :
    s ∈ withKey rules lhs ↔ s ∈ rules ∨ s = lhs := OrderedMap.mem_insert

theorem mem_add {rules : RuleTable} {lhs s : Symbol} {rhs : RightSide} :
    s ∈ add rules lhs rhs ↔ s ∈ rules ∨ s = lhs := OrderedMap.mem_insert

theorem mem_alternatives_add {rules : RuleTable} {lhs s : Symbol} {rhs rhs' : RightSide} :
    rhs' ∈ alternatives (add rules lhs rhs) s ↔
      rhs' ∈ alternatives rules s ∨ (s = lhs ∧ rhs' = rhs) := by
  by_cases h : s = lhs
  · subst h
    rw [alternatives_add_self]
    by_cases hhas : has rules s rhs = true
    · have hmem := has_eq_true_iff.mp hhas
      simp only [hhas, ↓reduceIte, true_and]
      constructor
      · exact Or.inl
      · intro hr
        rcases hr with hr | hr
        · exact hr
        · rw [hr]
          exact hmem
    · simp only [hhas, Bool.false_eq_true, ↓reduceIte, List.mem_append, List.mem_singleton,
        true_and]
  · rw [alternatives_add_of_ne rules rhs h]
    simp only [h, false_and, or_false]

theorem alternatives_filterAlternatives (rules : RuleTable) (p : RightSide → Bool) (s : Symbol) :
    alternatives (filterAlternatives rules p) s = (alternatives rules s).filter p := by
  rw [alternatives, filterAlternatives, OrderedMap.get?_mapValues, alternatives]
  cases rules.get? s with
  | none => rfl
  | some rhss => rfl

theorem mem_filterAlternatives {rules : RuleTable} {p : RightSide → Bool} {s : Symbol} :
    s ∈ filterAlternatives rules p ↔ s ∈ rules := OrderedMap.mem_mapValues

theorem mem_filterKeys {rules : RuleTable} {p : Symbol → Bool} {s : Symbol} :
    s ∈ filterKeys rules p ↔ s ∈ rules ∧ p s = true := by
  rw [filterKeys, OrderedMap.mem_filter, OrderedMap.mem_iff_get?]
  constructor
  · rintro ⟨v, hv, hp⟩
    exact ⟨⟨v, hv⟩, hp⟩
  · rintro ⟨⟨v, hv⟩, hp⟩
    exact ⟨v, hv, hp⟩

theorem mem_alternatives_filterKeys {rules : RuleTable} {p : Symbol → Bool} {s : Symbol}
    {rhs : RightSide} :
    rhs ∈ alternatives (filterKeys rules p) s ↔ rhs ∈ alternatives rules s ∧ p s = true := by
  simp only [mem_alternatives_iff, filterKeys, OrderedMap.get?_filter_eq_some_iff]
  constructor
  · rintro ⟨rhss, ⟨hget, hp⟩, hrhs⟩
    exact ⟨⟨rhss, hget, hrhs⟩, hp⟩
  · rintro ⟨⟨rhss, hget, hrhs⟩, hp⟩
    exact ⟨rhss, ⟨hget, hp⟩, hrhs⟩

end RuleTable

/-! ### Grammars -/

namespace Grammar

theorem mem_productions_iff {g : Grammar} {s : Symbol} {rhs : RightSide} :
    (s, rhs) ∈ g.productions ↔ rhs ∈ g.alternatives s := RuleTable.mem_productions_iff

theorem forall_mem_productions_iff {g : Grammar} {P : RightSide → Prop} :
    (∀ p ∈ g.productions, P p.2) ↔ ∀ s, ∀ rhs ∈ g.alternatives s, P rhs := by
  constructor
  · intro h s rhs hrhs
    exact h (s, rhs) (mem_productions_iff.mpr hrhs)
  · intro h p hp
    exact h p.1 p.2 (mem_productions_iff.mp hp)

theorem mem_of_mem_alternatives {g : Grammar} {s : Symbol} {rhs : RightSide}
    (h : rhs ∈ g.alternatives s) : s ∈ g.rules := RuleTable.mem_of_mem_alternatives h

@[simp] theorem mem_alternatives_add {g : Grammar} {lhs s : Symbol} {rhs rhs' : RightSide} :
    rhs' ∈ (g.add lhs rhs).alternatives s ↔
      rhs' ∈ g.alternatives s ∨ (s = lhs ∧ rhs' = rhs) := RuleTable.mem_alternatives_add

@[simp] theorem mem_rules_add {g : Grammar} {lhs s : Symbol} {rhs : RightSide} :
    s ∈ (g.add lhs rhs).rules ↔ s ∈ g.rules ∨ s = lhs := RuleTable.mem_add

@[simp] theorem mem_vocabulary_add {g : Grammar} {lhs s : Symbol} {rhs : RightSide} :
    s ∈ (g.add lhs rhs).vocabulary ↔ s ∈ g.vocabulary ∨ s = lhs := OrderedSet.mem_insert

@[simp] theorem start_addAll (g : Grammar) (ps : List Production) :
    (g.addAll ps).start = g.start := by
  induction ps generalizing g with
  | nil => rfl
  | cons p ps ih => exact ih (g.add p.1 p.2)

@[simp] theorem pool_addAll (g : Grammar) (ps : List Production) : (g.addAll ps).pool = g.pool := by
  induction ps generalizing g with
  | nil => rfl
  | cons p ps ih => exact ih (g.add p.1 p.2)

theorem mem_alternatives_addAll {g : Grammar} {ps : List Production} {s : Symbol}
    {rhs : RightSide} :
    rhs ∈ (g.addAll ps).alternatives s ↔ rhs ∈ g.alternatives s ∨ (s, rhs) ∈ ps := by
  induction ps generalizing g with
  | nil => simp only [addAll, List.foldl_nil, List.not_mem_nil, or_false]
  | cons p ps ih =>
    have hstep : g.addAll (p :: ps) = (g.add p.1 p.2).addAll ps := rfl
    rw [hstep, ih, mem_alternatives_add, List.mem_cons, Prod.ext_iff, or_assoc]

theorem mem_rules_addAll {g : Grammar} {ps : List Production} {s : Symbol} :
    s ∈ (g.addAll ps).rules ↔ s ∈ g.rules ∨ s ∈ ps.map Prod.fst := by
  induction ps generalizing g with
  | nil => simp only [addAll, List.foldl_nil, List.map_nil, List.not_mem_nil, or_false]
  | cons p ps ih =>
    have hstep : g.addAll (p :: ps) = (g.add p.1 p.2).addAll ps := rfl
    rw [hstep, ih, mem_rules_add, List.map_cons, List.mem_cons, or_assoc]

theorem mem_vocabulary_addAll {g : Grammar} {ps : List Production} {s : Symbol} :
    s ∈ (g.addAll ps).vocabulary ↔ s ∈ g.vocabulary ∨ s ∈ ps.map Prod.fst := by
  induction ps generalizing g with
  | nil => simp only [addAll, List.foldl_nil, List.map_nil, List.not_mem_nil, or_false]
  | cons p ps ih =>
    have hstep : g.addAll (p :: ps) = (g.add p.1 p.2).addAll ps := rfl
    rw [hstep, ih, mem_vocabulary_add, List.map_cons, List.mem_cons, or_assoc]

theorem vocabulary_addAll_of_mem {g : Grammar} {ps : List Production}
    (h : ∀ p ∈ ps, p.1 ∈ g.vocabulary) : (g.addAll ps).vocabulary = g.vocabulary := by
  induction ps generalizing g with
  | nil => rfl
  | cons p ps ih =>
    have hadd : (g.add p.1 p.2).vocabulary = g.vocabulary :=
      OrderedSet.insert_of_mem (h p (List.mem_cons_self ..))
    have hrest : ∀ q ∈ ps, q.1 ∈ (g.add p.1 p.2).vocabulary := by
      intro q hq
      rw [hadd]
      exact h q (List.mem_cons_of_mem _ hq)
    exact (ih hrest).trans hadd

/-! ### Grammars given by their productions -/

theorem mem_alternatives_ofProductions {start s : Symbol} {ps : List Production}
    {rhs : RightSide} :
    rhs ∈ (ofProductions start ps).alternatives s ↔ (s, rhs) ∈ ps := by
  rw [ofProductions, mem_alternatives_addAll]
  exact or_iff_right List.not_mem_nil

theorem mem_rules_ofProductions {start s : Symbol} {ps : List Production} :
    s ∈ (ofProductions start ps).rules ↔ s ∈ ps.map Prod.fst := by
  rw [ofProductions, mem_rules_addAll]
  exact or_iff_right List.not_mem_nil

theorem mem_vocabulary_ofProductions {start s : Symbol} {ps : List Production} :
    s ∈ (ofProductions start ps).vocabulary ↔ s ∈ ps.map Prod.fst := by
  rw [ofProductions, mem_vocabulary_addAll]
  exact or_iff_right List.not_mem_nil

theorem start_ofProductions (start : Symbol) (ps : List Production) :
    (ofProductions start ps).start = start := start_addAll _ ps

theorem pool_ofProductions (start : Symbol) (ps : List Production) :
    (ofProductions start ps).pool =
      LetterPool.excluding (start :: ps.flatMap fun p => p.1 :: p.2) := pool_addAll _ ps

/-! ### Symbols on right sides -/

/-- Some right side has the symbol. -/
def Uses (g : Grammar) (s : Symbol) : Prop := ∃ lhs, ∃ rhs ∈ g.alternatives lhs, s ∈ rhs

theorem uses_of_mem {g : Grammar} {lhs s : Symbol} {rhs : RightSide}
    (hrhs : rhs ∈ g.alternatives lhs) (hs : s ∈ rhs) : g.Uses s := ⟨lhs, rhs, hrhs, hs⟩

end Grammar

end ChomskyForm
