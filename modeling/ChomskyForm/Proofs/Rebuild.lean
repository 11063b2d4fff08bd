import ChomskyForm.Proofs.RuleTable
import Mathlib.Data.List.Induction

/-!
# Tables that are built anew

Where no symbol has the same alternative twice (`RuleTable.Distinct`), adding all productions of a
table one after the other gives the same table again, with all keys and alternatives in their order
(`RuleTable.rebuilt_eq`).
-/

namespace ChomskyForm

/-! ### Writing an entry of a table -/

namespace OrderedMap

variable {κ ν : Type} [DecidableEq κ]

theorem insertEntry_append_of_not_mem {k : κ} {es : List (κ × ν)} (h : k ∉ es.map Prod.fst)
    (v : ν) (rest : List (κ × ν)) :
    insertEntry k v (es ++ rest) = es ++ insertEntry k v rest := by
  induction es with
  | nil => rfl
  | cons e es ih =>
    rw [List.map_cons, List.mem_cons, not_or] at h
    rw [List.cons_append, insertEntry, if_neg (fun he => h.1 he.symm), ih h.2, List.cons_append]

theorem insert_insert (m : OrderedMap κ ν) (k : κ) (v w : ν) :
    (m.insert k v).insert k w = m.insert k w := by
  have key : ∀ es : List (κ × ν), insertEntry k w (insertEntry k v es) = insertEntry k w es := by
    intro es
    induction es with
    | nil => simp only [insertEntry, ↓reduceIte]
    | cons e es ih =>
      by_cases h : e.1 = k
      · simp only [insertEntry, h, ↓reduceIte]
      · simp only [insertEntry, h, ↓reduceIte, ih]
  exact ext (key m.entries)

theorem get?_of_entries_eq {m : OrderedMap κ ν} {es : List (κ × ν)} {k : κ} {v : ν}
    (h : m.entries = es ++ [(k, v)]) : m.get? k = some v := by
  refine mem_entries_iff.mp ?_
  rw [h]
  exact List.mem_append_right _ (List.mem_singleton.mpr rfl)

/-- The last entry is written in place. -/
theorem entries_insert_of_entries_eq {m : OrderedMap κ ν} {es : List (κ × ν)} {k : κ} {v : ν}
    (h : m.entries = es ++ [(k, v)]) (w : ν) : (m.insert k w).entries = es ++ [(k, w)] := by
  have hnodup := m.nodup
  rw [h, List.map_append, List.map_singleton] at hnodup
  have hkey : k ∉ es.map Prod.fst := by
    intro hk
    exact (List.nodup_append.mp hnodup).2.2 k hk k (List.mem_singleton.mpr rfl) rfl
  show insertEntry k w m.entries = _
  rw [h, insertEntry_append_of_not_mem hkey, insertEntry, if_pos rfl]

end OrderedMap

/-! ### Tables without repeated alternatives -/

namespace RuleTable

/-- No symbol has the same alternative twice. -/
def Distinct (rules : RuleTable) : Prop := ∀ s, (rules.alternatives s).Nodup

variable {rules : RuleTable} {lhs : Symbol} {rhs : RightSide}

theorem alternatives_of_mem_entries {e : Symbol × List RightSide} (he : e ∈ rules.entries) :
    rules.alternatives e.1 = e.2 := alternatives_of_get? (OrderedMap.mem_entries_iff.mp he)

theorem distinct_empty : (∅ : RuleTable).Distinct := fun _ => List.nodup_nil

theorem Distinct.withKey (h : rules.Distinct) (lhs : Symbol) : (rules.withKey lhs).Distinct := by
  intro s
  rw [alternatives_withKey]
  exact h s

theorem Distinct.add (h : rules.Distinct) (lhs : Symbol) (rhs : RightSide) :
    (rules.add lhs rhs).Distinct := by
  intro s
  by_cases hs : s = lhs
  · rw [hs, alternatives_add_self]
    by_cases hhas : rules.has lhs rhs = true
    · rw [if_pos hhas]
      exact h lhs
    · have hnew : rhs ∉ rules.alternatives lhs := fun hmem => hhas (has_eq_true_iff.mpr hmem)
      rw [if_neg hhas]
      exact List.nodup_append.mpr ⟨h lhs, List.nodup_singleton rhs, by
        intro a ha b hb hab
        rw [List.mem_singleton.mp hb] at hab
        exact hnew (hab ▸ ha)⟩
  · rw [alternatives_add_of_ne rules rhs hs]
    exact h s

/-- A table is distinct if it has parts of the lists of a distinct one. -/
theorem Distinct.of_sublist {rules' : RuleTable} (h : rules.Distinct)
    (hsub : ∀ s, (rules'.alternatives s).Sublist (rules.alternatives s)) : rules'.Distinct :=
  fun s => (h s).sublist (hsub s)

theorem alternatives_filter_sublist (rules : RuleTable) (p : Symbol → List RightSide → Bool)
    (s : Symbol) :
    (alternatives (OrderedMap.filter rules p) s).Sublist (rules.alternatives s) := by
  cases hget : (OrderedMap.filter rules p).get? s with
  | none => simp only [alternatives, hget, Option.getD_none, List.nil_sublist]
  | some rhss =>
    rw [alternatives_of_get? hget,
      alternatives_of_get? (OrderedMap.get?_filter_eq_some_iff.mp hget).1]

theorem Distinct.filterAlternatives (h : rules.Distinct) (p : RightSide → Bool) :
    (rules.filterAlternatives p).Distinct := by
  refine h.of_sublist fun s => ?_
  rw [alternatives_filterAlternatives]
  exact List.filter_sublist

theorem Distinct.filter (h : rules.Distinct) (p : Symbol → List RightSide → Bool) :
    Distinct (OrderedMap.filter rules p) := h.of_sublist (alternatives_filter_sublist rules p)

/-! ### Building a table from its entries -/

theorem add_withKey (rules : RuleTable) (lhs : Symbol) (rhs : RightSide) :
    (rules.withKey lhs).add lhs rhs = rules.add lhs rhs := by
  have hhas : (rules.withKey lhs).has lhs rhs = rules.has lhs rhs := by
    rw [has, has, alternatives_withKey]
  rw [add, add, hhas, alternatives_withKey, withKey, OrderedMap.insert_insert]

def addEach (rules : RuleTable) (lhs : Symbol) (rhss : List RightSide) : RuleTable :=
  rhss.foldl (fun rules rhs => rules.add lhs rhs) rules

/-- The table built from entries, which are added one after the other. -/
def ofEntries (es : List (Symbol × List RightSide)) : RuleTable :=
  es.foldl (fun m e => (m.withKey e.1).addEach e.1 e.2) ∅

/-- The table built from the entries of another. -/
def rebuilt (rules : RuleTable) : RuleTable := ofEntries rules.entries

theorem entries_addEach {m : RuleTable} {es : List (Symbol × List RightSide)} {lhs : Symbol}
    {done rhss : List RightSide} (h : m.entries = es ++ [(lhs, done)])
    (hnodup : (done ++ rhss).Nodup) :
    (m.addEach lhs rhss).entries = es ++ [(lhs, done ++ rhss)] := by
  induction rhss generalizing m done with
  | nil =>
    rw [List.append_nil]
    exact h
  | cons rhs rhss ih =>
    have halt : m.alternatives lhs = done := alternatives_of_get? (OrderedMap.get?_of_entries_eq h)
    have hnew : ¬m.has lhs rhs = true := by
      rw [has_eq_true_iff, halt]
      intro hmem
      exact (List.nodup_append.mp hnodup).2.2 rhs hmem rhs (List.mem_cons_self ..) rfl
    have hadd : (m.add lhs rhs).entries = es ++ [(lhs, done ++ [rhs])] := by
      rw [add, if_neg hnew, halt]
      exact OrderedMap.entries_insert_of_entries_eq h _
    rw [List.append_cons] at hnodup
    rw [List.append_cons done]
    exact ih hadd hnodup

theorem entries_foldl_addEach {m : RuleTable} {es : List (Symbol × List RightSide)}
    (hkeys : (m.keys ++ es.map Prod.fst).Nodup) (hnodup : ∀ e ∈ es, e.2.Nodup) :
    (es.foldl (fun m e => (m.withKey e.1).addEach e.1 e.2) m).entries = m.entries ++ es := by
  induction es generalizing m with
  | nil => exact (List.append_nil _).symm
  | cons e es ih =>
    obtain ⟨he, hes⟩ := List.forall_mem_cons.mp hnodup
    have hnew : e.1 ∉ m := by
      intro hmem
      exact (List.nodup_append.mp hkeys).2.2 e.1 hmem e.1 (List.mem_cons_self ..) rfl
    have hempty : m.alternatives e.1 = [] := by
      rw [alternatives, OrderedMap.get?_eq_none_iff.mpr hnew, Option.getD_none]
    have hkey : (m.withKey e.1).entries = m.entries ++ [(e.1, [])] := by
      rw [withKey, hempty]
      exact OrderedMap.entries_insert_of_not_mem hnew _
    have hentry : ((m.withKey e.1).addEach e.1 e.2).entries = m.entries ++ [e] :=
      entries_addEach hkey he
    have hkeys' : (((m.withKey e.1).addEach e.1 e.2).keys ++ es.map Prod.fst).Nodup := by
      rw [OrderedMap.keys, hentry, List.map_append, List.map_singleton, ← List.append_cons]
      exact hkeys
    rw [List.foldl_cons, ih hkeys' hes, hentry, ← List.append_cons]

/-- Nothing is lost of entries without repetitions. -/
theorem entries_ofEntries {es : List (Symbol × List RightSide)} (hkeys : (es.map Prod.fst).Nodup)
    (hnodup : ∀ e ∈ es, e.2.Nodup) : (ofEntries es).entries = es :=
  entries_foldl_addEach (m := ∅) hkeys hnodup

/-- Nothing is changed by building a table anew. -/
theorem rebuilt_eq (h : rules.Distinct) : rules.rebuilt = rules := by
  have hnodup : ∀ e ∈ rules.entries, e.2.Nodup := by
    intro e he
    rw [← alternatives_of_mem_entries he]
    exact h e.1
  exact OrderedMap.ext (entries_ofEntries rules.nodup hnodup)

/-- Where every key has an alternative, the keys come with their productions. -/
theorem foldl_add_productions (hfull : ∀ e ∈ rules.entries, e.2 ≠ []) :
    rules.productions.foldl (fun m p => m.add p.1 p.2) ∅ = rules.rebuilt := by
  rw [productions, List.foldl_flatMap, rebuilt, ofEntries]
  refine List.foldl_ext _ _ _ fun m e he => ?_
  obtain ⟨rhs, rhss, hrhss⟩ := List.exists_cons_of_ne_nil (hfull e he)
  rw [List.foldl_map, hrhss, addEach, List.foldl_cons, List.foldl_cons, add_withKey]

/-! ### One entry after the other -/

variable {es : List (Symbol × List RightSide)}

theorem ofEntries_concat (es : List (Symbol × List RightSide)) (e : Symbol × List RightSide) :
    ofEntries (es ++ [e]) = ((ofEntries es).withKey e.1).addEach e.1 e.2 := by
  rw [ofEntries, List.foldl_append]
  rfl

theorem ofEntries_key (es : List (Symbol × List RightSide)) (lhs : Symbol) :
    ofEntries (es ++ [(lhs, [])]) = (ofEntries es).withKey lhs := ofEntries_concat es (lhs, [])

/-- The last entry gets one more alternative. -/
theorem ofEntries_alternative (es : List (Symbol × List RightSide)) (lhs : Symbol)
    (rhss : List RightSide) (rhs : RightSide) :
    ofEntries (es ++ [(lhs, rhss ++ [rhs])]) = (ofEntries (es ++ [(lhs, rhss)])).add lhs rhs := by
  rw [ofEntries_concat, ofEntries_concat, addEach, List.foldl_append]
  rfl

/-- Each production that is added is an entry. -/
theorem foldl_add_ofEntries (es : List (Symbol × List RightSide)) (ps : List Production) :
    ps.foldl (fun m p => m.add p.1 p.2) (ofEntries es) =
      ofEntries (es ++ ps.map fun p => (p.1, [p.2])) := by
  induction ps generalizing es with
  | nil => rw [List.map_nil, List.append_nil, List.foldl_nil]
  | cons p ps ih =>
    have hone : (ofEntries es).add p.1 p.2 = ofEntries (es ++ [(p.1, [p.2])]) := by
      rw [ofEntries_concat]
      exact (add_withKey ..).symm
    rw [List.foldl_cons, hone, ih, List.map_cons, List.append_assoc, List.singleton_append]

theorem mem_alternatives_addEach {m : RuleTable} {lhs s : Symbol} {rhss : List RightSide} :
    rhs ∈ (m.addEach lhs rhss).alternatives s ↔ rhs ∈ m.alternatives s ∨ (s = lhs ∧ rhs ∈ rhss) := by
  induction rhss generalizing m with
  | nil => simp only [addEach, List.foldl_nil, List.not_mem_nil, and_false, or_false]
  | cons r rhss ih =>
    have hstep : m.addEach lhs (r :: rhss) = (m.add lhs r).addEach lhs rhss := rfl
    rw [hstep, ih, mem_alternatives_add, List.mem_cons, or_assoc, ← and_or_left]

theorem mem_addEach {m : RuleTable} {lhs s : Symbol} {rhss : List RightSide} (h : lhs ∈ m) :
    s ∈ m.addEach lhs rhss ↔ s ∈ m := by
  induction rhss generalizing m with
  | nil => rfl
  | cons r rhss ih =>
    have hstep : m.addEach lhs (r :: rhss) = (m.add lhs r).addEach lhs rhss := rfl
    rw [hstep, ih (mem_add.mpr (Or.inl h)), mem_add]
    exact or_iff_left_of_imp fun hs => hs ▸ h

theorem mem_ofEntries {s : Symbol} : s ∈ ofEntries es ↔ s ∈ es.map Prod.fst := by
  induction es using List.reverseRecOn with
  | nil => rfl
  | append_singleton es e ih =>
    rw [ofEntries_concat, mem_addEach (mem_withKey.mpr (Or.inr rfl)), mem_withKey, ih,
      List.map_append, List.mem_append, List.map_singleton, List.mem_singleton]

theorem mem_alternatives_ofEntries {s : Symbol} :
    rhs ∈ (ofEntries es).alternatives s ↔ ∃ e ∈ es, e.1 = s ∧ rhs ∈ e.2 := by
  induction es using List.reverseRecOn with
  | nil => exact iff_of_false List.not_mem_nil fun ⟨_, he, _⟩ => List.not_mem_nil he
  | append_singleton es e ih =>
    rw [ofEntries_concat, mem_alternatives_addEach, alternatives_withKey, ih, @eq_comm _ s]
    simp only [List.mem_append, List.mem_singleton, or_and_right, exists_or, exists_eq_left]

theorem distinct_ofEntries (es : List (Symbol × List RightSide)) : (ofEntries es).Distinct := by
  have hadd : ∀ (rhss : List RightSide) {m : RuleTable} (lhs : Symbol), m.Distinct →
      (m.addEach lhs rhss).Distinct := by
    intro rhss
    induction rhss with
    | nil => exact fun _ hm => hm
    | cons r rhss ih => exact fun lhs hm => ih lhs (hm.add lhs r)
  induction es using List.reverseRecOn with
  | nil => exact distinct_empty
  | append_singleton es e ih =>
    rw [ofEntries_concat]
    exact hadd e.2 e.1 (ih.withKey e.1)

end RuleTable

/-! ### Grammars -/

namespace Grammar

variable {g : Grammar}

theorem add_of_mem {lhs : Symbol} (h : lhs ∈ g.vocabulary) (rhs : RightSide) :
    g.add lhs rhs = { g with rules := g.rules.add lhs rhs } := by
  rw [add, OrderedSet.insert_of_mem h]

theorem foldl_add_of_mem {lhs : Symbol} (h : lhs ∈ g.vocabulary) (rhss : List RightSide) :
    rhss.foldl (fun g rhs => g.add lhs rhs) g = { g with rules := g.rules.addEach lhs rhss } := by
  induction rhss generalizing g with
  | nil => rfl
  | cons rhs rhss ih =>
    rw [List.foldl_cons, add_of_mem h]
    exact ih h

/-- Adds all alternatives of an entry. -/
def addEntry (g : Grammar) (e : Symbol × List RightSide) : Grammar :=
  e.2.foldl (fun g rhs => g.add e.1 rhs) { g with rules := g.rules.withKey e.1 }

/-- A grammar is not changed by adding its own entries to an empty table. -/
theorem foldl_addEntry_eq (hkeys : ∀ s ∈ g.rules, s ∈ g.vocabulary) (h : g.rules.Distinct) :
    g.rules.entries.foldl addEntry { g with rules := ∅ } = g := by
  have key : ∀ (es : List (Symbol × List RightSide)) (m : RuleTable),
      (∀ e ∈ es, e.1 ∈ g.vocabulary) → es.foldl addEntry { g with rules := m } =
        { g with rules := es.foldl (fun m e => (m.withKey e.1).addEach e.1 e.2) m } := by
    intro es
    induction es with
    | nil => exact fun m _ => rfl
    | cons e es ih =>
      intro m hes
      obtain ⟨he, hes⟩ := List.forall_mem_cons.mp hes
      have hentry : addEntry { g with rules := m } e =
          { g with rules := (m.withKey e.1).addEach e.1 e.2 } :=
        foldl_add_of_mem (g := { g with rules := m.withKey e.1 }) he e.2
      rw [List.foldl_cons, List.foldl_cons, hentry, ih _ hes]
  rw [key _ _ fun e he => hkeys e.1 (List.mem_map_of_mem he)]
  show { g with rules := g.rules.rebuilt } = g
  rw [RuleTable.rebuilt_eq h]

theorem rules_addAll (g : Grammar) (ps : List Production) :
    (g.addAll ps).rules = ps.foldl (fun m p => m.add p.1 p.2) g.rules := by
  induction ps generalizing g with
  | nil => rfl
  | cons p ps ih => exact ih (g.add p.1 p.2)

theorem distinct_addAll (h : g.rules.Distinct) (ps : List Production) :
    (g.addAll ps).rules.Distinct := by
  induction ps generalizing g with
  | nil => exact h
  | cons p ps ih => exact ih (g := g.add p.1 p.2) (h.add p.1 p.2)

theorem distinct_ofProductions (start : Symbol) (ps : List Production) :
    (ofProductions start ps).rules.Distinct := distinct_addAll RuleTable.distinct_empty ps

/-- A table is built from its productions. -/
theorem rules_ofProductions {start : Symbol} {rules : RuleTable} (h : rules.Distinct)
    (hfull : ∀ s ∈ rules, rules.alternatives s ≠ []) :
    (ofProductions start rules.productions).rules = rules := by
  have hentries : ∀ e ∈ rules.entries, e.2 ≠ [] := by
    intro e he
    rw [← RuleTable.alternatives_of_mem_entries he]
    exact hfull e.1 (List.mem_map_of_mem he)
  rw [ofProductions, rules_addAll, RuleTable.foldl_add_productions hentries,
    RuleTable.rebuilt_eq h]

/-- The vocabulary and the keys come in the same order. -/
theorem toList_vocabulary_ofProductions (start : Symbol) (ps : List Production) :
    (ofProductions start ps).vocabulary.toList = (ofProductions start ps).rules.keys := by
  have key : ∀ (ps : List Production) (g : Grammar), g.vocabulary.toList = g.rules.keys →
      (g.addAll ps).vocabulary.toList = (g.addAll ps).rules.keys := by
    intro ps
    induction ps with
    | nil => exact fun g hg => hg
    | cons p ps ih =>
      intro g hg
      refine ih (g.add p.1 p.2) ?_
      have hmem : p.1 ∈ g.vocabulary ↔ p.1 ∈ g.rules := by
        rw [← OrderedSet.mem_toList, hg, OrderedMap.mem_keys]
      rw [add, RuleTable.add, OrderedMap.keys_insert]
      by_cases hp : p.1 ∈ g.rules
      · rw [if_pos hp, OrderedSet.insert_of_mem (hmem.mpr hp), hg]
      · rw [if_neg hp, OrderedSet.toList_insert_of_not_mem (fun h => hp (hmem.mp h)), hg]
  exact key ps _ rfl

end Grammar

end ChomskyForm
