import ChomskyForm.Proofs.Budget
import ChomskyForm.Proofs.FixedPoint
import ChomskyForm.Proofs.Stages.Binary
import ChomskyForm.Proofs.Stages.Lifted

/-!
# How many letters the stages need

Two stages draw letters.  The first needs one for each symbol of a right side beyond the second, the
other one for each different terminal in a right side of two symbols.  If these are too many, the stage
fails at the first production with which they are.
-/

namespace ChomskyForm

theorem LetterPool.letters_eq_drop {p q : LetterPool} {drawn : List Symbol} {k : Nat}
    (h : p.letters = drawn ++ q.letters) (hk : k + q.size = p.size) :
    q.letters = p.letters.drop k := by
  have hlen := congrArg List.length h
  rw [List.length_append] at hlen
  have hdrawn : drawn.length = k := by
    simp only [size] at hk
    omega
  rw [h, ← hdrawn, List.drop_left]

namespace Grammar

variable {g : Grammar} {limit m : Nat} {lhs : Symbol}

/-- A drawn letter brings the expenses from `m` to `m + 1`. -/
theorem spends_drawFor (h : m + g.pool.size = limit) (purpose : Symbol → Notice) :
    (g.drawFor lhs purpose).Spends limit (m + 1) (.poolExhausted lhs) fun r => g.Drew [r.1] r.2 := by
  cases hdraw : g.draw with
  | none =>
    have hempty : g.pool.letters = [] := by
      rw [draw, Option.map_eq_none_iff] at hdraw
      exact LetterPool.draw_eq_none_iff.mp hdraw
    rw [LetterPool.size, hempty, List.length_nil] at h
    rw [drawFor_of_none hdraw]
    exact Or.inr ⟨by omega, rfl⟩
  | some drawn =>
    have hdrew := drew_of_draw hdraw
    have hsize := congrArg List.length hdrew.pool
    rw [List.length_append, List.length_singleton] at hsize
    rw [LetterPool.size] at h
    rw [drawFor_of_some hdraw]
    exact Or.inl ⟨by omega, drawn, rfl, hdrew⟩

theorem Drew.size {ls : List Symbol} {g' : Grammar} (h : g.Drew ls g') :
    g.pool.size = ls.length + g'.pool.size := by
  rw [LetterPool.size, h.pool, List.length_append, LetterPool.size]

/-! ### Long right sides -/

/-- The letters that it takes to cut the right sides of the productions: one for each symbol beyond the
second. -/
def cutDemand : List Production → Nat
  | [] => 0
  | p :: ps => (p.2.length - 2) + cutDemand ps

theorem cutDemand_append (ps qs : List Production) :
    cutDemand (ps ++ qs) = cutDemand ps + cutDemand qs := by
  induction ps with
  | nil => exact (Nat.zero_add _).symm
  | cons p ps ih => rw [List.cons_append, cutDemand, cutDemand, ih, Nat.add_assoc]

theorem cutDemand_le_append (ps qs : List Production) : cutDemand ps ≤ cutDemand (ps ++ qs) := by
  rw [cutDemand_append]
  omega

theorem spends_chainFrom {head : Symbol} {whole rest : RightSide} (h : m + g.pool.size = limit) :
    (chainFrom lhs whole head rest g).Spends limit (m + (rest.length - 2)) (.poolExhausted lhs)
      fun r => m + (rest.length - 2) + r.1.pool.size = limit := by
  induction rest generalizing head g m with
  | nil => exact .of_pure (by simp; omega) h
  | cons a tail ih =>
    by_cases hshort : (a :: tail).length ≤ 2
    · rw [chainFrom_of_length_le hshort]
      exact .of_pure (by omega) (by simp only; omega)
    · match tail with
      | [] | [_] =>
        simp only [List.length_cons, List.length_nil] at hshort
        omega
      | b :: c :: rest =>
        have hlen : m + ((a :: b :: c :: rest).length - 2) =
            m + 1 + ((b :: c :: rest).length - 2) := by
          simp only [List.length_cons]
          omega
        rw [hlen]
        refine (spends_drawFor h _).bind (by omega) fun r hr => ?_
        have hsize := hr.size
        rw [List.length_singleton] at hsize
        refine (ih (by omega)).bind (Nat.le_refl _) fun r' hr' => ?_
        exact .of_pure (by omega) hr'

theorem spends_addCut {rhs : RightSide} (h : m + g.pool.size = limit) :
    (g.addCut lhs rhs).Spends limit (m + (rhs.length - 2)) (.poolExhausted lhs)
      fun r => m + (rhs.length - 2) + r.1.pool.size = limit := by
  have hle : m ≤ limit := by omega
  match rhs with
  | [] | [_] | [_, _] => exact .of_pure hle h
  | a :: b :: c :: rest =>
    have hlen : m + ((a :: b :: c :: rest).length - 2) =
        m + 1 + ((b :: c :: rest).length - 2) := by
      simp only [List.length_cons]
      omega
    rw [hlen]
    refine (spends_drawFor h _).bind (by omega) fun r hr => ?_
    have hsize := hr.size
    rw [List.length_singleton] at hsize
    exact spends_chainFrom (by simp only [add]; omega)

theorem copies_binarize :
    g.binarize.Copies cutDemand g.pool.size .poolExhausted
      (fun ps g₁ => cutDemand ps + g₁.pool.size = g.pool.size) [] g.productions := by
  refine Noted.Copies.map (P := fun ps state => cutDemand ps + state.1.pool.size = g.pool.size)
    (f := fun state : Grammar × List Production => state.1.addAll state.2)
    (Noted.rebuild_spends
      (fun lhs (state : Grammar × List Production) =>
        ({ state.1 with rules := state.1.rules.withKey lhs }, state.2))
      (fun lhs state rhs => do
        let next ← state.1.addCut lhs rhs
        pure (next.1, state.2 ++ next.2))
      (fun _ _ _ hstate => hstate) (fun _ _ hstate => by omega) ?_ (Nat.zero_add _)) ?_
  · intro ps state lhs rhs _ hstate
    have hdemand : cutDemand (ps ++ [(lhs, rhs)]) = cutDemand ps + (rhs.length - 2) :=
      cutDemand_append ps [(lhs, rhs)]
    rw [hdemand]
    exact (spends_addCut hstate).bind (Nat.le_refl _) fun next hnext =>
      .of_pure (by omega) hnext
  · intro state hstate
    rw [pool_addAll]
    exact hstate

theorem exists_binarize_eq_ok (h : cutDemand g.productions ≤ g.pool.size) :
    ∃ g₁, g.binarize.outcome = .ok g₁ ∧
      g₁.pool.letters = g.pool.letters.drop (cutDemand g.productions) := by
  obtain ⟨g₁, hok, hsize⟩ := copies_binarize.exists_ok cutDemand_le_append h
  obtain ⟨cuts, hcut⟩ := binarize_cut hok
  exact ⟨g₁, hok, LetterPool.letters_eq_drop hcut.pool hsize⟩

theorem exists_binarize_eq_error (h : g.pool.size < cutDemand g.productions) :
    ∃ lhs, ExceedsAt cutDemand g.pool.size g.productions lhs ∧
      g.binarize.outcome = .error (.poolExhausted lhs) :=
  copies_binarize.exists_error (fun _ hsize => by omega) h

/-! ### Terminals in pairs -/

/-- The terminals in right sides of two symbols. -/
def pairTerminals (V : OrderedSet Symbol) (ps : List Production) : OrderedSet Symbol :=
  OrderedSet.ofList ((ps.flatMap fun p => if p.2.length = 2 then p.2 else []).filter (· ∉ V))

/-- The letters that it takes to lift the terminals of the productions. -/
def liftDemand (V : OrderedSet Symbol) (ps : List Production) : Nat := (pairTerminals V ps).size

theorem pairTerminals_append (V : OrderedSet Symbol) (ps qs : List Production) :
    pairTerminals V (ps ++ qs) = (pairTerminals V ps).insertAll
      ((qs.flatMap fun p => if p.2.length = 2 then p.2 else []).filter (· ∉ V)) := by
  rw [pairTerminals, List.flatMap_append, List.filter_append, OrderedSet.ofList,
    OrderedSet.insertAll, List.foldl_append]
  rfl

theorem liftDemand_le_append (V : OrderedSet Symbol) (ps qs : List Production) :
    liftDemand V ps ≤ liftDemand V (ps ++ qs) := by
  rw [liftDemand, liftDemand, pairTerminals_append]
  exact (OrderedSet.toList_prefix_insertAll _ _).length_le

variable {cur : Grammar} {σ : StandIns} {s : Symbol} {rhs : RightSide}

/-- The stand-ins drawn so far are those of the terminals seen so far. -/
structure StandsInFor (g cur : Grammar) (σ : StandIns) (seen : OrderedSet Symbol) : Prop extends
    HasStandIns g cur σ where
  keys : σ.keys = seen.toList

theorem StandsInFor.size {seen : OrderedSet Symbol} (h : StandsInFor g cur σ seen) :
    seen.size + cur.pool.size = g.pool.size := by
  have hvalues : σ.values.length = seen.toList.length := by
    rw [← h.keys, OrderedMap.values, OrderedMap.keys, List.length_map, List.length_map]
  have hsize := congrArg List.length h.pool
  rw [List.length_append, hvalues] at hsize
  exact hsize.symm

theorem StandsInFor.mem_iff {seen : OrderedSet Symbol} (h : StandsInFor g cur σ seen) :
    s ∈ σ ↔ s ∈ seen := by
  rw [← OrderedMap.mem_keys, h.keys, OrderedSet.mem_toList]

theorem spends_lift {seen : OrderedSet Symbol} (h : StandsInFor g cur σ seen) (hg : g.Supplied)
    (hpair : g.UsesInPair s) :
    (lift lhs s (cur, σ)).Spends g.pool.size
      (seen.insertAll ([s].filter (· ∉ g.vocabulary))).size (.poolExhausted lhs)
      fun r => StandsInFor g r.2.1 r.2.2 (seen.insertAll ([s].filter (· ∉ g.vocabulary))) := by
  have hsize := h.size
  simp only [lift]
  by_cases hs : s ∈ g.vocabulary
  · have hold : [s].filter (· ∉ g.vocabulary) = [] := by simp [hs]
    rw [if_pos ((h.isNonterminal_iff hg hpair.uses).mpr hs), hold]
    exact .of_pure (by show seen.size ≤ _; omega) h
  · have hnew : [s].filter (· ∉ g.vocabulary) = [s] := by simp [hs]
    have hone : seen.insertAll [s] = seen.insert s := rfl
    rw [if_neg (mt (h.isNonterminal_iff hg hpair.uses).mp hs), hnew, hone]
    cases hget : σ.get? s with
    | some t =>
      have hmem : s ∈ seen := h.mem_iff.mp (OrderedMap.mem_iff_get?.mpr ⟨t, hget⟩)
      rw [OrderedSet.insert_of_mem hmem]
      exact .of_pure (by omega) h
    | none =>
      have hσ : s ∉ σ := OrderedMap.get?_eq_none_iff.mp hget
      have hinsert := OrderedSet.toList_insert_of_not_mem (mt h.mem_iff.mpr hσ)
      have hsucc : (seen.insert s).size = seen.size + 1 := by
        rw [OrderedSet.size, hinsert, List.length_append]
        rfl
      rw [hsucc]
      refine (spends_drawFor hsize _).bind (Nat.le_refl _) fun r hr => ?_
      have hrest := hr.size
      rw [List.length_singleton] at hrest
      refine .of_pure (by omega) ⟨h.insert hs hpair hσ hr, ?_⟩
      rw [OrderedMap.keys_insert, if_neg hσ, h.keys, hinsert]

theorem StandsInFor.congr {next : Grammar} {seen : OrderedSet Symbol} (h : StandsInFor g cur σ seen)
    (hstart : next.start = cur.start) (hpool : next.pool = cur.pool)
    (hvocabulary : ∀ s, s ∈ next.vocabulary ↔ s ∈ cur.vocabulary) : StandsInFor g next σ seen :=
  ⟨h.toHasStandIns.congr hstart hpool hvocabulary, h.keys⟩

theorem StandsInFor.add {seen : OrderedSet Symbol} (h : StandsInFor g cur σ seen)
    (hlhs : lhs ∈ g.vocabulary) (rhs : RightSide) : StandsInFor g (cur.add lhs rhs) σ seen := by
  refine h.congr rfl rfl fun s => ?_
  rw [mem_vocabulary_add]
  refine or_iff_left_of_imp fun hs => ?_
  rw [hs]
  exact (h.vocabulary lhs).mpr (Or.inl hlhs)

theorem spends_addLifted {ps : List Production} {state : Grammar × StandIns}
    (h : StandsInFor g state.1 state.2 (pairTerminals g.vocabulary ps)) (hg : g.Supplied)
    (hrhs : rhs ∈ g.alternatives lhs) :
    (addLifted lhs state rhs).Spends g.pool.size (liftDemand g.vocabulary (ps ++ [(lhs, rhs)]))
      (.poolExhausted lhs) fun next =>
        StandsInFor g next.1 next.2 (pairTerminals g.vocabulary (ps ++ [(lhs, rhs)])) := by
  have hlhs : lhs ∈ g.vocabulary := hg.keys lhs (mem_of_mem_alternatives hrhs)
  have hsize := h.size
  have hle : (pairTerminals g.vocabulary ps).size ≤ g.pool.size := by omega
  rw [liftDemand, pairTerminals_append, List.flatMap_singleton]
  match rhs with
  | [] | [_] | _ :: _ :: _ :: _ => exact .of_pure hle (h.add hlhs _)
  | [l, r] =>
    have hl : g.UsesInPair l := ⟨lhs, _, hrhs, rfl, List.mem_cons_self ..⟩
    have hr : g.UsesInPair r :=
      ⟨lhs, _, hrhs, rfl, List.mem_cons_of_mem _ (List.mem_cons_self ..)⟩
    have hboth : ∀ seen : OrderedSet Symbol,
        seen.insertAll ((if [l, r].length = 2 then [l, r] else []).filter (· ∉ g.vocabulary)) =
          (seen.insertAll ([l].filter (· ∉ g.vocabulary))).insertAll
            ([r].filter (· ∉ g.vocabulary)) := by
      intro seen
      show seen.insertAll (([l] ++ [r]).filter (· ∉ g.vocabulary)) = _
      rw [List.filter_append, OrderedSet.insertAll, List.foldl_append]
      rfl
    rw [hboth]
    refine (spends_lift h hg hl).bind ?_ fun first hfirst => ?_
    · exact (OrderedSet.toList_prefix_insertAll _ _).length_le
    · refine (spends_lift hfirst hg hr).bind (Nat.le_refl _) fun second hsecond => ?_
      have hspent := hsecond.size
      exact .of_pure (by omega) (hsecond.add hlhs _)

theorem copies_liftTerminals (hg : g.Supplied) :
    g.liftTerminals.Copies (liftDemand g.vocabulary) g.pool.size .poolExhausted
      (fun ps g₅ => liftDemand g.vocabulary ps + g₅.pool.size = g.pool.size) [] g.productions := by
  refine Noted.Copies.map
    (P := fun ps state => StandsInFor g state.1 state.2 (pairTerminals g.vocabulary ps))
    (f := fun state : Grammar × StandIns => state.1.addAll (state.2.entries.map fun e => (e.2, [e.1])))
    (Noted.rebuild_spends
      (fun lhs (state : Grammar × StandIns) =>
        ({ state.1 with rules := state.1.rules.withKey lhs }, state.2))
      (fun lhs state rhs => addLifted lhs state rhs) ?_ ?_ ?_ ?_) ?_
  · intro ps state lhs hstate
    exact hstate.congr rfl rfl fun _ => Iff.rfl
  · intro ps state hstate
    have hsize := hstate.size
    rw [liftDemand]
    omega
  · intro ps state lhs rhs hrhs hstate
    exact spends_addLifted hstate hg (mem_productions_iff.mp hrhs)
  · refine ⟨⟨rfl, rfl, fun s => ?_, fun s hs => absurd hs List.not_mem_nil⟩, rfl⟩
    exact (or_iff_left List.not_mem_nil).symm
  · intro state hstate
    rw [pool_addAll]
    exact hstate.size

theorem exists_liftTerminals_eq_ok (hg : g.Supplied)
    (h : liftDemand g.vocabulary g.productions ≤ g.pool.size) :
    ∃ g₅, g.liftTerminals.outcome = .ok g₅ ∧
      g₅.pool.letters = g.pool.letters.drop (liftDemand g.vocabulary g.productions) := by
  obtain ⟨g₅, hok, hsize⟩ := (copies_liftTerminals hg).exists_ok (liftDemand_le_append _) h
  obtain ⟨σ, hstood⟩ := stoodIn_of_liftTerminals hg hok
  exact ⟨g₅, hok, LetterPool.letters_eq_drop hstood.pool hsize⟩

theorem exists_liftTerminals_eq_error (hg : g.Supplied)
    (h : g.pool.size < liftDemand g.vocabulary g.productions) :
    ∃ lhs, ExceedsAt (liftDemand g.vocabulary) g.pool.size g.productions lhs ∧
      g.liftTerminals.outcome = .error (.poolExhausted lhs) :=
  (copies_liftTerminals hg).exists_error (fun _ hsize => by omega) h

end Grammar

end ChomskyForm
