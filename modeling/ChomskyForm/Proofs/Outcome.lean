import ChomskyForm.NormalForm.Failure
import ChomskyForm.Proofs.RuleTable
import Mathlib.Data.List.Forall2

/-!
# Work that came to an end

What is known of the steps of a piece of work when the whole did not fail.  `foldlM_induction` takes
an invariant of what has been done so far through a fold, `rebuild_trace` through the two nested folds
by which a stage builds a table anew: over its keys, and over the alternatives of each.  Where the
invariant does not ask what became of an alternative, it is `rebuild_induction`.
-/

namespace ChomskyForm

theorem foldlM_induction {ε β γ : Type} {f : β → γ → Except ε β} {P : List γ → β → Prop}
    {cs : List γ}
    (step : ∀ done c b b', c ∈ cs → P done b → f b c = .ok b' → P (done ++ [c]) b')
    {b b' : β} (start : P [] b) (h : cs.foldlM f b = .ok b') : P cs b' := by
  have key : ∀ rest done b, (∀ c ∈ rest, c ∈ cs) → P done b → rest.foldlM f b = .ok b' →
      P (done ++ rest) b' := by
    intro rest
    induction rest with
    | nil =>
      intro done b _ hP hfold
      rw [List.foldlM_nil] at hfold
      cases hfold
      rw [List.append_nil]
      exact hP
    | cons c rest ih =>
      intro done b hsub hP hfold
      rw [List.foldlM_cons] at hfold
      cases hc : f b c with
      | error e =>
        rw [hc] at hfold
        cases hfold
      | ok b₁ =>
        rw [hc] at hfold
        have hstep := step done c b b₁ (hsub c (List.mem_cons_self ..)) hP hc
        have hrest := ih (done ++ [c]) b₁ (fun d hd => hsub d (List.mem_cons_of_mem _ hd)) hstep hfold
        rw [List.append_assoc] at hrest
        exact hrest
  exact key cs [] b (fun _ hc => hc) start h

/-- A fold comes to its end if no step can fail where the invariant holds. -/
theorem exists_foldlM_eq_ok {ε β γ : Type} {f : β → γ → Except ε β} {P : β → Prop} {cs : List γ}
    (step : ∀ b c, c ∈ cs → P b → ∃ b', f b c = .ok b' ∧ P b') {b : β} (start : P b) :
    ∃ b', cs.foldlM f b = .ok b' ∧ P b' := by
  induction cs generalizing b with
  | nil => exact ⟨b, rfl, start⟩
  | cons c cs ih =>
    obtain ⟨b₁, hc, hP⟩ := step b c (List.mem_cons_self ..) start
    obtain ⟨b', hfold, hP'⟩ := ih (fun b d hd => step b d (List.mem_cons_of_mem _ hd)) hP
    refine ⟨b', ?_, hP'⟩
    rw [List.foldlM_cons, hc]
    exact hfold

/-- A fold does what a fold without failures does, if each step does so where the invariant holds. -/
theorem foldlM_eq_ok {ε α β γ : Type} {f : β → γ → Except ε β} {g : α → γ → α} {P : α → Prop}
    (place : α → β) {cs : List γ}
    (step : ∀ a c, c ∈ cs → P a → f (place a) c = .ok (place (g a c)) ∧ P (g a c)) {a : α}
    (start : P a) : cs.foldlM f (place a) = .ok (place (cs.foldl g a)) := by
  induction cs generalizing a with
  | nil => rfl
  | cons c cs ih =>
    obtain ⟨hc, hP⟩ := step a c (List.mem_cons_self ..) start
    rw [List.foldlM_cons, hc, List.foldl_cons]
    exact ih (fun a d hd => step a d (List.mem_cons_of_mem _ hd)) hP

theorem exists_of_map_eq_ok {ε α β : Type} {f : α → β} {x : Except ε α} {b : β}
    (h : f <$> x = .ok b) : ∃ a, x = .ok a ∧ b = f a := by
  cases x with
  | error e => cases h
  | ok a =>
    cases h
    exact ⟨a, rfl, rfl⟩

theorem exists_of_bind_eq_ok {ε α β : Type} {x : Except ε α} {f : α → Except ε β} {b : β}
    (h : x >>= f = .ok b) : ∃ a, x = .ok a ∧ f a = .ok b := by
  cases x with
  | error e => cases h
  | ok a => exact ⟨a, rfl, h⟩

theorem eq_ok_of_toOption_eq_some {ε α : Type} {x : Except ε α} {a : α}
    (h : x.toOption = some a) : x = .ok a := by
  cases x with
  | error e => cases h
  | ok b =>
    cases h
    rfl

/-- What is seen of the result of a run is true of the result. -/
theorem eq_of_map_toOption {ε α β : Type} {x : Except ε α} {a : α} (h : x = .ok a) (look : α → β)
    {b : β} (hlook : x.toOption.map look = some b) : look a = b := by
  rw [h] at hlook
  exact Option.some.inj hlook

theorem exists_of_toOption_isSome {ε α : Type} {x : Except ε α} (h : x.toOption.isSome = true) :
    ∃ a, x = .ok a := by
  obtain ⟨a, ha⟩ := Option.isSome_iff_exists.mp h
  exact ⟨a, eq_ok_of_toOption_eq_some ha⟩

/-- Where reading undoes writing, a list can be read if it is a list that was written. -/
theorem mapM_eq_ok_iff {ε α β : Type} {read : α → Except ε β} {write : β → α} {P : β → Prop}
    (hread : ∀ a b, read a = .ok b ↔ a = write b ∧ P b) {as : List α} {bs : List β} :
    as.mapM read = .ok bs ↔ as = bs.map write ∧ ∀ b ∈ bs, P b := by
  induction bs generalizing as with
  | nil =>
    cases as with
    | nil => simp [pure, Except.pure]
    | cons a as =>
      simp only [List.mapM_cons, List.map_nil, reduceCtorEq, false_and, iff_false]
      intro h
      obtain ⟨b, _, h⟩ := exists_of_bind_eq_ok h
      obtain ⟨bs, _, h⟩ := exists_of_bind_eq_ok h
      cases h
  | cons b bs ih =>
    cases as with
    | nil => simp [pure, Except.pure]
    | cons a as =>
      rw [List.mapM_cons, List.map_cons, List.cons.injEq, List.forall_mem_cons]
      constructor
      · intro h
        obtain ⟨b', ha, h⟩ := exists_of_bind_eq_ok h
        obtain ⟨bs', has, h⟩ := exists_of_bind_eq_ok h
        cases h
        obtain ⟨hhead, hP⟩ := (hread a b).mp ha
        obtain ⟨htail, hPs⟩ := ih.mp has
        exact ⟨⟨hhead, htail⟩, hP, hPs⟩
      · rintro ⟨⟨hhead, htail⟩, hP, hPs⟩
        rw [(hread a b).mpr ⟨hhead, hP⟩, ih.mpr ⟨htail, hPs⟩]
        rfl

theorem map_eq_error_iff {ε α β : Type} {f : α → β} {x : Except ε α} {e : ε} :
    f <$> x = .error e ↔ x = .error e := by
  cases x with
  | error e' => simp only [Except.map_error, Except.error.injEq]
  | ok a => simp only [Except.map_ok, reduceCtorEq]

theorem bind_eq_error_iff {ε α β : Type} {x : Except ε α} {f : α → Except ε β} {e : ε} :
    x >>= f = .error e ↔ x = .error e ∨ ∃ a, x = .ok a ∧ f a = .error e := by
  cases x with
  | error e' => simp [bind, Except.bind]
  | ok a => simp [bind, Except.bind]

/-- A list cannot be read because of the first of its items that cannot. -/
theorem mapM_eq_error_iff {ε α β : Type} {read : α → Except ε β} {as : List α} {e : ε} :
    as.mapM read = .error e ↔ ∃ done a rest, as = done ++ a :: rest ∧
      (∃ bs, done.mapM read = .ok bs) ∧ read a = .error e := by
  constructor
  · intro h
    induction as with
    | nil => cases h
    | cons a as ih =>
      rw [List.mapM_cons] at h
      rcases bind_eq_error_iff.mp h with h | ⟨b, ha, h⟩
      · exact ⟨[], a, as, rfl, ⟨[], rfl⟩, h⟩
      · rcases bind_eq_error_iff.mp h with h | ⟨bs, _, h⟩
        · obtain ⟨done, a', rest, rfl, ⟨bs, hdone⟩, ha'⟩ := ih h
          refine ⟨a :: done, a', rest, rfl, ⟨b :: bs, ?_⟩, ha'⟩
          rw [List.mapM_cons, ha, hdone]
          rfl
        · cases h
  · rintro ⟨done, a, rest, rfl, ⟨bs, hdone⟩, ha⟩
    rw [List.mapM_append, hdone, List.mapM_cons, ha]
    rfl

theorem exists_of_mem_of_forall₂ {α β : Type} {R : α → β → Prop} {as : List α} {bs : List β}
    (h : List.Forall₂ R as bs) {b : β} (hb : b ∈ bs) : ∃ a ∈ as, R a b := by
  induction h with
  | nil => exact absurd hb List.not_mem_nil
  | @cons a b' as bs hhead _ ih =>
    rcases List.mem_cons.mp hb with hb | hb
    · rw [hb]
      exact ⟨a, List.mem_cons_self .., hhead⟩
    · obtain ⟨a', ha', hR⟩ := ih hb
      exact ⟨a', List.mem_cons_of_mem _ ha', hR⟩

namespace Noted

variable {ε α β γ : Type}

theorem outcome_bind_pure (x : Noted ε α) (f : α → β) :
    (do let a ← x; pure (f a) : Noted ε β).outcome = x.outcome.map f := by
  rw [outcome_bind]
  cases x.outcome with
  | error e => rfl
  | ok a => rfl

theorem outcome_bind_eq_ok_iff {x : Noted ε α} {f : α → Noted ε β} {b : β} :
    (x >>= f).outcome = .ok b ↔ ∃ a, x.outcome = .ok a ∧ (f a).outcome = .ok b := by
  rw [outcome_bind]
  cases x.outcome with
  | error e =>
    constructor
    · intro h
      cases h
    · rintro ⟨a, ha, _⟩
      cases ha
  | ok a =>
    constructor
    · intro h
      exact ⟨a, rfl, h⟩
    · rintro ⟨a', ha, hb⟩
      cases ha
      exact hb

theorem outcome_foldlM_induction {f : β → γ → Noted ε β} {P : List γ → β → Prop} {cs : List γ}
    (step : ∀ done c b b', c ∈ cs → P done b → (f b c).outcome = .ok b' → P (done ++ [c]) b')
    {b b' : β} (start : P [] b) (h : (cs.foldlM f b).outcome = .ok b') : P cs b' := by
  rw [outcome_foldlM] at h
  exact foldlM_induction step start h

/-- The invariant speaks of the entries copied so far, with what became of each alternative: `source`
tells which it was. -/
theorem rebuild_trace {δ : Type} (addKey : Symbol → β → β)
    (copy : Symbol → β → RightSide → Noted ε β) (source : δ → RightSide)
    {P : List (Symbol × List δ) → β → Prop}
    (key : ∀ done b lhs, P done b → P (done ++ [(lhs, [])]) (addKey lhs b))
    {rules : RuleTable} (alternative : ∀ done copied b b' lhs rhs, (lhs, rhs) ∈ rules.productions →
      P (done ++ [(lhs, copied)]) b → (copy lhs b rhs).outcome = .ok b' →
      ∃ c, source c = rhs ∧ P (done ++ [(lhs, copied ++ [c])]) b')
    {b b' : β} (start : P [] b)
    (h : (rules.entries.foldlM (fun b (e : Symbol × List RightSide) =>
      e.2.foldlM (copy e.1) (addKey e.1 b)) b).outcome = .ok b') :
    ∃ done, done.map (fun e => (e.1, e.2.map source)) = rules.entries ∧ P done b' := by
  refine outcome_foldlM_induction
    (P := fun es b => ∃ done, done.map (fun e => (e.1, e.2.map source)) = es ∧ P done b)
    ?_ ⟨[], rfl, start⟩ h
  rintro es ⟨lhs, rhss⟩ b b₁ he ⟨done, hdone, hP⟩ hcopy
  -- the inner fold adds to the entry that was opened last
  have hentry : ∃ copied, copied.map source = rhss ∧ P (done ++ [(lhs, copied)]) b₁ := by
    refine outcome_foldlM_induction
      (P := fun rhss b => ∃ copied, copied.map source = rhss ∧ P (done ++ [(lhs, copied)]) b)
      ?_ ⟨[], rfl, key done b lhs hP⟩ hcopy
    rintro seen rhs b₂ b₃ hrhs ⟨copied, hcopied, hP₂⟩ hstep
    have hrule := RuleTable.mem_productions.mpr ⟨(lhs, rhss), he, rfl, hrhs⟩
    obtain ⟨c, hc, hnext⟩ := alternative done copied b₂ b₃ lhs rhs hrule hP₂ hstep
    refine ⟨copied ++ [c], ?_, hnext⟩
    rw [List.map_append, hcopied, List.map_singleton, hc]
  obtain ⟨copied, hcopied, hnext⟩ := hentry
  refine ⟨done ++ [(lhs, copied)], ?_, hnext⟩
  rw [List.map_append, hdone, List.map_singleton, hcopied]

/-- The invariant speaks of the keys opened and the productions copied so far. -/
theorem rebuild_induction (addKey : Symbol → β → β) (copy : Symbol → β → RightSide → Noted ε β)
    {P : List Symbol → List Production → β → Prop}
    (key : ∀ ks ps b lhs, P ks ps b → P (ks ++ [lhs]) ps (addKey lhs b))
    {rules : RuleTable} (alternative : ∀ ks ps b b' lhs rhs, (lhs, rhs) ∈ rules.productions →
      P ks ps b → lhs ∈ ks → (copy lhs b rhs).outcome = .ok b' → P ks (ps ++ [(lhs, rhs)]) b')
    {b b' : β} (start : P [] [] b)
    (h : (rules.entries.foldlM (fun b (e : Symbol × List RightSide) =>
      e.2.foldlM (copy e.1) (addKey e.1 b)) b).outcome = .ok b') :
    P rules.keys rules.productions b' := by
  obtain ⟨done, hdone, hP⟩ := rebuild_trace addKey copy id
    (P := fun done b =>
      P (done.map Prod.fst) (done.flatMap fun e => e.2.map fun rhs => (e.1, rhs)) b)
    (fun done b lhs hP => by
      simp only [List.map_append, List.flatMap_append, List.map_cons, List.map_nil,
        List.flatMap_singleton, List.append_nil]
      exact key _ _ b lhs hP)
    (fun done copied b b' lhs rhs hrule hP hcopy => by
      refine ⟨rhs, rfl, ?_⟩
      simp only [List.map_append, List.flatMap_append, List.map_cons, List.map_nil,
        List.flatMap_singleton, ← List.append_assoc] at hP ⊢
      exact alternative _ _ b b' lhs rhs hrule hP (List.mem_append_right _ (List.mem_cons_self ..))
        hcopy)
    start h
  have hentries : done = rules.entries := by
    rw [← hdone]
    simp only [List.map_id, Prod.eta, List.map_id']
  rw [hentries] at hP
  exact hP

end Noted

/-! ### Drawing letters -/

namespace Grammar

/-- The grammar `g'` is `g` after the letters `ls` were drawn. -/
structure Drew (g : Grammar) (ls : List Symbol) (g' : Grammar) : Prop where
  start : g'.start = g.start
  rules : g'.rules = g.rules
  vocabulary : g'.vocabulary = g.vocabulary.insertAll ls
  pool : g.pool.letters = ls ++ g'.pool.letters

theorem Drew.refl (g : Grammar) : g.Drew [] g := ⟨rfl, rfl, rfl, rfl⟩

theorem Drew.trans {g g₁ g₂ : Grammar} {ls ms : List Symbol} (h : g.Drew ls g₁)
    (h' : g₁.Drew ms g₂) : g.Drew (ls ++ ms) g₂ where
  start := h'.start.trans h.start
  rules := h'.rules.trans h.rules
  vocabulary := by
    rw [h'.vocabulary, h.vocabulary, OrderedSet.insertAll, OrderedSet.insertAll,
      OrderedSet.insertAll, List.foldl_append]
  pool := by rw [h.pool, h'.pool, List.append_assoc]

theorem drew_of_draw {g g' : Grammar} {letter : Symbol} (h : g.draw = some (letter, g')) :
    g.Drew [letter] g' := by
  simp only [draw, Option.map_eq_some_iff, Prod.exists, Prod.mk.injEq] at h
  obtain ⟨s, rest, hdraw, hs, hg⟩ := h
  subst hs
  subst hg
  exact ⟨rfl, rfl, rfl, LetterPool.letters_eq_of_draw hdraw⟩

theorem drew_of_drawFor {g g' : Grammar} {lhs letter : Symbol} {purpose : Symbol → Notice}
    (h : (g.drawFor lhs purpose).outcome = .ok (letter, g')) : g.Drew [letter] g' := by
  cases hdraw : g.draw with
  | none =>
    rw [drawFor_of_none hdraw] at h
    cases h
  | some drawn =>
    obtain ⟨s, rest⟩ := drawn
    rw [drawFor_of_some hdraw] at h
    cases h
    exact drew_of_draw hdraw

theorem Drew.mem_vocabulary {g g' : Grammar} {ls : List Symbol} (h : g.Drew ls g') {s : Symbol} :
    s ∈ g'.vocabulary ↔ s ∈ g.vocabulary ∨ s ∈ ls := by
  rw [h.vocabulary, OrderedSet.mem_insertAll]

end Grammar

end ChomskyForm
