import ChomskyForm.Proofs.Outcome

/-!
# Work on a budget of letters

A stage may need more letters than are free.  Its expenses are counted from its beginning, so that a
step is known by the total that it leads to (`Noted.Spends`).  A stage that builds the table anew
either comes to its end, or it fails at the first production with which the total passes the limit
(`Noted.rebuild_spends`).
-/

namespace ChomskyForm

/-- With a production of `lhs` the need of the productions first exceeds the limit. -/
def ExceedsAt (need : List Production → Nat) (limit : Nat) (ps : List Production)
    (lhs : Symbol) : Prop :=
  ∃ before rhs after, ps = before ++ (lhs, rhs) :: after ∧ need before ≤ limit ∧
    limit < need (before ++ [(lhs, rhs)])

theorem not_exceedsAt {need : List Production → Nat} (mono : ∀ ps qs, need ps ≤ need (ps ++ qs))
    {limit : Nat} {ps : List Production} (h : need ps ≤ limit) (lhs : Symbol) :
    ¬ExceedsAt need limit ps lhs := by
  rintro ⟨before, rhs, after, rfl, _, hover⟩
  have hle := mono (before ++ [(lhs, rhs)]) after
  rw [← List.append_cons] at hle
  omega

namespace Noted

section Steps

variable {ε α β : Type} {limit m n : Nat} {e : ε} {P : α → Prop} {Q : β → Prop}

/-- The work brings the expenses to `n`, with a result that has `P`; if the limit is less, it
fails. -/
def Spends (limit n : Nat) (e : ε) (P : α → Prop) (x : Noted ε α) : Prop :=
  (n ≤ limit ∧ ∃ a, x.outcome = .ok a ∧ P a) ∨ (limit < n ∧ x.outcome = .error e)

theorem Spends.of_pure {a : α} (h : n ≤ limit) (ha : P a) : (pure a : Noted ε α).Spends limit n e P :=
  Or.inl ⟨h, a, rfl, ha⟩

theorem Spends.bind {x : Noted ε α} {f : α → Noted ε β} (hx : x.Spends limit m e P) (hmn : m ≤ n)
    (hf : ∀ a, P a → (f a).Spends limit n e Q) : (x >>= f).Spends limit n e Q := by
  rcases hx with ⟨_, a, ha, hP⟩ | ⟨hover, herror⟩
  · simp only [Spends, outcome_bind, ha]
    exact hf a hP
  · right
    rw [outcome_bind, herror]
    exact ⟨by omega, rfl⟩

end Steps

section Folds

variable {ε α β γ : Type} {need : List Production → Nat} {limit : Nat} {err : Symbol → ε}
  {P : List Production → α → Prop} {Q : List Production → β → Prop}

/-- Work that comes after the productions `ps` and copies `qs`: it leads on to the state for both, or
it fails at the first of `qs` that needs too much. -/
def Copies (need : List Production → Nat) (limit : Nat) (err : Symbol → ε)
    (P : List Production → α → Prop) (ps qs : List Production) (x : Noted ε α) : Prop :=
  (∃ a, x.outcome = .ok a ∧ P (ps ++ qs) a) ∨
    ∃ lhs, ExceedsAt (fun before => need (ps ++ before)) limit qs lhs ∧ x.outcome = .error (err lhs)

theorem Copies.bind {ps qs rs : List Production} {x : Noted ε α} {f : α → Noted ε β}
    (hx : x.Copies need limit err P ps qs)
    (hf : ∀ a, P (ps ++ qs) a → (f a).Copies need limit err Q (ps ++ qs) rs) :
    (x >>= f).Copies need limit err Q ps (qs ++ rs) := by
  rcases hx with ⟨a, ha, hP⟩ | ⟨lhs, ⟨before, rhs, after, rfl, hle, hlt⟩, herror⟩
  · rcases hf a hP with ⟨b, hb, hQ⟩ | ⟨lhs, ⟨before, rhs, after, rfl, hle, hlt⟩, herror⟩
    · left
      rw [outcome_bind, ha, ← List.append_assoc]
      exact ⟨b, hb, hQ⟩
    · right
      rw [outcome_bind, ha]
      refine ⟨lhs, ⟨qs ++ before, rhs, after, (List.append_assoc ..).symm, ?_, ?_⟩, herror⟩
      · show need (ps ++ (qs ++ before)) ≤ limit
        rw [← List.append_assoc]
        exact hle
      · show limit < need (ps ++ (qs ++ before ++ [(lhs, rhs)]))
        rw [List.append_assoc qs, ← List.append_assoc ps]
        exact hlt
  · right
    rw [outcome_bind, herror]
    have hsplit : before ++ (lhs, rhs) :: after ++ rs = before ++ (lhs, rhs) :: (after ++ rs) :=
      List.append_assoc ..
    exact ⟨lhs, ⟨before, rhs, after ++ rs, hsplit, hle, hlt⟩, rfl⟩

theorem Copies.map {ps qs : List Production} {x : Noted ε α} {f : α → β}
    (hx : x.Copies need limit err P ps qs) (hf : ∀ a, P (ps ++ qs) a → Q (ps ++ qs) (f a)) :
    (x >>= fun a => pure (f a)).Copies need limit err Q ps qs := by
  have hbind : (x >>= fun a => pure (f a)).Copies need limit err Q ps (qs ++ []) := by
    refine hx.bind fun a ha => Or.inl ⟨f a, rfl, ?_⟩
    rw [List.append_nil]
    exact hf a ha
  rw [List.append_nil] at hbind
  exact hbind

/-- Work on a table succeeds if the limit is enough for it. -/
theorem Copies.exists_ok (mono : ∀ ps qs, need ps ≤ need (ps ++ qs)) {qs : List Production}
    {x : Noted ε α} (hx : x.Copies need limit err P [] qs) (h : need qs ≤ limit) :
    ∃ a, x.outcome = .ok a ∧ P qs a := by
  rcases hx with hok | ⟨lhs, hexceeds, _⟩
  · exact hok
  · exact absurd hexceeds (not_exceedsAt mono h lhs)

theorem Copies.exists_error {qs : List Production} {x : Noted ε α}
    (hx : x.Copies need limit err P [] qs) (enough : ∀ a, P qs a → need qs ≤ limit)
    (h : limit < need qs) :
    ∃ lhs, ExceedsAt need limit qs lhs ∧ x.outcome = .error (err lhs) := by
  rcases hx with ⟨a, _, hP⟩ | herror
  · have hle := enough a hP
    omega
  · exact herror

theorem copies_foldlM {f : α → γ → Noted ε α} (part : γ → List Production) {cs : List γ}
    (step : ∀ ps b c, c ∈ cs → P ps b → (f b c).Copies need limit err P ps (part c))
    {ps : List Production} {b : α} (start : P ps b) :
    (cs.foldlM f b).Copies need limit err P ps (cs.flatMap part) := by
  induction cs generalizing ps b with
  | nil =>
    left
    rw [List.flatMap_nil, List.append_nil]
    exact ⟨b, rfl, start⟩
  | cons c cs ih =>
    rw [List.foldlM_cons, List.flatMap_cons]
    refine Copies.bind (step ps b c (List.mem_cons_self ..) start) fun b' hb' => ?_
    exact ih (fun ps b d hd => step ps b d (List.mem_cons_of_mem _ hd)) hb'

/-- A stage that copies a table on a budget. -/
theorem rebuild_spends (addKey : Symbol → α → α) (copy : Symbol → α → RightSide → Noted ε α)
    (key : ∀ ps b lhs, P ps b → P ps (addKey lhs b)) (enough : ∀ ps b, P ps b → need ps ≤ limit)
    {rules : RuleTable} (alternative : ∀ ps b lhs rhs, (lhs, rhs) ∈ rules.productions → P ps b →
      (copy lhs b rhs).Spends limit (need (ps ++ [(lhs, rhs)])) (err lhs) (P (ps ++ [(lhs, rhs)])))
    {b : α} (start : P [] b) :
    (rules.entries.foldlM (fun b (e : Symbol × List RightSide) =>
      e.2.foldlM (copy e.1) (addKey e.1 b)) b).Copies need limit err P [] rules.productions := by
  refine copies_foldlM (fun e : Symbol × List RightSide => e.2.map fun rhs => (e.1, rhs)) ?_ start
  intro ps b e he hP
  rw [List.map_eq_flatMap]
  refine copies_foldlM (fun rhs => [(e.1, rhs)]) ?_ (key ps b e.1 hP)
  intro ps b rhs hrhs hP
  have hrule := RuleTable.mem_productions.mpr ⟨e, he, rfl, hrhs⟩
  rcases alternative ps b e.1 rhs hrule hP with ⟨_, hok⟩ | ⟨hover, herror⟩
  · exact Or.inl hok
  · refine Or.inr ⟨e.1, ⟨[], rhs, [], rfl, ?_, hover⟩, herror⟩
    show need (ps ++ []) ≤ limit
    rw [List.append_nil]
    exact enough ps b hP

end Folds

end Noted

end ChomskyForm
