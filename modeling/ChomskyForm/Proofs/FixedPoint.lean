import ChomskyForm.Saturation
import Mathlib.Logic.Function.Iterate

/-!
# Sweeps reach their fixed point

A sweep that only adds members at the end of a set is at its fixed point after as many rounds as
there are possible members, and a walk over a growing set comes to its end after as many visits.
-/

namespace ChomskyForm

variable {α : Type}

/-! ### Sets that grow at the end -/

namespace OrderedSet

theorem size_le_of_subset {s : OrderedSet α} (domain : List α)
    (h : ∀ a ∈ s, a ∈ domain) : s.size ≤ domain.length :=
  List.Nodup.length_le_of_subset s.nodup fun a ha => h a ha

theorem eq_of_prefix_of_size_le {s t : OrderedSet α} (h : s.toList <+: t.toList)
    (hsize : t.size ≤ s.size) : t = s := by
  have heq : s.toList = t.toList := h.eq_of_length (Nat.le_antisymm h.length_le hsize)
  exact ext heq.symm

variable [DecidableEq α]

theorem toList_prefix_insert (s : OrderedSet α) (a : α) : s.toList <+: (s.insert a).toList := by
  by_cases h : a ∈ s
  · have heq : s.insert a = s := insert_of_mem h
    simp only [heq, List.prefix_refl]
  · rw [toList_insert_of_not_mem h]
    exact List.prefix_append ..

theorem toList_prefix_insertAll (s : OrderedSet α) (as : List α) :
    s.toList <+: (s.insertAll as).toList := by
  induction as generalizing s with
  | nil => exact List.prefix_refl _
  | cons a as ih => exact (toList_prefix_insert s a).trans (ih (s.insert a))

theorem forall_mem_insertAll_iff {s : OrderedSet α} {as : List α} {P : α → Prop} :
    (∀ a ∈ s.insertAll as, P a) ↔ (∀ a ∈ s, P a) ∧ ∀ a ∈ as, P a := by
  simp only [mem_insertAll, or_imp, forall_and]

theorem insertAll_eq_self_iff {s : OrderedSet α} {as : List α} :
    s.insertAll as = s ↔ ∀ a ∈ as, a ∈ s := by
  constructor
  · intro h a ha
    rw [← h]
    exact mem_insertAll.mpr (Or.inr ha)
  · intro h
    induction as with
    | nil => rfl
    | cons a as ih =>
      have hstep : s.insertAll (a :: as) = (s.insert a).insertAll as := rfl
      rw [hstep, insert_of_mem (h a (List.mem_cons_self ..))]
      exact ih fun b hb => h b (List.mem_cons_of_mem _ hb)

theorem insertAll_filter_not_mem (s : OrderedSet α) (as : List α) :
    s.insertAll (as.filter (· ∉ s)) = s.insertAll as := by
  have hgrown : ∀ t : OrderedSet α, (∀ a ∈ s, a ∈ t) →
      t.insertAll (as.filter (· ∉ s)) = t.insertAll as := by
    induction as with
    | nil => exact fun _ _ => rfl
    | cons a as ih =>
      intro t hsub
      have hstep : ∀ bs : List α, t.insertAll (a :: bs) = (t.insert a).insertAll bs := fun _ => rfl
      by_cases ha : a ∈ s
      · simp only [List.filter_cons, ha, not_true_eq_false, decide_false, Bool.false_eq_true,
          ↓reduceIte, hstep, insert_of_mem (hsub a ha)]
        exact ih t hsub
      · simp only [List.filter_cons, ha, not_false_eq_true, decide_true, ↓reduceIte, hstep]
        exact ih _ fun b hb => mem_insert.mpr (Or.inl (hsub b hb))
  exact hgrown s fun _ ha => ha

theorem toList_erase_of_eq_cons {s : OrderedSet α} {a : α} {rest : List α}
    (h : s.toList = a :: rest) : (s.erase a).toList = rest := by
  have hnodup := s.nodup
  rw [h, List.nodup_cons] at hnodup
  show s.toList.filter (fun b => decide (b ≠ a)) = rest
  rw [h, List.filter_cons_of_neg (by simp only [ne_eq, not_true_eq_false, decide_false,
    Bool.false_eq_true, not_false_eq_true]), List.filter_eq_self]
  intro b hb
  refine decide_eq_true fun hba => ?_
  rw [hba] at hb
  exact hnodup.1 hb

end OrderedSet

/-! ### Sweeps -/

variable [DecidableEq α]

theorem saturate_eq_iterate (sweep : α → α) (passes : Nat) (a : α) :
    saturate sweep passes a = sweep^[passes] a := by
  induction passes generalizing a with
  | zero => rfl
  | succ passes ih => rw [saturate_succ, ih, Function.iterate_succ_apply]

section Sweeps

variable {sweep : OrderedSet α → OrderedSet α}

omit [DecidableEq α] in
theorem prefix_iterate (sweep : OrderedSet α → OrderedSet α)
    (grows : ∀ s, s.toList <+: (sweep s).toList) (s : OrderedSet α) (k : Nat) :
    s.toList <+: (sweep^[k] s).toList := by
  induction k generalizing s with
  | zero => exact List.prefix_refl _
  | succ k ih => exact (grows s).trans (ih (sweep s))

omit [DecidableEq α] in
theorem iterate_fixed_of_le {s : OrderedSet α} {k n : Nat} (hkn : k ≤ n)
    (h : sweep (sweep^[k] s) = sweep^[k] s) : sweep (sweep^[n] s) = sweep^[n] s := by
  obtain ⟨d, rfl⟩ := Nat.exists_eq_add_of_le hkn
  have hd : sweep^[k + d] s = sweep^[k] s := by
    rw [Nat.add_comm, Function.iterate_add_apply]
    exact Function.iterate_fixed h d
  rw [hd]
  exact h

/-- Each of the first `n` sweeps would have to add a member if the last of them still did. -/
theorem iterate_fixed (grows : ∀ s, s.toList <+: (sweep s).toList) {s : OrderedSet α} {n : Nat}
    (bound : ∀ k, (sweep^[k] s).size ≤ n) : sweep (sweep^[n] s) = sweep^[n] s := by
  by_contra hmoving
  have hsize : ∀ k, k ≤ n + 1 → k ≤ (sweep^[k] s).size := by
    intro k
    induction k with
    | zero =>
      intro _
      exact Nat.zero_le _
    | succ k ih =>
      intro hk
      have hprev := ih (by omega)
      rw [Function.iterate_succ_apply']
      by_contra hlt
      have hle : (sweep (sweep^[k] s)).size ≤ (sweep^[k] s).size := by omega
      have hfixed := OrderedSet.eq_of_prefix_of_size_le (grows _) hle
      exact hmoving (iterate_fixed_of_le (by omega) hfixed)
  have hlast := hsize (n + 1) (Nat.le_refl _)
  have hbound := bound (n + 1)
  omega

theorem saturate_fixed (grows : ∀ s, s.toList <+: (sweep s).toList) {s : OrderedSet α}
    {n passes : Nat} (bound : ∀ k, (sweep^[k] s).size ≤ n) (hpasses : n ≤ passes) :
    sweep (saturate sweep passes s) = saturate sweep passes s := by
  rw [saturate_eq_iterate]
  exact iterate_fixed_of_le hpasses (iterate_fixed grows bound)

theorem iterate_induction {P : OrderedSet α → Prop} (step : ∀ s, P s → P (sweep s))
    {s : OrderedSet α} (start : P s) (k : Nat) : P (sweep^[k] s) := by
  rw [← saturate_eq_iterate]
  exact saturate_induction step start k

end Sweeps

/-! ### Walks -/

section Walks

variable {neighbours : α → List α}

theorem explore_induction {P : OrderedSet α → Prop}
    (step : ∀ s, P s → ∀ a ∈ s, P (s.insertAll (neighbours a))) {visits i : Nat}
    {seen : OrderedSet α} (start : P seen) : P (explore neighbours visits i seen) := by
  induction visits generalizing i seen with
  | zero => exact start
  | succ visits ih =>
    rw [explore]
    cases hi : seen.toList[i]? with
    | none => exact start
    | some a => exact ih (step seen start a (List.mem_of_getElem? hi))

theorem mem_explore_of_mem {visits i : Nat} {seen : OrderedSet α} {a : α} (h : a ∈ seen) :
    a ∈ explore neighbours visits i seen :=
  explore_induction (P := fun s => a ∈ s)
    (fun _ hs _ _ => OrderedSet.mem_insertAll.mpr (Or.inl hs)) h

/-- The walk has come to position `i`; what stands before it has its neighbours in the set. -/
theorem explore_closed (domain : List α) (hstay : ∀ a, ∀ b ∈ neighbours a, b ∈ domain)
    {visits i : Nat} {seen : OrderedSet α} (hseen : ∀ a ∈ seen, a ∈ domain)
    (hbefore : ∀ a ∈ seen.toList.take i, ∀ b ∈ neighbours a, b ∈ seen)
    (henough : domain.length ≤ visits + i) :
    ∀ a ∈ explore neighbours visits i seen, ∀ b ∈ neighbours a,
      b ∈ explore neighbours visits i seen := by
  induction visits generalizing i seen with
  | zero =>
    have hsize : seen.toList.length ≤ domain.length := OrderedSet.size_le_of_subset domain hseen
    rw [List.take_of_length_le (by omega)] at hbefore
    exact hbefore
  | succ visits ih =>
    rw [explore]
    cases hi : seen.toList[i]? with
    | none =>
      rw [List.getElem?_eq_none_iff] at hi
      rw [List.take_of_length_le hi] at hbefore
      exact hbefore
    | some a =>
      have hpre := OrderedSet.toList_prefix_insertAll seen (neighbours a)
      have hlt : i < seen.toList.length := (List.getElem?_eq_some_iff.mp hi).1
      have htake : (seen.insertAll (neighbours a)).toList.take (i + 1) =
          seen.toList.take i ++ [a] := by
        obtain ⟨added, hadded⟩ := hpre
        rw [← hadded, List.take_append_of_le_length (by omega), List.take_add_one, hi]
        rfl
      refine ih (OrderedSet.forall_mem_insertAll_iff.mpr ⟨hseen, hstay a⟩) ?_ (by omega)
      intro c hc b hb
      rw [htake, List.mem_append, List.mem_singleton] at hc
      rcases hc with hc | hc
      · exact OrderedSet.mem_insertAll.mpr (Or.inl (hbefore c hc b hb))
      · rw [hc] at hb
        exact OrderedSet.mem_insertAll.mpr (Or.inr hb)

end Walks

end ChomskyForm
