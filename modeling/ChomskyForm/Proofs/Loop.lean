import ChomskyForm.Proofs.FixedPoint

/-!
# Loops without a limit

A loop makes passes over its state until one of them says that it was the last.  `Ends` follows it
without any limit and counts the passes; `limited` cuts it off.  A loop of sweeps ends one pass after
the sweeps have come to their fixed point (`Sweeping.endsWithin`), and a walk over a growing set has no
more visits than there are possible members (`exists_ends_visit`).
-/

namespace ChomskyForm

namespace Loop

variable {σ : Type} {pass : σ → ForInStep σ}

/-- From `s` on the loop makes `n` passes, and the last of them leaves it with `r`. -/
inductive Ends (pass : σ → ForInStep σ) : (n : Nat) → (s r : σ) → Prop
  | last {s r : σ} (leaves : pass s = .done r) : Ends pass 1 s r
  | again {n : Nat} {s t r : σ} (goesOn : pass s = .yield t) (rest : Ends pass n t r) :
      Ends pass (n + 1) s r

/-- What the loop has come to when it is cut off after at most `limit` passes. -/
def limited (pass : σ → ForInStep σ) : (limit : Nat) → σ → σ
  | 0, s => s
  | limit + 1, s =>
    match pass s with
    | .done r => r
    | .yield t => limited pass limit t

/-- The loop ends with `r` after at most `bound` passes, and so it does under any limit that allows that
many. -/
structure EndsWithin (pass : σ → ForInStep σ) (bound : Nat) (s r : σ) : Prop where
  ends : ∃ n ≤ bound, Ends pass n s r
  cutOff : ∀ limit, bound ≤ limit → limited pass limit s = r

theorem Ends.limited_eq {n limit : Nat} {s r : σ} (h : Ends pass n s r) (hlimit : n ≤ limit) :
    limited pass limit s = r := by
  induction h generalizing limit with
  | last leaves =>
    obtain ⟨rest, rfl⟩ := Nat.exists_eq_add_of_le' hlimit
    simp only [limited, leaves]
  | again goesOn _ ih =>
    obtain ⟨rest, rfl⟩ := Nat.exists_eq_add_of_le' (Nat.le_of_add_left_le hlimit)
    simp only [limited, goesOn]
    exact ih (Nat.le_of_add_le_add_right hlimit)

theorem Ends.pos {n : Nat} {s r : σ} (h : Ends pass n s r) : 0 < n := by
  cases h with
  | last _ => exact Nat.zero_lt_one
  | again _ _ => exact Nat.zero_lt_succ _

/-- A last pass that changes nothing need not be made. -/
theorem Ends.limited_eq_of_keeps (hkeeps : ∀ s r, pass s = .done r → r = s) {n limit : Nat}
    {s r : σ} (h : Ends pass n s r) (hlimit : n ≤ limit + 1) : limited pass limit s = r := by
  induction h generalizing limit with
  | last leaves =>
    cases limit with
    | zero => exact (hkeeps _ _ leaves).symm
    | succ limit => simp only [limited, leaves]
  | again goesOn rest ih =>
    have hn := rest.pos
    obtain ⟨limit, rfl⟩ := Nat.exists_eq_add_of_le' (Nat.le_trans hn (Nat.le_of_succ_le_succ hlimit))
    simp only [limited, goesOn]
    exact ih (Nat.le_of_succ_le_succ hlimit)

theorem endsWithin_of_ends {n bound : Nat} {s r : σ} (h : Ends pass n s r) (hn : n ≤ bound) :
    EndsWithin pass bound s r :=
  ⟨⟨n, hn, h⟩, fun _ hlimit => h.limited_eq (Nat.le_trans hn hlimit)⟩

/-! ### Sweeping until nothing changes -/

section Sweeps

variable {α : Type} [DecidableEq α] {view : α → σ} {sweep : α → α}

/-- Each pass is a sweep, and the loop goes on if that has changed something.  In the state `view a` the
loop holds `a`. -/
structure Sweeping (pass : σ → ForInStep σ) (view : α → σ) (sweep : α → α) : Prop where
  still : ∀ a, sweep a = a → pass (view a) = .done (view a)
  moving : ∀ a, sweep a ≠ a → pass (view a) = .yield (view (sweep a))

theorem Sweeping.exists_ends (h : Sweeping pass view sweep) {n : Nat} {a : α}
    (hfixed : sweep (sweep^[n] a) = sweep^[n] a) :
    ∃ k ≤ n + 1, Ends pass k (view a) (view (sweep^[n] a)) := by
  induction n generalizing a with
  | zero => exact ⟨1, Nat.le_refl 1, .last (h.still a hfixed)⟩
  | succ n ih =>
    by_cases ha : sweep a = a
    · rw [Function.iterate_fixed ha]
      exact ⟨1, Nat.le_add_left 1 _, .last (h.still a ha)⟩
    · obtain ⟨k, hk, hends⟩ := ih hfixed
      exact ⟨k + 1, Nat.succ_le_succ hk, .again (h.moving a ha) hends⟩

/-- If `n` sweeps come to the fixed point, one more pass sees that they have. -/
theorem Sweeping.endsWithin (h : Sweeping pass view sweep) {n : Nat} {a : α}
    (hfixed : sweep (sweep^[n] a) = sweep^[n] a) :
    EndsWithin pass (n + 1) (view a) (view (saturate sweep (n + 1) a)) := by
  rw [saturate_eq_iterate, Function.iterate_succ_apply', hfixed]
  obtain ⟨k, hk, hends⟩ := h.exists_ends hfixed
  exact endsWithin_of_ends hends hk

end Sweeps

/-! ### Walking over a growing set -/

section Walks

variable {α : Type} [DecidableEq α] {neighbours : α → List α}

/-- Visits the member at a position of the set and puts its neighbours at the end.  Behind the last
member the walk is over. -/
def visit (neighbours : α → List α) (state : Nat × OrderedSet α) : ForInStep (Nat × OrderedSet α) :=
  match state.2.toList[state.1]? with
  | none => .done state
  | some a => .yield (state.1 + 1, state.2.insertAll (neighbours a))

theorem visit_of_none {i : Nat} {seen : OrderedSet α} (h : seen.toList[i]? = none) :
    visit neighbours (i, seen) = .done (i, seen) := by
  simp only [visit, h]

theorem visit_of_some {i : Nat} {seen : OrderedSet α} {a : α} (h : seen.toList[i]? = some a) :
    visit neighbours (i, seen) = .yield (i + 1, seen.insertAll (neighbours a)) := by
  simp only [visit, h]

theorem eq_of_visit_eq_done {state result : Nat × OrderedSet α}
    (h : visit neighbours state = .done result) : result = state := by
  obtain ⟨i, seen⟩ := state
  cases hi : seen.toList[i]? with
  | none =>
    rw [visit_of_none hi] at h
    cases h
    rfl
  | some a =>
    rw [visit_of_some hi] at h
    cases h

/-- The walk visits each possible member at most once, and counts the visits by its position. -/
theorem exists_ends_visit (domain : List α) (hstay : ∀ a, ∀ b ∈ neighbours a, b ∈ domain)
    {bound i : Nat} {seen : OrderedSet α} (hseen : ∀ a ∈ seen, a ∈ domain)
    (henough : domain.length ≤ bound + i) :
    ∃ visits ≤ bound, Ends (visit neighbours) (visits + 1) (i, seen)
      (i + visits, explore neighbours bound i seen) := by
  -- the position goes up by one with each visit, and so the bound goes down
  induction bound generalizing i seen with
  | zero =>
    have hsize : seen.toList.length ≤ domain.length := OrderedSet.size_le_of_subset domain hseen
    have hend : seen.toList[i]? = none := List.getElem?_eq_none_iff.mpr (by omega)
    exact ⟨0, Nat.le_refl 0, .last (visit_of_none hend)⟩
  | succ bound ih =>
    rw [explore]
    cases hi : seen.toList[i]? with
    | none => exact ⟨0, Nat.zero_le _, .last (visit_of_none hi)⟩
    | some a =>
      have hseen' : ∀ b ∈ seen.insertAll (neighbours a), b ∈ domain :=
        OrderedSet.forall_mem_insertAll_iff.mpr ⟨hseen, hstay a⟩
      obtain ⟨visits, hvisits, hends⟩ := ih hseen' (i := i + 1) (by omega)
      have hposition : i + 1 + visits = i + (visits + 1) := by omega
      rw [hposition] at hends
      exact ⟨visits + 1, Nat.succ_le_succ hvisits, .again (visit_of_some hi) hends⟩

end Walks

end Loop

end ChomskyForm
