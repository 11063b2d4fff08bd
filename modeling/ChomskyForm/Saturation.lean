import ChomskyForm.OrderedSet

/-!
# Repeating a sweep until it changes nothing

Two ways of growing a value to a fixed point.  `saturate` repeats a whole sweep and stops at the
first one that changes nothing; `explore` walks a growing set by position and adds the neighbours
of each member it comes to.  Both take the largest number of passes they may make, so that they are
total; a caller passes a bound under which the fixed point is always reached.
-/

namespace ChomskyForm

variable {α : Type} [DecidableEq α]

/-- Applies `sweep` until it changes nothing, at most `passes` times. -/
def saturate (sweep : α → α) : (passes : Nat) → α → α
  | 0, a => a
  | passes + 1, a =>
    let next := sweep a
    if next = a then a else saturate sweep passes next

theorem saturate_succ (sweep : α → α) (passes : Nat) (a : α) :
    saturate sweep (passes + 1) a = saturate sweep passes (sweep a) := by
  by_cases h : sweep a = a
  · have fixed : ∀ n, saturate sweep n a = a := by
      intro n
      induction n with
      | zero => rfl
      | succ n _ => simp only [saturate, h, ↓reduceIte]
    rw [h, fixed, fixed]
  · simp only [saturate, h, ↓reduceIte]

theorem saturate_of_fixed {sweep : α → α} {a : α} (h : sweep a = a) (passes : Nat) :
    saturate sweep passes a = a := by
  induction passes with
  | zero => rfl
  | succ passes _ => simp only [saturate, h, ↓reduceIte]

/-- What the sweep preserves, saturation preserves. -/
theorem saturate_induction {sweep : α → α} {P : α → Prop} (step : ∀ a, P a → P (sweep a)) {a : α}
    (start : P a) (passes : Nat) : P (saturate sweep passes a) := by
  induction passes generalizing a with
  | zero => exact start
  | succ passes ih =>
    rw [saturate_succ]
    exact ih (step a start)

/-- Visits the members of a set from position `i` on, inserting the neighbours of each, at most
`visits` members in all. -/
def explore (neighbours : α → List α) : (visits : Nat) → (i : Nat) → OrderedSet α → OrderedSet α
  | 0, _, seen => seen
  | visits + 1, i, seen =>
    match seen.toList[i]? with
    | none => seen
    | some a => explore neighbours visits (i + 1) (seen.insertAll (neighbours a))

end ChomskyForm
