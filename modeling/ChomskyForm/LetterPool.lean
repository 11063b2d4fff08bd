import ChomskyForm.Symbol

/-!
# Letters for new nonterminals

New nonterminals are named by letters that the grammar does not use.  Capitals are given out first,
then small letters, and the empty marker never.  A pool is always a part of the alphabet in its
order, which the type records.
-/

namespace ChomskyForm

/-- The letters that may name a nonterminal, in the order in which they are given out. -/
def alphabet : List Symbol :=
  RightSide.ofChars "ABCDEFGHIJKLMNOPQRSTUVWXYZabcdfghijklmnopqrstuvwxyz".toList

theorem alphabet_nodup : alphabet.Nodup := by decide +kernel

theorem marker_not_mem_alphabet : Symbol.marker ∉ alphabet := by decide +kernel

/-- The letters that are still free, in the order in which they will be given out. -/
structure LetterPool where
  letters : List Symbol
  sublist : letters.Sublist alphabet
deriving DecidableEq

namespace LetterPool

/-- All letters but the used ones. -/
def excluding (used : List Symbol) : LetterPool :=
  ⟨alphabet.filter (· ∉ used), List.filter_sublist⟩

theorem mem_excluding {used : List Symbol} {s : Symbol} :
    s ∈ (excluding used).letters ↔ s ∈ alphabet ∧ s ∉ used := by
  simp only [excluding, List.mem_filter, decide_eq_true_eq]

theorem nodup (p : LetterPool) : p.letters.Nodup := List.Pairwise.sublist p.sublist alphabet_nodup

theorem ne_marker {p : LetterPool} {s : Symbol} (h : s ∈ p.letters) : s ≠ Symbol.marker := by
  rintro rfl
  exact marker_not_mem_alphabet (p.sublist.subset h)

def size (p : LetterPool) : Nat := p.letters.length

/-- Takes the first letter out of the pool. -/
def draw : LetterPool → Option (Symbol × LetterPool)
  | ⟨[], _⟩ => none
  | ⟨s :: rest, h⟩ => some (s, ⟨rest, (List.sublist_cons_self s rest).trans h⟩)

theorem draw_eq_none_iff {p : LetterPool} : p.draw = none ↔ p.letters = [] := by
  obtain ⟨letters, h⟩ := p
  cases letters with
  | nil => exact ⟨fun _ => rfl, fun _ => rfl⟩
  | cons s rest => exact ⟨fun h => (nomatch h), fun h => (nomatch h)⟩

theorem letters_eq_of_draw {p q : LetterPool} {s : Symbol} (h : p.draw = some (s, q)) :
    p.letters = s :: q.letters := by
  obtain ⟨letters, hp⟩ := p
  cases letters with
  | nil => cases h
  | cons a rest =>
    cases h
    rfl

/-- Takes `n` letters one after the other, with `none` for each that is not there any more. -/
def drawMany : (n : Nat) → LetterPool → List (Option Symbol) × LetterPool
  | 0, p => ([], p)
  | n + 1, p =>
    match p.draw with
    | none => (List.replicate (n + 1) none, p)
    | some (s, rest) =>
      let (drawn, left) := drawMany n rest
      (some s :: drawn, left)

end LetterPool

end ChomskyForm
