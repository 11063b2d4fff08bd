import ChomskyForm.GrammarFile.Token
import ChomskyForm.Proofs.Outcome
import Mathlib.Data.List.TakeWhile

/-!
# Lines and their tokens

A line renders a list of tokens if it consists of them in their order, with blanks before, between
and after them (`Token.Renders`).  After a word no further character of a word may stand, as the word
would be longer then; so two words have a blank, a bar or an arrow between them.  The lexer returns
the tokens that the line renders, and fails if there are none (`Token.lex_eq_ok_iff`).
-/

namespace ChomskyForm

/-- A text of blanks only, which may be empty. -/
def IsBlankText (cs : List Char) : Prop := ∀ c ∈ cs, isBlank c = true

theorem isBlankText_nil : IsBlankText [] := fun _ hc => absurd hc List.not_mem_nil

theorem isBlankText_append {cs ds : List Char} (hcs : IsBlankText cs) (hds : IsBlankText ds) :
    IsBlankText (cs ++ ds) := by
  intro c hc
  exact (List.mem_append.mp hc).elim (hcs c) (hds c)

namespace Token

/-! ### What may stand in a word -/

theorem isWordChar_eq_true_iff {c : Char} :
    isWordChar c = true ↔ isBlank c = false ∧ c ≠ '|' ∧ c ≠ '-' := by
  simp only [isWordChar, ne_eq, Bool.and_eq_true, Bool.not_eq_true', decide_eq_true_eq, and_assoc]

theorem isWordChar_eq_false_of_isBlank {c : Char} (h : isBlank c = true) :
    isWordChar c = false := by
  simp only [isWordChar, h, Bool.not_true, Bool.false_and]

/-- No word goes on at the front of the text. -/
def EndsWord (rest : List Char) : Prop := ∀ c ∈ rest.head?, isWordChar c = false

theorem endsWord_cons_iff {c : Char} {rest : List Char} :
    EndsWord (c :: rest) ↔ isWordChar c = false := by
  simp only [EndsWord, List.head?_cons, Option.mem_def, Option.some.injEq, forall_eq']

theorem endsWord_of_isBlankText {cs : List Char} (h : IsBlankText cs) : EndsWord cs := by
  intro c hc
  exact isWordChar_eq_false_of_isBlank (h c (List.mem_of_mem_head? hc))

theorem endsWord_append_cons {cs rest : List Char} {c : Char} (hcs : IsBlankText cs)
    (hc : isWordChar c = false) : EndsWord (cs ++ c :: rest) := by
  cases cs with
  | nil => exact endsWord_cons_iff.mpr hc
  | cons d ds =>
    exact endsWord_cons_iff.mpr (isWordChar_eq_false_of_isBlank (hcs d (List.mem_cons_self ..)))

theorem endsWord_dropWhile (line : List Char) : EndsWord (line.dropWhile isWordChar) := by
  have hhead := List.head?_dropWhile_not isWordChar line
  intro c hc
  rw [Option.mem_def.mp hc] at hhead
  exact hhead

theorem takeWhile_append_of_endsWord {cs rest : List Char} (hcs : ∀ c ∈ cs, isWordChar c = true)
    (hrest : EndsWord rest) : (cs ++ rest).takeWhile isWordChar = cs := by
  rw [List.takeWhile_append_of_pos hcs]
  cases rest with
  | nil => exact List.append_nil cs
  | cons c rest =>
    rw [List.takeWhile_cons, endsWord_cons_iff.mp hrest]
    exact List.append_nil cs

theorem dropWhile_append_of_endsWord {cs rest : List Char} (hcs : ∀ c ∈ cs, isWordChar c = true)
    (hrest : EndsWord rest) : (cs ++ rest).dropWhile isWordChar = rest := by
  rw [List.dropWhile_append_of_pos hcs]
  cases rest with
  | nil => rfl
  | cons c rest =>
    rw [List.dropWhile_cons, endsWord_cons_iff.mp hrest]
    rfl

/-! ### Renderings -/

/-- The token can be read off the front of the text, and the rest is left. -/
def StandsBefore : Token → List Char → Prop
  | word cs, rest => (cs ≠ [] ∧ ∀ c ∈ cs, isWordChar c = true) ∧ EndsWord rest
  | _, _ => True

/-- The line consists of the tokens and of blanks. -/
def Renders : List Token → List Char → Prop
  | [], line => IsBlankText line
  | t :: ts, line => ∃ before rest,
      IsBlankText before ∧ t.StandsBefore rest ∧ Renders ts rest ∧ line = before ++ (t.chars ++ rest)

theorem Renders.blanks_append {ts : List Token} {before line : List Char} (h : Renders ts line)
    (hbefore : IsBlankText before) : Renders ts (before ++ line) := by
  cases ts with
  | nil => exact isBlankText_append hbefore h
  | cons t ts =>
    obtain ⟨more, rest, hmore, hstands, hrest, rfl⟩ := h
    refine ⟨before ++ more, rest, isBlankText_append hbefore hmore, hstands, hrest, ?_⟩
    rw [List.append_assoc]

theorem Renders.cons {t : Token} {ts : List Token} {rest : List Char} (hstands : t.StandsBefore rest)
    (h : Renders ts rest) : Renders (t :: ts) (t.chars ++ rest) :=
  ⟨[], rest, isBlankText_nil, hstands, h, rfl⟩

/-! ### The lexer -/

/-- The equation for a character that begins neither an arrow nor a bar. -/
theorem lex_cons {c : Char} (hdash : c ≠ '-') (hbar : c ≠ '|') (rest : List Char) :
    lex (c :: rest) = if isBlank c then lex rest
      else (word (c :: rest.takeWhile isWordChar) :: ·) <$> lex (rest.dropWhile isWordChar) := by
  rw [lex.eq_def]
  split
  case h_1 h => cases h
  case h_2 h => exact absurd (List.cons.inj h).1 hdash
  case h_3 h => exact absurd (List.cons.inj h).1 hdash
  case h_4 h => exact absurd (List.cons.inj h).1 hbar
  case h_5 h =>
    cases h
    rfl

theorem lex_append_of_isBlankText {before : List Char} (h : IsBlankText before)
    (line : List Char) : lex (before ++ line) = lex line := by
  induction before with
  | nil => rfl
  | cons c before ih =>
    obtain ⟨hc, hbefore⟩ := List.forall_mem_cons.mp h
    have hdash : c ≠ '-' := by
      rintro rfl
      exact absurd hc (by decide)
    have hbar : c ≠ '|' := by
      rintro rfl
      exact absurd hc (by decide)
    rw [List.cons_append, lex_cons hdash hbar, if_pos hc]
    exact ih hbefore

theorem lex_append_of_standsBefore {t : Token} {rest : List Char} (h : t.StandsBefore rest) :
    lex (t.chars ++ rest) = (t :: ·) <$> lex rest := by
  match t with
  | arrow | bar =>
    rw [lex.eq_def]
    rfl
  | word [] => exact absurd rfl h.1.1
  | word (c :: cs) =>
    obtain ⟨⟨_, hall⟩, hends⟩ := h
    obtain ⟨hc, hcs⟩ := List.forall_mem_cons.mp hall
    obtain ⟨hblank, hbar, hdash⟩ := isWordChar_eq_true_iff.mp hc
    rw [chars, List.cons_append, lex_cons hdash hbar, hblank,
      takeWhile_append_of_endsWord hcs hends, dropWhile_append_of_endsWord hcs hends]
    rfl

theorem lex_of_renders {ts : List Token} {line : List Char} (h : Renders ts line) :
    lex line = .ok ts := by
  induction ts generalizing line with
  | nil =>
    rw [← List.append_nil line, lex_append_of_isBlankText h, lex.eq_def]
  | cons t ts ih =>
    obtain ⟨before, rest, hbefore, hstands, hrest, rfl⟩ := h
    rw [lex_append_of_isBlankText hbefore, lex_append_of_standsBefore hstands, ih hrest]
    rfl

theorem renders_of_lex {line : List Char} {ts : List Token} (h : lex line = .ok ts) :
    Renders ts line := by
  fun_induction lex line generalizing ts with
  | case1 =>
    cases h
    exact isBlankText_nil
  | case2 rest ih =>
    obtain ⟨us, hus, rfl⟩ := exists_of_map_eq_ok h
    exact .cons (t := arrow) trivial (ih hus)
  | case3 => cases h
  | case4 rest ih =>
    obtain ⟨us, hus, rfl⟩ := exists_of_map_eq_ok h
    exact .cons (t := bar) trivial (ih hus)
  | case5 c rest _ _ _ hblank ih =>
    have hc : IsBlankText [c] := List.forall_mem_singleton.mpr hblank
    exact (ih h).blanks_append hc
  | case6 c rest _ hdash hbar hblank ih =>
    obtain ⟨us, hus, rfl⟩ := exists_of_map_eq_ok h
    have hword : ∀ d ∈ c :: rest.takeWhile isWordChar, isWordChar d = true := by
      intro d hd
      rcases List.mem_cons.mp hd with hd | hd
      · rw [hd, isWordChar_eq_true_iff]
        exact ⟨Bool.eq_false_iff.mpr hblank, hbar, hdash⟩
      · exact List.mem_takeWhile_imp hd
    -- the word was taken as long as it could be
    have hstands : (word (c :: rest.takeWhile isWordChar)).StandsBefore
        (rest.dropWhile isWordChar) :=
      ⟨⟨List.cons_ne_nil _ _, hword⟩, endsWord_dropWhile rest⟩
    have hsplit : (c :: rest.takeWhile isWordChar) ++ rest.dropWhile isWordChar = c :: rest := by
      rw [List.cons_append, List.takeWhile_append_dropWhile]
    rw [← hsplit]
    exact .cons hstands (ih hus)

/-- The lexer returns the tokens that the line renders, and no others. -/
theorem lex_eq_ok_iff {line : List Char} {ts : List Token} :
    lex line = .ok ts ↔ Renders ts line :=
  ⟨renders_of_lex, lex_of_renders⟩

end Token

end ChomskyForm
