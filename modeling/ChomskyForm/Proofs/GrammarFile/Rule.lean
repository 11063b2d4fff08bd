import ChomskyForm.GrammarFile.Rule
import ChomskyForm.Proofs.GrammarFile.Token

/-!
# Lines and their rules

The form of a rule line is given twice: by the tokens of a rule (`Rule.sideTokens`) and by its
characters (`Rule.SpelledBy`).  A line that spells a rule is read as this rule, and every other line
is faulty (`Rule.ofLine_eq_ok_iff`); so a line spells one rule at most.
-/

namespace ChomskyForm

namespace Rule

/-! ### Letters and alternatives -/

/-- A letter other than the marker. -/
def IsLeftSide (s : Symbol) : Prop := s.char.isAlpha = true ∧ s ≠ Symbol.marker

/-- The marker alone, or letters without the marker. -/
def IsAlternative (rhs : RightSide) : Prop :=
  rhs = [Symbol.marker] ∨ rhs ≠ [] ∧ ∀ s ∈ rhs, s.char.isAlpha = true ∧ s ≠ Symbol.marker

theorem IsAlternative.ne_nil {rhs : RightSide} (h : IsAlternative rhs) : rhs ≠ [] := by
  rcases h with h | h
  · rw [h]
    exact List.cons_ne_nil _ _
  · exact h.1

theorem IsAlternative.isAlpha {rhs : RightSide} (h : IsAlternative rhs) {s : Symbol} (hs : s ∈ rhs) :
    s.char.isAlpha = true := by
  rcases h with h | h
  · rw [h, List.mem_singleton] at hs
    rw [hs]
    rfl
  · exact (h.2 s hs).1

/-- An empty word has no marker either; the lexer makes none. -/
theorem eq_nil_or_isAlternative_iff {rhs : RightSide} (hletters : ∀ s ∈ rhs, s.char.isAlpha = true) :
    rhs = [] ∨ IsAlternative rhs ↔ ¬(1 < rhs.length ∧ Symbol.marker ∈ rhs) := by
  constructor
  · rintro (h | h | ⟨_, h⟩) ⟨hlong, hmarker⟩
    · rw [h] at hmarker
      exact absurd hmarker List.not_mem_nil
    · rw [h] at hlong
      exact absurd hlong (by decide)
    · exact (h _ hmarker).2 rfl
  · intro h
    by_cases hmarker : Symbol.marker ∈ rhs
    · have hpos := List.length_pos_of_mem hmarker
      have hone : rhs.length = 1 := by
        have hshort : ¬1 < rhs.length := fun hlong => h ⟨hlong, hmarker⟩
        omega
      obtain ⟨s, rfl⟩ := List.length_eq_one_iff.mp hone
      exact Or.inr (Or.inl (by rw [List.mem_singleton.mp hmarker]))
    · by_cases hne : rhs = []
      · exact Or.inl hne
      · refine Or.inr (Or.inr ⟨hne, fun s hs => ⟨hletters s hs, ?_⟩⟩)
        intro hs'
        rw [hs'] at hs
        exact hmarker hs

theorem toNat_of_isAlpha {c : Char} (h : c.isAlpha = true) :
    (65 ≤ c.toNat ∧ c.toNat ≤ 90) ∨ (97 ≤ c.toNat ∧ c.toNat ≤ 122) := by
  rcases Bool.or_eq_true_iff.mp h with hupper | hlower
  · exact Or.inl (of_decide_eq_true hupper)
  · obtain ⟨hlow, hhigh⟩ := Bool.and_eq_true_iff.mp hlower
    exact Or.inr ⟨of_decide_eq_true hlow, of_decide_eq_true hhigh⟩

theorem isWordChar_of_isAlpha {c : Char} (h : c.isAlpha = true) : Token.isWordChar c = true := by
  have hcode := toNat_of_isAlpha h
  have hbar : c ≠ '|' := by
    rintro rfl
    exact absurd h (by decide)
  have hdash : c ≠ '-' := by
    rintro rfl
    exact absurd h (by decide)
  refine Token.isWordChar_eq_true_iff.mpr ⟨?_, hbar, hdash⟩
  simp only [isBlank, Bool.or_eq_false_iff, Bool.and_eq_false_iff, decide_eq_false_iff_not,
    beq_eq_false_iff_ne]
  omega

/-! ### Reading words -/

theorem readLetter_eq_ok_iff {c : Char} {s : Symbol} :
    readLetter c = .ok s ↔ c = s.char ∧ s.char.isAlpha = true := by
  rw [readLetter]
  by_cases hc : c.isAlpha = true
  · rw [if_pos hc]
    constructor
    · rintro ⟨⟩
      exact ⟨rfl, hc⟩
    · rintro ⟨rfl, _⟩
      rfl
  · rw [if_neg hc]
    constructor
    · rintro ⟨⟩
    · rintro ⟨rfl, hs⟩
      exact absurd hs hc

theorem readLeftSide_eq_ok_iff {cs : List Char} {s : Symbol} :
    readLeftSide cs = .ok s ↔ cs = [s.char] ∧ IsLeftSide s := by
  constructor
  · intro h
    match cs with
    | [] | _ :: _ :: _ => cases h
    | [c] =>
      obtain ⟨s', hletter, hs⟩ := exists_of_bind_eq_ok h
      obtain ⟨rfl, halpha⟩ := readLetter_eq_ok_iff.mp hletter
      by_cases hmarker : s' = Symbol.marker
      · rw [if_pos hmarker] at hs
        cases hs
      · rw [if_neg hmarker] at hs
        cases hs
        exact ⟨rfl, halpha, hmarker⟩
  · rintro ⟨rfl, halpha, hmarker⟩
    rw [readLeftSide, readLetter_eq_ok_iff.mpr ⟨rfl, halpha⟩]
    exact if_neg hmarker

theorem readRightSide_eq_ok_iff {cs : List Char} {rhs : RightSide} :
    readRightSide cs = .ok rhs ↔ cs = RightSide.chars rhs ∧ (rhs = [] ∨ IsAlternative rhs) := by
  have hletters : ∀ {rhs : RightSide}, cs.mapM readLetter = .ok rhs ↔
      cs = RightSide.chars rhs ∧ ∀ s ∈ rhs, s.char.isAlpha = true :=
    mapM_eq_ok_iff fun _ _ => readLetter_eq_ok_iff
  constructor
  · intro h
    obtain ⟨rhs', hread, hrhs⟩ := exists_of_bind_eq_ok h
    obtain ⟨hchars, halpha⟩ := hletters.mp hread
    by_cases hmarker : 1 < rhs'.length ∧ Symbol.marker ∈ rhs'
    · rw [if_pos hmarker] at hrhs
      cases hrhs
    · rw [if_neg hmarker] at hrhs
      cases hrhs
      exact ⟨hchars, (eq_nil_or_isAlternative_iff halpha).mpr hmarker⟩
  · rintro ⟨hchars, hside⟩
    have halpha : ∀ s ∈ rhs, s.char.isAlpha = true := by
      intro s hs
      rcases hside with hnil | halternative
      · rw [hnil] at hs
        exact absurd hs List.not_mem_nil
      · exact halternative.isAlpha hs
    rw [readRightSide, hletters.mpr ⟨hchars, halpha⟩]
    exact if_neg ((eq_nil_or_isAlternative_iff halpha).mp hside)

theorem readAlternative_eq_ok_iff {run : List Token} {rhs : RightSide} :
    readAlternative run = .ok rhs ↔
      run = [.word (RightSide.chars rhs)] ∧ (rhs = [] ∨ IsAlternative rhs) := by
  match run with
  | [.word cs] =>
    rw [readAlternative, readRightSide_eq_ok_iff, List.cons.injEq, Token.word.injEq,
      and_iff_left rfl]
  | [] | .bar :: _ | .arrow :: _ => simp [readAlternative]
  | .word _ :: .word _ :: _ | .word _ :: .bar :: _ | .word _ :: .arrow :: _ =>
    simp [readAlternative]

/-! ### The tokens of a rule -/

theorem splitAtBars_eq_splitOn (ts : List Token) : splitAtBars ts = ts.splitOn .bar := by
  fun_induction splitAtBars ts with
  | case1 => rfl
  | case2 rest ih =>
    rw [List.splitOn_cons_eq_if_modifyHead, if_pos (beq_self_eq_true _), ih]
  | case3 t rest _ hnone => exact absurd hnone (splitAtBars_ne_nil rest)
  | case4 t rest hbar run runs heq ih =>
    have hne : (t == Token.bar) = false := beq_eq_false_iff_ne.mpr fun ht => hbar ht
    rw [List.splitOn_cons_eq_if_modifyHead, hne, ← ih, heq]
    rfl

/-- The tokens of the alternatives, with bars between them. -/
def sideTokens (rhss : List RightSide) : List Token :=
  [Token.bar].intercalate (rhss.map fun rhs => [.word (RightSide.chars rhs)])

theorem splitAtBars_eq_iff {ts : List Token} {rhss : List RightSide} :
    splitAtBars ts = rhss.map (fun rhs => [.word (RightSide.chars rhs)]) ↔
      rhss ≠ [] ∧ ts = sideTokens rhss := by
  rw [splitAtBars_eq_splitOn, sideTokens]
  constructor
  · intro h
    refine ⟨?_, ?_⟩
    · rintro rfl
      exact List.splitOn_ne_nil _ _ h
    · rw [← h, List.intercalate_splitOn]
  · rintro ⟨hne, rfl⟩
    refine List.splitOn_intercalate _ ?_ ?_
    · simp
    · simpa using hne

theorem dropArrow_eq_sideTokens_iff {ts : List Token} {rhss : List RightSide} (hne : rhss ≠ []) :
    dropArrow ts = sideTokens rhss ↔
      ts = .arrow :: sideTokens rhss ∨ ts = sideTokens rhss := by
  obtain ⟨rhs, more, rfl⟩ := List.exists_cons_of_ne_nil hne
  -- alternatives begin with a word, so an arrow in front is none of theirs
  have hhead : (sideTokens (rhs :: more)).head? = some (.word (RightSide.chars rhs)) := by
    cases more <;> rfl
  match ts with
  | .arrow :: rest =>
    have hother : .arrow :: rest ≠ sideTokens (rhs :: more) := by
      intro h
      rw [← h] at hhead
      cases hhead
    rw [dropArrow, List.cons.injEq, and_iff_right rfl, or_iff_left hother]
  | [] | .bar :: _ | .word _ :: _ => simp [dropArrow]

theorem ofTokens_eq_ok_iff {ts : List Token} {r : Rule} :
    ofTokens ts = .ok r ↔ IsLeftSide r.lhs ∧ r.alternatives ≠ [] ∧
      (∀ rhs ∈ r.alternatives, rhs = [] ∨ IsAlternative rhs) ∧
      (ts = .word [r.lhs.char] :: .arrow :: sideTokens r.alternatives ∨
        ts = .word [r.lhs.char] :: sideTokens r.alternatives) := by
  have hsides : ∀ {rest : List Token} {rhss : List RightSide},
      (splitAtBars (dropArrow rest)).mapM readAlternative = .ok rhss ↔
        (rhss ≠ [] ∧ dropArrow rest = sideTokens rhss) ∧
          ∀ rhs ∈ rhss, rhs = [] ∨ IsAlternative rhs := by
    intro rest rhss
    rw [mapM_eq_ok_iff fun _ _ => readAlternative_eq_ok_iff, splitAtBars_eq_iff]
  constructor
  · intro h
    match ts with
    | [] | .arrow :: _ | .bar :: _ => cases h
    | .word cs :: rest =>
      obtain ⟨lhs, hleft, h⟩ := exists_of_bind_eq_ok h
      obtain ⟨rhss, hright, h⟩ := exists_of_bind_eq_ok h
      cases h
      obtain ⟨rfl, hlhs⟩ := readLeftSide_eq_ok_iff.mp hleft
      obtain ⟨⟨hne, hrest⟩, hall⟩ := hsides.mp hright
      refine ⟨hlhs, hne, hall, ?_⟩
      rcases (dropArrow_eq_sideTokens_iff hne).mp hrest with h | h
      · exact Or.inl (by rw [h])
      · exact Or.inr (by rw [h])
  · rintro ⟨hlhs, hne, hall, hts⟩
    obtain ⟨rest, rfl, hrest⟩ :
        ∃ rest, ts = .word [r.lhs.char] :: rest ∧ dropArrow rest = sideTokens r.alternatives := by
      rcases hts with h | h
      · exact ⟨_, h, rfl⟩
      · exact ⟨_, h, (dropArrow_eq_sideTokens_iff hne).mpr (Or.inr rfl)⟩
    rw [ofTokens, readLeftSide_eq_ok_iff.mpr ⟨rfl, hlhs⟩]
    show (do
      let alternatives ← (splitAtBars (dropArrow rest)).mapM readAlternative
      pure (Rule.mk r.lhs alternatives)) = Except.ok r
    rw [hsides.mpr ⟨⟨hne, hrest⟩, hall⟩]
    rfl

/-! ### The characters of a rule -/

/-- The text lists the alternatives, with bars between them and blanks around each. -/
inductive ListedIn : List RightSide → List Char → Prop
  | last {rhs : RightSide} {before after : List Char} (hbefore : IsBlankText before)
      (hrhs : IsAlternative rhs) (hafter : IsBlankText after) :
      ListedIn [rhs] (before ++ (RightSide.chars rhs ++ after))
  | more {rhs : RightSide} {rhss : List RightSide} {before after text : List Char}
      (hbefore : IsBlankText before) (hrhs : IsAlternative rhs) (hafter : IsBlankText after)
      (htext : ListedIn rhss text) :
      ListedIn (rhs :: rhss) (before ++ (RightSide.chars rhs ++ (after ++ '|' :: text)))

/-- The line is a left side, a link and a text that lists the alternatives.  The link is an arrow, or
a blank where the arrow is left out; more blanks are allowed everywhere. -/
inductive SpelledBy (r : Rule) : List Char → Prop
  | arrow {before between text : List Char} (hlhs : IsLeftSide r.lhs) (hbefore : IsBlankText before)
      (hbetween : IsBlankText between) (hsides : ListedIn r.alternatives text) :
      SpelledBy r (before ++ r.lhs.char :: (between ++ '-' :: '>' :: text))
  | blank {before text : List Char} {c : Char} (hlhs : IsLeftSide r.lhs)
      (hbefore : IsBlankText before) (hc : isBlank c = true)
      (hsides : ListedIn r.alternatives text) : SpelledBy r (before ++ r.lhs.char :: c :: text)

theorem chars_ne_nil {rhs : RightSide} (h : rhs ≠ []) : RightSide.chars rhs ≠ [] :=
  fun hchars => h (List.map_eq_nil_iff.mp hchars)

theorem standsBefore_of_isAlternative {rhs : RightSide} {rest : List Char} (h : IsAlternative rhs)
    (hrest : Token.EndsWord rest) : (Token.word (RightSide.chars rhs)).StandsBefore rest := by
  refine ⟨⟨chars_ne_nil h.ne_nil, ?_⟩, hrest⟩
  intro c hc
  obtain ⟨s, hs, rfl⟩ := List.mem_map.mp hc
  exact isWordChar_of_isAlpha (h.isAlpha hs)

theorem isAlternative_of_standsBefore {rhs : RightSide} {rest : List Char}
    (h : (Token.word (RightSide.chars rhs)).StandsBefore rest) (hside : rhs = [] ∨ IsAlternative rhs) :
    IsAlternative rhs := by
  refine hside.resolve_left ?_
  rintro rfl
  exact h.1.1 rfl

theorem sideTokens_cons {rhs : RightSide} {rhss : List RightSide} (hne : rhss ≠ []) :
    sideTokens (rhs :: rhss) = .word (RightSide.chars rhs) :: .bar :: sideTokens rhss := by
  obtain ⟨rhs', more, rfl⟩ := List.exists_cons_of_ne_nil hne
  exact List.intercalate_cons_cons

theorem ListedIn.ne_nil {rhss : List RightSide} {text : List Char} (h : ListedIn rhss text) :
    rhss ≠ [] := by
  cases h with
  | last => exact List.cons_ne_nil _ _
  | more => exact List.cons_ne_nil _ _

theorem ListedIn.isAlternative {rhss : List RightSide} {text : List Char} (h : ListedIn rhss text) :
    ∀ rhs ∈ rhss, IsAlternative rhs := by
  induction h with
  | last _ hrhs _ => exact List.forall_mem_singleton.mpr hrhs
  | more _ hrhs _ _ ih => exact List.forall_mem_cons.mpr ⟨hrhs, ih⟩

theorem ListedIn.renders {rhss : List RightSide} {text : List Char} (h : ListedIn rhss text) :
    Token.Renders (sideTokens rhss) text := by
  induction h with
  | @last rhs before after hbefore hrhs hafter =>
    have hstands := standsBefore_of_isAlternative hrhs (Token.endsWord_of_isBlankText hafter)
    exact ⟨before, after, hbefore, hstands, hafter, rfl⟩
  | @more rhs rhss before after text hbefore hrhs hafter htext ih =>
    have hends : Token.EndsWord (after ++ '|' :: text) := Token.endsWord_append_cons hafter rfl
    rw [sideTokens_cons htext.ne_nil]
    exact ⟨before, _, hbefore, standsBefore_of_isAlternative hrhs hends,
      ⟨after, text, hafter, trivial, ih, rfl⟩, rfl⟩

theorem listedIn_of_renders {rhss : List RightSide} {text : List Char} (hne : rhss ≠ [])
    (hall : ∀ rhs ∈ rhss, rhs = [] ∨ IsAlternative rhs)
    (h : Token.Renders (sideTokens rhss) text) : ListedIn rhss text := by
  induction rhss generalizing text with
  | nil => exact absurd rfl hne
  | cons rhs rhss ih =>
    obtain ⟨hrhs, hrest⟩ := List.forall_mem_cons.mp hall
    by_cases hlast : rhss = []
    · subst hlast
      obtain ⟨before, after, hbefore, hstands, hafter, rfl⟩ := h
      exact .last hbefore (isAlternative_of_standsBefore hstands hrhs) hafter
    · rw [sideTokens_cons hlast] at h
      obtain ⟨before, _, hbefore, hstands, ⟨after, more, hafter, _, hmore, rfl⟩, rfl⟩ := h
      exact .more hbefore (isAlternative_of_standsBefore hstands hrhs) hafter
        (ih hlast hrest hmore)

theorem ListedIn.eq_nil_or_isAlternative {rhss : List RightSide} {text : List Char}
    (h : ListedIn rhss text) : ∀ rhs ∈ rhss, rhs = [] ∨ IsAlternative rhs :=
  fun rhs hrhs => Or.inr (h.isAlternative rhs hrhs)

theorem ListedIn.blanks_append {rhss : List RightSide} {before text : List Char}
    (h : ListedIn rhss text) (hbefore : IsBlankText before) : ListedIn rhss (before ++ text) :=
  listedIn_of_renders h.ne_nil h.eq_nil_or_isAlternative (h.renders.blanks_append hbefore)

/-- The list begins with blanks, which can be left out, and an alternative. -/
theorem ListedIn.exists_front {rhss : List RightSide} {text : List Char} (h : ListedIn rhss text) :
    ∃ before rhs more, IsBlankText before ∧ IsAlternative rhs ∧
      ListedIn rhss (RightSide.chars rhs ++ more) ∧ text = before ++ (RightSide.chars rhs ++ more) := by
  cases h with
  | @last rhs before after hbefore hrhs hafter =>
    have hfront : ListedIn [rhs] ([] ++ (RightSide.chars rhs ++ after)) :=
      .last isBlankText_nil hrhs hafter
    exact ⟨before, rhs, after, hbefore, hrhs, hfront, rfl⟩
  | @more rhs rhss before after text hbefore hrhs hafter htext =>
    have hfront : ListedIn (rhs :: rhss) ([] ++ (RightSide.chars rhs ++ (after ++ '|' :: text))) :=
      .more isBlankText_nil hrhs hafter htext
    exact ⟨before, rhs, _, hbefore, hrhs, hfront, rfl⟩

/-- Where no word goes on, the list begins with a blank. -/
theorem ListedIn.exists_blank {rhss : List RightSide} {text : List Char} (h : ListedIn rhss text)
    (hends : Token.EndsWord text) :
    ∃ c rest, isBlank c = true ∧ ListedIn rhss rest ∧ text = c :: rest := by
  obtain ⟨before, rhs, more, hbefore, hrhs, hlisted, rfl⟩ := h.exists_front
  cases before with
  | nil =>
    obtain ⟨s, ss, rfl⟩ := List.exists_cons_of_ne_nil hrhs.ne_nil
    have hword := isWordChar_of_isAlpha (hrhs.isAlpha (List.mem_cons_self ..))
    rw [Token.endsWord_cons_iff.mp hends] at hword
    cases hword
  | cons c before =>
    obtain ⟨hc, hbefore⟩ := List.forall_mem_cons.mp hbefore
    exact ⟨c, _, hc, hlisted.blanks_append hbefore, rfl⟩

/-! ### Reading a line -/

theorem spelledBy_of_ofLine {line : List Char} {r : Rule} (h : ofLine line = .ok r) :
    r.SpelledBy line := by
  obtain ⟨ts, hlex, hts⟩ := exists_of_bind_eq_ok h
  obtain ⟨hlhs, hne, hall, hts⟩ := ofTokens_eq_ok_iff.mp hts
  have hrenders := Token.lex_eq_ok_iff.mp hlex
  rcases hts with rfl | rfl
  · obtain ⟨before, _, hbefore, _, ⟨between, text, hbetween, _, htext, rfl⟩, rfl⟩ := hrenders
    exact .arrow hlhs hbefore hbetween (listedIn_of_renders hne hall htext)
  · obtain ⟨before, rest, hbefore, hstands, hrest, rfl⟩ := hrenders
    -- the word of the left side is over, so without an arrow a blank follows it
    obtain ⟨c, text, hc, htext, rfl⟩ :=
      (listedIn_of_renders hne hall hrest).exists_blank hstands.2
    exact .blank hlhs hbefore hc htext

theorem standsBefore_of_isLeftSide {s : Symbol} {rest : List Char} (h : IsLeftSide s)
    (hrest : Token.EndsWord rest) : (Token.word [s.char]).StandsBefore rest :=
  standsBefore_of_isAlternative (Or.inr ⟨List.cons_ne_nil _ _, List.forall_mem_singleton.mpr h⟩) hrest

theorem ofLine_of_spelledBy {line : List Char} {r : Rule} (h : r.SpelledBy line) :
    ofLine line = .ok r := by
  cases h with
  | @arrow before between text hlhs hbefore hbetween hsides =>
    have hends : Token.EndsWord (between ++ '-' :: '>' :: text) :=
      Token.endsWord_append_cons hbetween rfl
    have hlex : Token.lex (before ++ r.lhs.char :: (between ++ '-' :: '>' :: text)) =
        .ok (.word [r.lhs.char] :: .arrow :: sideTokens r.alternatives) :=
      Token.lex_of_renders ⟨before, _, hbefore, standsBefore_of_isLeftSide hlhs hends,
        ⟨between, text, hbetween, trivial, hsides.renders, rfl⟩, rfl⟩
    rw [ofLine, hlex]
    exact ofTokens_eq_ok_iff.mpr
      ⟨hlhs, hsides.ne_nil, hsides.eq_nil_or_isAlternative, Or.inl rfl⟩
  | @blank before text c hlhs hbefore hc hsides =>
    have hends : Token.EndsWord (c :: text) :=
      Token.endsWord_cons_iff.mpr (Token.isWordChar_eq_false_of_isBlank hc)
    have hrest : Token.Renders (sideTokens r.alternatives) (c :: text) :=
      hsides.renders.blanks_append (List.forall_mem_singleton.mpr hc)
    have hlex : Token.lex (before ++ r.lhs.char :: c :: text) =
        .ok (.word [r.lhs.char] :: sideTokens r.alternatives) :=
      Token.lex_of_renders
        ⟨before, c :: text, hbefore, standsBefore_of_isLeftSide hlhs hends, hrest, rfl⟩
    rw [ofLine, hlex]
    exact ofTokens_eq_ok_iff.mpr
      ⟨hlhs, hsides.ne_nil, hsides.eq_nil_or_isAlternative, Or.inr rfl⟩

/-- A line is read as the rule that it spells. -/
theorem ofLine_eq_ok_iff {line : List Char} {r : Rule} : ofLine line = .ok r ↔ r.SpelledBy line :=
  ⟨spelledBy_of_ofLine, ofLine_of_spelledBy⟩

theorem SpelledBy.isLeftSide {line : List Char} {r : Rule} (h : r.SpelledBy line) :
    IsLeftSide r.lhs := by
  cases h with
  | arrow hlhs => exact hlhs
  | blank hlhs => exact hlhs

theorem SpelledBy.exists_listedIn {line : List Char} {r : Rule} (h : r.SpelledBy line) :
    ∃ text, ListedIn r.alternatives text := by
  cases h with
  | arrow _ _ _ hsides => exact ⟨_, hsides⟩
  | blank _ _ _ hsides => exact ⟨_, hsides⟩

theorem SpelledBy.unique {line : List Char} {r r' : Rule} (h : r.SpelledBy line)
    (h' : r'.SpelledBy line) : r = r' := by
  have hline := ofLine_of_spelledBy h
  rw [ofLine_of_spelledBy h'] at hline
  exact (Except.ok.inj hline).symm

end Rule

end ChomskyForm
