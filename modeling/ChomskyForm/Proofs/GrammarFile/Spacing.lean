import ChomskyForm.Proofs.GrammarFile.Fault

/-!
# Tokens and the blanks between them

A list of tokens can be written with any blanks, as long as one stands between two words, and every
text that is written like this is read as these tokens (`Token.renders_iff_exists_written`).  A line
is cut into tokens as two texts of their own wherever no word goes across the cut
(`Token.Renders.append`, `Token.Renders.exists_split`); so the words of a line are its longest runs
of characters that may stand in a word (`Token.lex_splits`).
-/

namespace ChomskyForm

namespace Token

/-- What a word consists of. -/
def IsRun (cs : List Char) : Prop := cs ≠ [] ∧ ∀ c ∈ cs, isBlank c = false ∧ c ≠ '|' ∧ c ≠ '-'

theorem isRun_iff {cs : List Char} : IsRun cs ↔ cs ≠ [] ∧ ∀ c ∈ cs, isWordChar c = true := by
  simp only [IsRun, isWordChar_eq_true_iff]

theorem IsRun.not_endsWord {cs rest : List Char} (h : IsRun cs) : ¬EndsWord (cs ++ rest) := by
  obtain ⟨hne, hall⟩ := isRun_iff.mp h
  obtain ⟨c, cs, rfl⟩ := List.exists_cons_of_ne_nil hne
  rw [List.cons_append, endsWord_cons_iff, hall c (List.mem_cons_self ..)]
  decide

theorem endsWord_append {cs : List Char} (hne : cs ≠ []) (rest : List Char) :
    EndsWord (cs ++ rest) ↔ EndsWord cs := by
  obtain ⟨c, cs, rfl⟩ := List.exists_cons_of_ne_nil hne
  rw [List.cons_append, endsWord_cons_iff, endsWord_cons_iff]

/-! ### Words in a line -/

/-- No word goes on behind the text, which was read as these tokens: it ends with an arrow, or not
with a character of a word. -/
def BreaksOff (ts : List Token) (line : List Char) : Prop :=
  ts.getLast? = some .arrow ∨ ∀ c ∈ line.getLast?, isWordChar c = false

theorem breaksOff_of_isBlankText {cs : List Char} (h : IsBlankText cs) : BreaksOff [] cs :=
  Or.inr fun c hc => isWordChar_eq_false_of_isBlank (h c (List.mem_of_getLast? hc))

namespace Renders

variable {t : Token} {us vs : List Token} {before after line : List Char}

theorem ne_nil (h : Renders (t :: us) line) : line ≠ [] := by
  obtain ⟨gap, rest, _, hstands, _, rfl⟩ := h
  cases t with
  | arrow | bar => simp [chars]
  | word cs => simp [chars, hstands.1.1]

theorem isRun (h : Renders us line) {cs : List Char} (hcs : word cs ∈ us) : IsRun cs :=
  isRun_iff.mpr (h.word_of_mem hcs)

/-- The tokens spell the line without its blanks. -/
theorem flatMap_chars (h : Renders us line) :
    us.flatMap chars = line.filter fun c => !isBlank c := by
  induction us generalizing line with
  | nil =>
    symm
    rw [List.flatMap_nil, List.filter_eq_nil_iff]
    intro c hc
    simp [h c hc]
  | cons t us ih =>
    obtain ⟨gap, rest, hgap, hstands, hrest, rfl⟩ := h
    have hblank : gap.filter (fun c => !isBlank c) = [] := by
      rw [List.filter_eq_nil_iff]
      intro c hc
      simp [hgap c hc]
    have hchars : t.chars.filter (fun c => !isBlank c) = t.chars := by
      cases t with
      | arrow | bar => rfl
      | word cs =>
        rw [chars, List.filter_eq_self]
        intro c hc
        simp [(isWordChar_eq_true_iff.mp (hstands.1.2 c hc)).1]
    rw [List.flatMap_cons, List.filter_append, List.filter_append, hblank, hchars, ih hrest,
      List.nil_append]

/-- Two texts are read one after the other, unless a word goes across the cut. -/
theorem append (hus : Renders us before) (hvs : Renders vs after)
    (hcut : BreaksOff us before ∨ EndsWord after) : Renders (us ++ vs) (before ++ after) := by
  induction us generalizing before with
  | nil => exact hvs.blanks_append hus
  | cons t us ih =>
    obtain ⟨gap, rest, hgap, hstands, hrest, rfl⟩ := hus
    rw [List.append_assoc, List.append_assoc]
    cases us with
    | nil =>
      -- the cut comes right after `t`, with blanks at most
      have hcut' : BreaksOff [] rest ∨ EndsWord after := Or.inl (breaksOff_of_isBlankText hrest)
      refine ⟨gap, rest ++ after, hgap, ?_, ih hrest hcut', rfl⟩
      cases t with
      | arrow | bar => trivial
      | word cs =>
        refine ⟨hstands.1, ?_⟩
        by_cases hnil : rest = []
        · subst hnil
          refine hcut.resolve_left ?_
          rintro (harrow | hlast)
          · cases harrow
          · have hend := List.getLast?_eq_some_getLast hstands.1.1
            have hword := hstands.1.2 _ (List.getLast_mem hstands.1.1)
            rw [hlast _ (by simp [chars, List.getLast?_append, hend])] at hword
            cases hword
        · exact (endsWord_append hnil after).mpr hstands.2
    | cons u us =>
      have hne := hrest.ne_nil
      have hlast : (gap ++ (t.chars ++ rest)).getLast? = rest.getLast? := by
        rw [List.getLast?_append_of_ne_nil _ (by simp [hne]), List.getLast?_append_of_ne_nil _ hne]
      have hcut' : BreaksOff (u :: us) rest ∨ EndsWord after := by
        rw [BreaksOff, hlast, List.getLast?_cons_cons] at hcut
        exact hcut
      refine ⟨gap, rest ++ after, hgap, ?_, ih hrest hcut', rfl⟩
      cases t with
      | arrow | bar => trivial
      | word cs => exact ⟨hstands.1, (endsWord_append hne after).mpr hstands.2⟩

/-- A token cuts its line in two, and no word goes across the cuts. -/
theorem exists_split (h : Renders (us ++ t :: vs) line) :
    ∃ before after, line = before ++ (t.chars ++ after) ∧ Renders us before ∧ Renders vs after ∧
      t.StandsBefore after ∧ (∀ cs, t = word cs → BreaksOff us before) := by
  induction us generalizing line with
  | nil =>
    obtain ⟨gap, rest, hgap, hstands, hrest, rfl⟩ := h
    exact ⟨gap, rest, rfl, hgap, hrest, hstands, fun _ _ => breaksOff_of_isBlankText hgap⟩
  | cons u us ih =>
    obtain ⟨gap, rest, hgap, hu, hrest, rfl⟩ := h
    obtain ⟨before, after, rfl, hbefore, hafter, ht, hbreaks⟩ := ih hrest
    refine ⟨gap ++ (u.chars ++ before), after, by simp only [List.append_assoc],
      ⟨gap, before, hgap, ?_, hbefore, rfl⟩, hafter, ht, ?_⟩
    · cases u with
      | arrow | bar => trivial
      | word ds =>
        refine ⟨hu.1, ?_⟩
        by_cases hnil : before = []
        · rw [hnil]
          exact fun c hc => absurd hc (by simp)
        · exact (endsWord_append hnil _).mp hu.2
    · rintro cs rfl
      cases us with
      | nil =>
        by_cases hnil : before = []
        · subst hnil
          cases u with
          | arrow => exact Or.inl rfl
          | bar =>
            right
            simp [chars, List.getLast?_append, isWordChar]
          | word ds => exact absurd hu.2 (isRun_iff.mpr ht.1).not_endsWord
        · right
          rw [List.getLast?_append_of_ne_nil _ (by simp [hnil]),
            List.getLast?_append_of_ne_nil _ hnil]
          exact (breaksOff_of_isBlankText hbefore).resolve_left (by simp)
      | cons v us =>
        have hne := hbefore.ne_nil
        rw [BreaksOff, List.getLast?_append_of_ne_nil _ (by simp [hne]),
          List.getLast?_append_of_ne_nil _ hne, List.getLast?_cons_cons]
        exact hbreaks cs rfl

end Renders

/-! ### Writing tokens with blanks -/

/-- The line with each token after its gap, and with `last` at the end. -/
def written (pieces : List (List Char × Token)) (last : List Char) : List Char :=
  pieces.flatMap (fun p => p.1 ++ p.2.chars) ++ last

/-- Gaps are blank, words are words, and the gap between two words is not empty. -/
structure WellSpaced (pieces : List (List Char × Token)) (last : List Char) : Prop where
  gaps : ∀ p ∈ pieces, IsBlankText p.1
  last : IsBlankText last
  words : ∀ cs, word cs ∈ pieces.map Prod.snd → IsRun cs
  apart : pieces.IsChain fun p q => ∀ cs ds, p.2 = word cs → q.2 = word ds → q.1 ≠ []

variable {gap last : List Char} {t : Token} {pieces : List (List Char × Token)}

theorem written_cons : written ((gap, t) :: pieces) last =
    gap ++ (t.chars ++ written pieces last) := by
  simp only [written, List.flatMap_cons, List.append_assoc]

theorem WellSpaced.tail {p : List Char × Token} (h : WellSpaced (p :: pieces) last) :
    WellSpaced pieces last where
  gaps q hq := h.gaps q (List.mem_cons_of_mem _ hq)
  last := h.last
  words cs hcs := h.words cs (List.mem_cons_of_mem _ hcs)
  apart := h.apart.of_cons

/-- Behind a word stands a gap, or a token that is none. -/
theorem WellSpaced.standsBefore (h : WellSpaced ((gap, t) :: pieces) last) :
    t.StandsBefore (written pieces last) := by
  cases t with
  | arrow | bar => trivial
  | word cs =>
    refine ⟨isRun_iff.mp (h.words cs (List.mem_cons_self ..)), ?_⟩
    cases pieces with
    | nil => exact endsWord_of_isBlankText h.last
    | cons q pieces =>
      obtain ⟨gap', u⟩ := q
      have hgap' := h.gaps (gap', u) (List.mem_cons_of_mem _ (List.mem_cons_self ..))
      rw [written_cons]
      cases u with
      | arrow => exact endsWord_append_cons hgap' (by decide)
      | bar => exact endsWord_append_cons hgap' (by decide)
      | word ds =>
        have hne : gap' ≠ [] := (List.isChain_cons_cons.mp h.apart).1 cs ds rfl rfl
        exact (endsWord_append hne _).mpr (endsWord_of_isBlankText hgap')

theorem WellSpaced.renders (h : WellSpaced pieces last) :
    Renders (pieces.map Prod.snd) (written pieces last) := by
  induction pieces with
  | nil => exact h.last
  | cons p pieces ih =>
    obtain ⟨gap, t⟩ := p
    exact ⟨gap, written pieces last, h.gaps _ (List.mem_cons_self ..), h.standsBefore, ih h.tail,
      written_cons⟩

/-- The lines that are read as the tokens are those in which they are written with blanks. -/
theorem renders_iff_exists_written {ts : List Token} {line : List Char} :
    Renders ts line ↔ ∃ pieces last, WellSpaced pieces last ∧ line = written pieces last ∧
      ts = pieces.map Prod.snd := by
  constructor
  · intro h
    induction ts generalizing line with
    | nil => exact ⟨[], line, ⟨by simp, h, by simp, .nil⟩, rfl, rfl⟩
    | cons t ts ih =>
      have hwords : ∀ cs, word cs ∈ t :: ts → IsRun cs := fun cs hcs => h.isRun hcs
      obtain ⟨gap, rest, hgap, hstands, hrest, rfl⟩ := h
      obtain ⟨pieces, last, hspaced, rfl, rfl⟩ := ih hrest
      have hgaps : ∀ p ∈ (gap, t) :: pieces, IsBlankText p.1 :=
        List.forall_mem_cons.mpr ⟨hgap, hspaced.gaps⟩
      refine ⟨(gap, t) :: pieces, last, ⟨hgaps, hspaced.last, hwords, ?_⟩, written_cons.symm, rfl⟩
      cases pieces with
      | nil => exact .singleton _
      | cons q pieces =>
        refine List.isChain_cons_cons.mpr ⟨?_, hspaced.apart⟩
        obtain ⟨gap', u⟩ := q
        rintro cs ds rfl rfl rfl
        -- without a gap the word would have gone on
        have hends := hstands.2
        rw [written_cons] at hends
        exact (hspaced.words ds (List.mem_cons_self ..)).not_endsWord hends
  · rintro ⟨pieces, last, hspaced, rfl, rfl⟩
    exact hspaced.renders

/-! ### What the lexer does with a line -/

section Words

variable {us vs ts : List Token} {cs ds line : List Char}

/-- A word token is a longest run of characters that may stand in a word. -/
theorem lex_word_iff (h : lex line = .ok ts) :
    ts = us ++ word cs :: vs ↔ ∃ before after, line = before ++ (cs ++ after) ∧ IsRun cs ∧
      lex before = .ok us ∧ lex after = .ok vs ∧ BreaksOff us before ∧ EndsWord after := by
  simp only [lex_eq_ok_iff] at h ⊢
  constructor
  · rintro rfl
    obtain ⟨before, after, hline, hus, hvs, hstands, hbreaks⟩ := h.exists_split
    exact ⟨before, after, hline, isRun_iff.mpr hstands.1, hus, hvs, hbreaks cs rfl, hstands.2⟩
  · rintro ⟨before, after, rfl, hcs, hus, hvs, hbreaks, hends⟩
    have hword : Renders (word cs :: vs) (cs ++ after) :=
      .cons (t := word cs) ⟨isRun_iff.mp hcs, hends⟩ hvs
    have hwhole := lex_of_renders (hus.append hword (Or.inl hbreaks))
    rw [lex_of_renders h] at hwhole
    exact Except.ok.inj hwhole

/-- Two words in a row are two longest runs with blanks between them. -/
theorem lex_words_iff (h : lex line = .ok ts) :
    ts = us ++ word cs :: word ds :: vs ↔ ∃ before gap after,
      line = before ++ (cs ++ (gap ++ (ds ++ after))) ∧ (gap ≠ [] ∧ IsBlankText gap) ∧
      IsRun cs ∧ IsRun ds ∧ lex before = .ok us ∧ lex after = .ok vs ∧ BreaksOff us before ∧
      EndsWord after := by
  rw [lex_word_iff h]
  constructor
  · rintro ⟨before, rest, rfl, hcs, hus, hrest, hbreaks, hends⟩
    obtain ⟨gap, after, rfl, hds, hgap, hvs, _, hends'⟩ :=
      (lex_word_iff hrest).mp (List.nil_append (word ds :: vs)).symm
    refine ⟨before, gap, after, rfl, ⟨?_, lex_eq_ok_iff.mp hgap⟩, hcs, hds, hus, hvs, hbreaks,
      hends'⟩
    rintro rfl
    exact hds.not_endsWord hends
  · rintro ⟨before, gap, after, rfl, ⟨hne, hgap⟩, hcs, hds, hus, hvs, hbreaks, hends⟩
    have hrest : lex (gap ++ (ds ++ after)) = .ok (word ds :: vs) :=
      lex_of_renders ⟨gap, after, hgap, ⟨isRun_iff.mp hds, hends⟩, lex_eq_ok_iff.mp hvs, rfl⟩
    exact ⟨before, _, rfl, hcs, hus, hrest, hbreaks,
      (endsWord_append hne _).mpr (endsWord_of_isBlankText hgap)⟩

end Words

/-- How a line is cut into tokens, and what lines are cut into given tokens. -/
theorem lex_splits (line : List Char) :
    (∀ fault, lex line = .error fault ↔ HasLooseDash line ∧ fault = .malformedArrow) ∧
    (∀ ts, lex line = .ok ts →
      ts.flatMap chars = line.filter (fun c => !isBlank c) ∧
      (∀ cs, word cs ∈ ts → IsRun cs) ∧
      (∀ us cs vs, ts = us ++ word cs :: vs ↔ ∃ before after, line = before ++ (cs ++ after) ∧
        IsRun cs ∧ lex before = .ok us ∧ lex after = .ok vs ∧ BreaksOff us before ∧
        EndsWord after) ∧
      ∀ us cs ds vs, ts = us ++ word cs :: word ds :: vs ↔ ∃ before gap after,
        line = before ++ (cs ++ (gap ++ (ds ++ after))) ∧ (gap ≠ [] ∧ IsBlankText gap) ∧
        IsRun cs ∧ IsRun ds ∧ lex before = .ok us ∧ lex after = .ok vs ∧ BreaksOff us before ∧
        EndsWord after) ∧
    ∀ ts, lex line = .ok ts ↔ ∃ pieces last, WellSpaced pieces last ∧
      line = written pieces last ∧ ts = pieces.map Prod.snd := by
  refine ⟨fun fault => lex_eq_error_iff, fun ts h => ?_, fun ts => ?_⟩
  · have hrenders := lex_eq_ok_iff.mp h
    exact ⟨hrenders.flatMap_chars, fun cs hcs => hrenders.isRun hcs, fun us cs vs => lex_word_iff h,
      fun us cs ds vs => lex_words_iff h⟩
  · rw [lex_eq_ok_iff, renders_iff_exists_written]

/-- A bracket may begin a word even behind an arrow, and any white space separates words. -/
theorem lex_splits_crowded :
    lex "S->>a\tb|".toList = .ok [.word ['S'], .arrow, .word ['>', 'a'], .word ['b'], .bar] ∧
      lex "S - > a".toList = .error .malformedArrow := by
  refine ⟨((lex_splits _).2.2 _).mpr ⟨[([], .word ['S']), ([], .arrow), ([], .word ['>', 'a']),
    (['\t'], .word ['b']), ([], .bar)], [], ⟨?_, ?_, ?_, ?_⟩, rfl, rfl⟩,
    ((lex_splits _).1 _).mpr ⟨⟨['S', ' '], [' ', '>', ' ', 'a'], rfl, by decide⟩, rfl⟩⟩
  · simp [IsBlankText, isBlank]
  · exact isBlankText_nil
  · simp [IsRun, isBlank]
  · simp

end Token

end ChomskyForm
