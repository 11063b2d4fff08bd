import ChomskyForm.GrammarFile.Reader
import ChomskyForm.Proofs.GrammarFile.Rule
import Mathlib.Data.List.Forall2

/-!
# Files and their grammars

A file tells a list of rules if each of its lines is text and the lines that are not skipped spell
these rules (`Tells`).  The reader returns the grammar of the productions of these rules, if there are
enough of them and the start symbol is a left side; every other file is faulty
(`ofLines_eq_ok_iff`).  As only the productions and their order matter (`assembled_congr`), the lines
can be written in other ways (`Rewording`).
-/

namespace ChomskyForm.GrammarFile

/-! ### Rules of a file -/

/-- Every line is text, and those that are not skipped spell the rules, in their order. -/
def Tells (lines : List (Option (List Char))) (rs : List Rule) : Prop :=
  ∃ texts : List (List Char),
    lines = texts.map some ∧ List.Forall₂ Rule.SpelledBy rs (texts.filter isRuleLine)

theorem isRuleLine_eq_false_iff {line : List Char} :
    isRuleLine line = false ↔ IsBlankText line ∨ line.head? = some ';' := by
  simp only [isRuleLine, ne_eq, Bool.and_eq_false_iff, Bool.not_eq_false', List.all_eq_true,
    decide_eq_false_iff_not, Decidable.not_not, IsBlankText]

theorem isRuleLine_of_spelledBy {r : Rule} {line : List Char} (h : r.SpelledBy line) :
    isRuleLine line = true := by
  obtain ⟨before, rest, hlhs, hbefore, rfl⟩ : ∃ before rest, Rule.IsLeftSide r.lhs ∧
      IsBlankText before ∧ line = before ++ r.lhs.char :: rest := by
    cases h with
    | arrow hlhs hbefore => exact ⟨_, _, hlhs, hbefore, rfl⟩
    | blank hlhs hbefore => exact ⟨_, _, hlhs, hbefore, rfl⟩
  have hword := Token.isWordChar_eq_true_iff.mp (Rule.isWordChar_of_isAlpha hlhs.1)
  rw [← Bool.not_eq_false, isRuleLine_eq_false_iff]
  rintro (hblank | hhead)
  · have hchar := hblank r.lhs.char (List.mem_append_right _ (List.mem_cons_self ..))
    rw [hword.1] at hchar
    cases hchar
  · cases before with
    | nil =>
      have halpha := hlhs.1
      rw [Option.some.inj hhead] at halpha
      exact absurd halpha (by decide)
    | cons c before =>
      have hc := hbefore c (List.mem_cons_self ..)
      rw [Option.some.inj hhead] at hc
      exact absurd hc (by decide)

theorem tells_nil_iff {rs : List Rule} : Tells [] rs ↔ rs = [] := by
  constructor
  · rintro ⟨texts, htexts, hrs⟩
    rw [List.map_eq_nil_iff.mp htexts.symm] at hrs
    exact List.forall₂_nil_right_iff.mp hrs
  · rintro rfl
    exact ⟨[], rfl, .nil⟩

theorem not_tells_none_cons {lines : List (Option (List Char))} {rs : List Rule} :
    ¬Tells (none :: lines) rs := by
  rintro ⟨texts, htexts, _⟩
  cases texts <;> cases htexts

theorem tells_cons_of_not_isRuleLine {line : List Char} {lines : List (Option (List Char))}
    {rs : List Rule} (h : isRuleLine line = false) : Tells (some line :: lines) rs ↔ Tells lines rs := by
  constructor
  · rintro ⟨texts, htexts, hrs⟩
    obtain ⟨_, texts, rfl, hline, hlines⟩ := List.map_eq_cons_iff.mp htexts.symm
    cases hline
    rw [List.filter_cons_of_neg (by rw [h]; exact Bool.false_ne_true)] at hrs
    exact ⟨texts, hlines.symm, hrs⟩
  · rintro ⟨texts, rfl, hrs⟩
    refine ⟨line :: texts, rfl, ?_⟩
    rw [List.filter_cons_of_neg (by rw [h]; exact Bool.false_ne_true)]
    exact hrs

theorem tells_cons_of_isRuleLine {line : List Char} {lines : List (Option (List Char))}
    {rs : List Rule} (h : isRuleLine line = true) :
    Tells (some line :: lines) rs ↔
      ∃ r rs', r.SpelledBy line ∧ Tells lines rs' ∧ rs = r :: rs' := by
  constructor
  · rintro ⟨texts, htexts, hrs⟩
    obtain ⟨_, texts, rfl, hline, hlines⟩ := List.map_eq_cons_iff.mp htexts.symm
    cases hline
    rw [List.filter_cons_of_pos h] at hrs
    obtain ⟨r, rs', hr, hrs', rfl⟩ := List.forall₂_cons_right_iff.mp hrs
    exact ⟨r, rs', hr, ⟨texts, hlines.symm, hrs'⟩, rfl⟩
  · rintro ⟨r, rs', hr, ⟨texts, rfl, hrs'⟩, rfl⟩
    refine ⟨line :: texts, rfl, ?_⟩
    rw [List.filter_cons_of_pos h]
    exact .cons hr hrs'

theorem Tells.exists_spelledBy {lines : List (Option (List Char))} {rs : List Rule}
    (h : Tells lines rs) {r : Rule} (hr : r ∈ rs) : ∃ line, r.SpelledBy line := by
  obtain ⟨texts, _, hrs⟩ := h
  obtain ⟨line, _, hline⟩ := exists_of_mem_of_forall₂ hrs.flip hr
  exact ⟨line, hline⟩

theorem tells_append_iff {lines lines' : List (Option (List Char))} {rs : List Rule} :
    Tells (lines ++ lines') rs ↔
      ∃ rs₁ rs₂, Tells lines rs₁ ∧ Tells lines' rs₂ ∧ rs = rs₁ ++ rs₂ := by
  constructor
  · rintro ⟨texts, htexts, hrs⟩
    obtain ⟨texts₁, texts₂, rfl, h₁, h₂⟩ := List.map_eq_append_iff.mp htexts.symm
    rw [List.filter_append] at hrs
    exact ⟨_, _, ⟨texts₁, h₁.symm, List.forall₂_take_append _ _ _ hrs⟩,
      ⟨texts₂, h₂.symm, List.forall₂_drop_append _ _ _ hrs⟩, (List.take_append_drop _ rs).symm⟩
  · rintro ⟨rs₁, rs₂, ⟨texts₁, rfl, h₁⟩, ⟨texts₂, rfl, h₂⟩, rfl⟩
    refine ⟨texts₁ ++ texts₂, (List.map_append).symm, ?_⟩
    rw [List.filter_append]
    exact List.rel_append h₁ h₂

theorem Tells.unique {lines : List (Option (List Char))} {rs rs' : List Rule} (h : Tells lines rs)
    (h' : Tells lines rs') : rs = rs' := by
  obtain ⟨texts, rfl, hrs⟩ := h
  obtain ⟨texts', htexts, hrs'⟩ := h'
  cases List.map_injective_iff.mpr (fun _ _ => Option.some.inj) htexts
  have hunique : Relator.LeftUnique Rule.SpelledBy := fun _ _ _ hline hline' => hline.unique hline'
  exact hunique.forall₂ hrs hrs'

/-! ### Reading lines -/

theorem errors_eq_nil_iff {read : List (Except FileError Rule)} {rs : List Rule} :
    errors read = [] ∧ rules read = rs ↔ read = rs.map .ok := by
  constructor
  · rintro ⟨herrors, rfl⟩
    induction read with
    | nil => rfl
    | cons e read ih =>
      cases e with
      | error e => cases herrors
      | ok r => exact congrArg _ (ih herrors)
  · rintro rfl
    induction rs with
    | nil => exact ⟨rfl, rfl⟩
    | cons r rs ih => exact ⟨ih.1, congrArg _ ih.2⟩

theorem mapError_eq_ok_iff {ε ε' α : Type} {f : ε → ε'} {x : Except ε α} {a : α} :
    x.mapError f = .ok a ↔ x = .ok a := by
  cases x with
  | error e => simp [Except.mapError]
  | ok b => simp [Except.mapError]

/-- The numbers of the lines do not matter where no line is faulty. -/
theorem filterMap_readLine_eq_iff {file : String} {lines : List (Option (List Char))} {n : Nat}
    {rs : List Rule} :
    (lines.zipIdx n).filterMap (readLine file) = rs.map .ok ↔ Tells lines rs := by
  induction lines generalizing n rs with
  | nil =>
    rw [tells_nil_iff, List.zipIdx_nil, List.filterMap_nil, eq_comm, List.map_eq_nil_iff]
  | cons line lines ih =>
    rw [List.zipIdx_cons]
    match line with
    | none =>
      refine iff_of_false ?_ not_tells_none_cons
      intro h
      cases rs <;> cases h
    | some line =>
      by_cases hrule : isRuleLine line = true
      · rw [tells_cons_of_isRuleLine hrule,
          List.filterMap_cons_some (by rw [readLine, if_pos hrule])]
        constructor
        · intro h
          obtain ⟨r, rs', rfl, hr, hrs'⟩ := List.map_eq_cons_iff.mp h.symm
          have hline := mapError_eq_ok_iff.mp hr.symm
          exact ⟨r, rs', Rule.ofLine_eq_ok_iff.mp hline, ih.mp hrs'.symm, rfl⟩
        · rintro ⟨r, rs', hr, hrs', rfl⟩
          rw [ih.mpr hrs', mapError_eq_ok_iff.mpr (Rule.ofLine_eq_ok_iff.mpr hr)]
          rfl
      · rw [Bool.not_eq_true] at hrule
        rw [tells_cons_of_not_isRuleLine hrule, List.filterMap_cons_none, ih]
        rw [readLine, hrule]
        rfl

theorem tells_iff_readLines (file : String) {lines : List (Option (List Char))} {rs : List Rule} :
    Tells lines rs ↔ errors (readLines file lines) = [] ∧ rules (readLines file lines) = rs := by
  rw [errors_eq_nil_iff, readLines, filterMap_readLine_eq_iff]

/-! ### Whole files -/

theorem wholeFaults_eq_nil_iff {rs : List Rule} {s : Symbol} :
    wholeFaults rs (some s) = [] ↔
      3 ≤ (rs.flatMap Rule.productions).length ∧ ∃ r ∈ rs, r.lhs = s := by
  unfold wholeFaults
  simp [Fault.minRules]

/-- The rules are enough, and the start symbol, which is the first left side if none was asked for, is
one of the left sides. -/
def Assembled (start : Option Symbol) (rs : List Rule) (g : Grammar) : Prop :=
  ∃ s, (start <|> rs.head?.map Rule.lhs) = some s ∧
    (3 ≤ (rs.flatMap Rule.productions).length ∧ ∃ r ∈ rs, r.lhs = s) ∧
      g = Grammar.ofProductions s (rs.flatMap Rule.productions)

theorem assemble_eq_ok_iff {file : String} {rs : List Rule} {start : Option Symbol} {g : Grammar} :
    assemble file rs start = .ok g ↔ Assembled start rs g := by
  unfold assemble Assembled
  cases start <|> rs.head?.map Rule.lhs with
  | none => simp
  | some s =>
    simp only [Option.some.injEq, exists_eq_left', ← wholeFaults_eq_nil_iff]
    cases wholeFaults rs (some s) with
    | nil => simp [eq_comm]
    | cons fault faults => simp

theorem ofLines_eq_ok_iff {file : String} {lines : List (Option (List Char))}
    {start : Option Symbol} {g : Grammar} :
    ofLines file lines start = .ok g ↔ ∃ rs, Tells lines rs ∧ Assembled start rs g := by
  simp only [tells_iff_readLines file, ← @assemble_eq_ok_iff file]
  rw [ofLines]
  cases errors (readLines file lines) with
  | nil => simp
  | cons e es => simp

/-! ### Only the productions matter -/

theorem Tells.alternatives_ne_nil {lines : List (Option (List Char))} {rs : List Rule}
    (h : Tells lines rs) : ∀ r ∈ rs, r.alternatives ≠ [] := by
  intro r hr
  obtain ⟨line, hline⟩ := h.exists_spelledBy hr
  obtain ⟨text, htext⟩ := hline.exists_listedIn
  exact htext.ne_nil

theorem head?_flatMap_productions {rs : List Rule} (hrs : ∀ r ∈ rs, r.alternatives ≠ []) :
    (rs.flatMap Rule.productions).head?.map Prod.fst = rs.head?.map Rule.lhs := by
  cases rs with
  | nil => rfl
  | cons r rs =>
    obtain ⟨rhs, rhss, hr⟩ := List.exists_cons_of_ne_nil (hrs r (List.mem_cons_self ..))
    simp only [List.flatMap_cons, Rule.productions, hr, List.map_cons, List.cons_append,
      List.head?_cons, Option.map_some]

theorem exists_mem_flatMap_productions_iff {rs : List Rule} (hrs : ∀ r ∈ rs, r.alternatives ≠ [])
    {s : Symbol} : (∃ p ∈ rs.flatMap Rule.productions, p.1 = s) ↔ ∃ r ∈ rs, r.lhs = s := by
  constructor
  · rintro ⟨p, hp, rfl⟩
    obtain ⟨r, hr, hp⟩ := List.mem_flatMap.mp hp
    obtain ⟨rhs, _, rfl⟩ := List.mem_map.mp hp
    exact ⟨r, hr, rfl⟩
  · rintro ⟨r, hr, rfl⟩
    obtain ⟨rhs, hrhs⟩ := List.exists_mem_of_ne_nil _ (hrs r hr)
    exact ⟨(r.lhs, rhs), List.mem_flatMap.mpr ⟨r, hr, List.mem_map_of_mem hrhs⟩, rfl⟩

theorem assembled_congr {rs rs' : List Rule} (hrs : ∀ r ∈ rs, r.alternatives ≠ [])
    (hrs' : ∀ r ∈ rs', r.alternatives ≠ [])
    (h : rs.flatMap Rule.productions = rs'.flatMap Rule.productions) {start : Option Symbol}
    {g : Grammar} : Assembled start rs g ↔ Assembled start rs' g := by
  simp only [Assembled, ← head?_flatMap_productions hrs, ← head?_flatMap_productions hrs',
    ← exists_mem_flatMap_productions_iff hrs, ← exists_mem_flatMap_productions_iff hrs', h]

/-! ### Other ways to write a file -/

/-- The second lines say the same as the first: a line that is skipped comes in, the arrow of a rule
becomes a blank, or the alternatives of a rule are spread over several lines. -/
inductive Rewording : List (List Char) → List (List Char) → Prop
  | skipped {line : List Char} (h : IsBlankText line ∨ line.head? = some ';') : Rewording [] [line]
  | arrow {r : Rule} {before between text : List Char} (hlhs : Rule.IsLeftSide r.lhs)
      (hbefore : IsBlankText before) (hbetween : IsBlankText between)
      (hsides : Rule.ListedIn r.alternatives text) :
      Rewording [before ++ r.lhs.char :: (between ++ '-' :: '>' :: text)]
        [before ++ r.lhs.char :: (between ++ ' ' :: text)]
  | split {lhs : Symbol} {parts : List (List RightSide)} {line : List Char} {lines : List (List Char)}
      (hline : (Rule.mk lhs parts.flatten).SpelledBy line)
      (hlines : List.Forall₂ (fun rhss line => (Rule.mk lhs rhss).SpelledBy line) parts lines) :
      Rewording [line] lines

/-- Some of the lines are written in another way. -/
def Reworded (lines lines' : List (Option (List Char))) : Prop :=
  ∃ before block block' after, Rewording block block' ∧
    lines = before ++ (block.map some ++ after) ∧ lines' = before ++ (block'.map some ++ after)

theorem tells_of_forall₂ {rs : List Rule} {texts : List (List Char)}
    (h : List.Forall₂ Rule.SpelledBy rs texts) : Tells (texts.map some) rs := by
  refine ⟨texts, rfl, ?_⟩
  rw [List.filter_eq_self.mpr]
  · exact h
  · intro line hline
    obtain ⟨r, _, hr⟩ := exists_of_mem_of_forall₂ h hline
    exact isRuleLine_of_spelledBy hr

theorem Rewording.exists_tells {block block' : List (List Char)} (h : Rewording block block') :
    ∃ rs rs', Tells (block.map some) rs ∧ Tells (block'.map some) rs' ∧
      rs.flatMap Rule.productions = rs'.flatMap Rule.productions := by
  cases h with
  | @skipped line h =>
    have hline := isRuleLine_eq_false_iff.mpr h
    have hnone : Tells [] [] := tells_nil_iff.mpr rfl
    exact ⟨[], [], hnone, (tells_cons_of_not_isRuleLine hline).mpr hnone, rfl⟩
  | @arrow r before between text hlhs hbefore hbetween hsides =>
    have hplain : r.SpelledBy (before ++ r.lhs.char :: (between ++ ' ' :: text)) := by
      cases between with
      | nil => exact .blank hlhs hbefore rfl hsides
      | cons c between =>
        obtain ⟨hc, hbetween⟩ := List.forall_mem_cons.mp hbetween
        have hspace : IsBlankText [' '] := List.forall_mem_singleton.mpr rfl
        exact .blank hlhs hbefore hc ((hsides.blanks_append hspace).blanks_append hbetween)
    have harrow := Rule.SpelledBy.arrow hlhs hbefore hbetween hsides
    exact ⟨[r], [r], tells_of_forall₂ (.cons harrow .nil), tells_of_forall₂ (.cons hplain .nil), rfl⟩
  | @split lhs parts line lines hline hlines =>
    refine ⟨[⟨lhs, parts.flatten⟩], parts.map (Rule.mk lhs), tells_of_forall₂ (.cons hline .nil),
      tells_of_forall₂ (List.forall₂_map_left_iff.mpr hlines), ?_⟩
    rw [List.flatMap_singleton, List.flatMap_map, Rule.productions, List.map_flatten,
      ← List.flatMap_def]
    rfl

/-- Lines in the middle of a file can be replaced by others with the same productions. -/
theorem Tells.replace {before block block' after : List (Option (List Char))} {bs bs' rs : List Rule}
    (hblock : Tells block bs) (hblock' : Tells block' bs')
    (hsame : bs.flatMap Rule.productions = bs'.flatMap Rule.productions)
    (h : Tells (before ++ (block ++ after)) rs) :
    ∃ rs', Tells (before ++ (block' ++ after)) rs' ∧
      rs.flatMap Rule.productions = rs'.flatMap Rule.productions := by
  obtain ⟨rs₁, _, hbefore, hrest, rfl⟩ := tells_append_iff.mp h
  obtain ⟨bs₁, rs₂, hmiddle, hafter, rfl⟩ := tells_append_iff.mp hrest
  -- the lines of the block tell these rules and no others
  cases hmiddle.unique hblock
  refine ⟨rs₁ ++ (bs' ++ rs₂), tells_append_iff.mpr ⟨rs₁, _, hbefore, ?_, rfl⟩, ?_⟩
  · exact tells_append_iff.mpr ⟨bs', rs₂, hblock', hafter, rfl⟩
  · simp only [List.flatMap_append, hsame]

theorem ofLines_eq_ok_of_replace {file : String} {start : Option Symbol} {g : Grammar}
    {before block block' after : List (Option (List Char))} {bs bs' : List Rule}
    (hblock : Tells block bs) (hblock' : Tells block' bs')
    (hsame : bs.flatMap Rule.productions = bs'.flatMap Rule.productions)
    (h : ofLines file (before ++ (block ++ after)) start = .ok g) :
    ofLines file (before ++ (block' ++ after)) start = .ok g := by
  obtain ⟨rs, hrs, hg⟩ := ofLines_eq_ok_iff.mp h
  obtain ⟨rs', hrs', hps⟩ := hblock.replace hblock' hsame hrs
  refine ofLines_eq_ok_iff.mpr ⟨rs', hrs', ?_⟩
  exact (assembled_congr hrs.alternatives_ne_nil hrs'.alternatives_ne_nil hps).mp hg

/-- The reader returns the grammar of the rules that the file tells, with the start symbol asked for
or else the first left side.  It returns the same grammar if lines are written in another way. -/
theorem ofBytes?_eq_ok_iff {file : String} {bytes : List UInt8} {start : Option Symbol} :
    (∀ g, ofBytes? file (some bytes) start = .ok g ↔
      ∃ rs, Tells (linesOfBytes bytes) rs ∧ Assembled start rs g) ∧
    ∀ bytes', Reworded (linesOfBytes bytes) (linesOfBytes bytes') → ∀ g,
      (ofBytes? file (some bytes') start = .ok g ↔ ofBytes? file (some bytes) start = .ok g) := by
  refine ⟨fun g => ofLines_eq_ok_iff, ?_⟩
  rintro bytes' ⟨before, block, block', after, hblock, hlines, hlines'⟩ g
  obtain ⟨bs, bs', hbs, hbs', hsame⟩ := hblock.exists_tells
  rw [ofBytes?, ofBytes?, hlines, hlines']
  exact ⟨ofLines_eq_ok_of_replace hbs' hbs hsame.symm, ofLines_eq_ok_of_replace hbs hbs' hsame⟩

/-! The alternatives of a rule on one line, and on two lines of which the second has no arrow. -/

def oneLineText : String := "S -> AB | a\nA e\nB->b\n"

def twoLineText : String := "S -> AB\nS a\nA e\nB->b\n"

def spreadGrammar : Grammar :=
  Grammar.ofProductions ⟨'S'⟩
    [(⟨'S'⟩, [⟨'A'⟩, ⟨'B'⟩]), (⟨'S'⟩, [⟨'a'⟩]), (⟨'A'⟩, [⟨'e'⟩]), (⟨'B'⟩, [⟨'b'⟩])]

theorem ofBytes?_eq_ok_iff_spread :
    Reworded (linesOfBytes (encodeText oneLineText.toList))
      (linesOfBytes (encodeText twoLineText.toList)) ∧
    ofBytes? "spread" (some (encodeText twoLineText.toList)) none = .ok spreadGrammar := by
  have hspelled : ∀ {line : List Char} {r : Rule}, (Rule.ofLine line).toOption = some r →
      r.SpelledBy line := fun h => Rule.spelledBy_of_ofLine (eq_ok_of_toOption_eq_some h)
  have hsplit : Rewording ["S -> AB | a".toList] ["S -> AB".toList, "S a".toList] :=
    @Rewording.split ⟨'S'⟩ [[[⟨'A'⟩, ⟨'B'⟩]], [[⟨'a'⟩]]] _ _ (hspelled (by decide +kernel))
      (.cons (hspelled (by decide +kernel)) (.cons (hspelled (by decide +kernel)) .nil))
  have hreworded : Reworded (linesOfBytes (encodeText oneLineText.toList))
      (linesOfBytes (encodeText twoLineText.toList)) :=
    ⟨[], _, _, [some "A e".toList, some "B->b".toList], hsplit, by decide +kernel,
      by decide +kernel⟩
  refine ⟨hreworded, (ofBytes?_eq_ok_iff.2 _ hreworded _).mpr ?_⟩
  exact eq_ok_of_toOption_eq_some (by decide +kernel)

end ChomskyForm.GrammarFile
