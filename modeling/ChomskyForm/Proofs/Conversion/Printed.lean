import ChomskyForm.Grammar.Printer
import ChomskyForm.Proofs.Conversion.Shape

/-!
# The words of a printed grammar

Who reads the printed lines of a grammar takes the left sides and the start symbol for its
nonterminals, and all other symbols for terminals (`AcceptsByLines`).  A nonterminal that has lost its
productions looks like a terminal then.  So the lines have all words of the grammar, and besides them
words in which such a symbol is a letter (`accepts_iff_acceptsByLines`).  Pruning leaves none of
these symbols (`selfContained_prune`).
-/

namespace ChomskyForm

/-! ### Reading printed lines -/

/-- The production that a printed line shows. -/
def Production.ofText? (line : String) : Option Production :=
  match line.toList with
  | lhs :: '-' :: '>' :: rhs => some (⟨lhs⟩, RightSide.ofChars rhs)
  | _ => none

theorem Production.toList_text (p : Production) :
    (Production.text p).toList = p.1.char :: '-' :: '>' :: RightSide.chars p.2 := by
  have hlhs : (toString p.1).toList = [p.1.char] := String.toList_singleton ..
  have hrhs : (toString (RightSide.text p.2)).toList = RightSide.chars p.2 :=
    String.toList_ofList
  rw [Production.text, String.toList_append, String.toList_append, hlhs, hrhs]
  rfl

theorem RightSide.ofChars_chars (rhs : RightSide) : RightSide.ofChars (RightSide.chars rhs) = rhs := by
  rw [RightSide.ofChars, RightSide.chars, List.map_map]
  exact List.map_id rhs

theorem Production.ofText?_text (p : Production) : Production.ofText? (Production.text p) = some p := by
  rw [Production.ofText?, Production.toList_text]
  simp only [RightSide.ofChars_chars]

/-- The start symbol derives the word by the productions that the lines show.  The symbols that are
expanded are the left sides of the lines and the start symbol. -/
def AcceptsByLines (start : Symbol) (lines : List String) (w : List Symbol) : Prop :=
  let ps := lines.filterMap Production.ofText?
  Yields (fun s => s = start ∨ ∃ p ∈ ps, p.1 = s) (Grammar.ofProductions start ps).rules [start] w

namespace Grammar

variable {g : Grammar}

theorem filterMap_ofText?_lines : g.lines.filterMap Production.ofText? = g.productions := by
  rw [lines, List.filterMap_map]
  refine (List.filterMap_congr fun p _ => ?_).trans List.filterMap_some
  exact Production.ofText?_text p

/-- The symbol is the left side of a printed line, or the start symbol. -/
def IsPrintedLeft (g : Grammar) (s : Symbol) : Prop := s = g.start ∨ g.alternatives s ≠ []

theorem isPrintedLeft_of_mem {s : Symbol} {rhs : RightSide} (h : rhs ∈ g.alternatives s) :
    g.IsPrintedLeft s := Or.inr (List.ne_nil_of_mem h)

theorem isPrintedLeft_iff {s : Symbol} :
    g.IsPrintedLeft s ↔ s = g.start ∨ ∃ p ∈ g.productions, p.1 = s := by
  refine or_congr_right ?_
  constructor
  · intro hne
    obtain ⟨rhs, hrhs⟩ := List.exists_mem_of_ne_nil _ hne
    exact ⟨(s, rhs), mem_productions_iff.mpr hrhs, rfl⟩
  · rintro ⟨p, hp, rfl⟩
    exact List.ne_nil_of_mem (mem_productions_iff.mp hp)

/-- The lines are read with the productions of the grammar and its printed left sides. -/
theorem acceptsByLines_iff {w : List Symbol} :
    AcceptsByLines g.start g.lines w ↔ Yields g.IsPrintedLeft g.rules [g.start] w := by
  have hsame : ∀ s rhs,
      rhs ∈ (ofProductions g.start g.productions).alternatives s ↔ rhs ∈ g.alternatives s := by
    intro s rhs
    rw [mem_alternatives_ofProductions, mem_productions_iff]
  simp only [AcceptsByLines, filterMap_ofText?_lines, ← isPrintedLeft_iff]
  constructor
  · intro h
    exact h.mono fun s rhs hrhs => (hsame s rhs).mp hrhs
  · intro h
    exact h.mono fun s rhs hrhs => (hsame s rhs).mpr hrhs

/-! ### What the lines say of the grammar -/

/-- A word has no letter that is expanded. -/
theorem not_mem_of_yields {N : Symbol → Prop} {rules : RuleTable} {α : RightSide}
    {w : List Symbol} (h : Yields N rules α w) : ∀ s ∈ w, ¬N s := by
  induction h with
  | nil =>
    intro s hs
    exact absurd hs List.not_mem_nil
  | @terminal t rest w fixed _ ih =>
    intro s hs
    rcases List.mem_append.mp hs with hs | hs
    · by_cases ht : t = Symbol.marker
      · rw [ht, Symbol.spelled_marker] at hs
        exact absurd hs List.not_mem_nil
      · rw [Symbol.spelled_of_ne ht, List.mem_singleton] at hs
        rw [hs]
        exact fixed
    · exact ih s hs
  | nonterminal _ _ _ _ ihHead ihTail =>
    intro s hs
    exact (List.mem_append.mp hs).elim (ihHead s) (ihTail s)

section

variable (hkeys : ∀ s ∈ g.rules, s ∈ g.vocabulary) (hstart : g.start ∈ g.vocabulary)

include hkeys hstart

theorem mem_vocabulary_of_isPrintedLeft {s : Symbol} (h : g.IsPrintedLeft s) :
    s ∈ g.vocabulary := by
  rcases h with h | h
  · rw [h]
    exact hstart
  · obtain ⟨rhs, hrhs⟩ := List.exists_mem_of_ne_nil _ h
    exact hkeys s (mem_of_mem_alternatives hrhs)

/-- A nonterminal that is expanded has a production, so it is a printed left side. -/
theorem yields_isPrintedLeft {α : RightSide} {w : List Symbol}
    (h : Yields (· ∈ g.vocabulary) g.rules α w) : Yields g.IsPrintedLeft g.rules α w :=
  h.transfer (Q := fun _ => True) (fun _ _ _ _ _ _ _ => trivial)
    (fun _ _ hfixed hleft => hfixed (mem_vocabulary_of_isPrintedLeft hkeys hstart hleft))
    (fun _ _ _ _ hrhs _ hu => .of_alternative (isPrintedLeft_of_mem hrhs) hrhs hu)
    fun _ _ => trivial

/-- Where no nonterminal is left as a letter, none was taken for a terminal on the way. -/
theorem yields_of_isPrintedLeft (hexcluded : Symbol.marker ∉ g.vocabulary) {α : RightSide}
    {w : List Symbol} (h : Yields g.IsPrintedLeft g.rules α w) (hw : ∀ s ∈ w, s ∉ g.vocabulary) :
    Yields (· ∈ g.vocabulary) g.rules α w := by
  induction h with
  | nil => exact .nil
  | @terminal s rest w fixed tail ih =>
    have hfixed : s ∉ g.vocabulary := by
      by_cases hs : s = Symbol.marker
      · rw [hs]
        exact hexcluded
      · refine hw s (List.mem_append_left _ ?_)
        rw [Symbol.spelled_of_ne hs]
        exact List.mem_singleton.mpr rfl
    exact .terminal hfixed (ih fun t ht => hw t (List.mem_append_right _ ht))
  | nonterminal expanded choice head tail ihHead ihTail =>
    exact .nonterminal (mem_vocabulary_of_isPrintedLeft hkeys hstart expanded) choice
      (ihHead fun t ht => hw t (List.mem_append_left _ ht))
      (ihTail fun t ht => hw t (List.mem_append_right _ ht))

/-- The words of the grammar are the words of its lines without a nonterminal for a letter. -/
theorem accepts_iff_acceptsByLines (hexcluded : Symbol.marker ∉ g.vocabulary) {w : List Symbol} :
    g.Accepts w ↔ AcceptsByLines g.start g.lines w ∧ ∀ s ∈ w, s ∉ g.vocabulary := by
  rw [acceptsByLines_iff]
  constructor
  · intro h
    exact ⟨yields_isPrintedLeft hkeys hstart h, not_mem_of_yields h⟩
  · rintro ⟨h, hw⟩
    exact yields_of_isPrintedLeft hkeys hstart hexcluded h hw

end

/-! ### Self-contained grammars -/

/-- Each nonterminal on a right side is a printed left side. -/
def SelfContained (g : Grammar) : Prop :=
  ∀ s, g.Uses s → s ∈ g.vocabulary → g.IsPrintedLeft s

theorem acceptsByLines_iff_accepts (hcontained : g.SelfContained)
    (hkeys : ∀ s ∈ g.rules, s ∈ g.vocabulary) (hstart : g.start ∈ g.vocabulary)
    {w : List Symbol} : AcceptsByLines g.start g.lines w ↔ g.Accepts w := by
  rw [acceptsByLines_iff]
  constructor
  · intro h
    refine h.transfer (Q := fun s => s ∈ g.vocabulary → g.IsPrintedLeft s) ?_ ?_ ?_ ?_
    · intro s _ _ rhs hrhs t ht
      exact hcontained t (uses_of_mem hrhs ht)
    · intro s hs hfixed hexp
      exact hfixed (hs hexp)
    · intro s _ hleft rhs hrhs u hu
      exact .of_alternative (mem_vocabulary_of_isPrintedLeft hkeys hstart hleft) hrhs hu
    · intro s hs _
      exact Or.inl (List.mem_singleton.mp hs)
  · exact yields_isPrintedLeft hkeys hstart

theorem selfContained_prune (hg : g.Coherent) : g.prune.SelfContained := by
  intro s _ hexp
  have hkey := (mem_vocabulary_prune.mp hexp).2
  by_cases hs : s = g.start
  · exact Or.inl hs
  · exact Or.inr (alternatives_prune_ne_nil hg hkey hs)

end Grammar

/-! ### Results of a conversion -/

/-- The last stage of a conversion works on what the stages before it left. -/
theorem Conversion.exists_of_through_concat_eq_ok {o : Options} {stages : List Stage} {t : Stage}
    {d : Draft} {r : Grammar} (h : (through o (stages ++ [t]) d).outcome = .ok r) :
    ∃ d' d'', (through o stages d).outcome = .ok d'.grammar ∧ (t.apply o d').outcome = .ok d'' ∧
      d''.grammar = r := by
  induction stages generalizing d with
  | nil =>
    obtain ⟨d'', happly, hrest, _⟩ := exists_of_through_cons_eq_ok h
    exact ⟨d, d'', rfl, happly, Except.ok.inj hrest⟩
  | cons u stages ih =>
    obtain ⟨d₁, happly, hrest, _⟩ := exists_of_through_cons_eq_ok h
    obtain ⟨d', d'', hfront, hlast⟩ := ih hrest
    refine ⟨d', d'', ?_, hlast⟩
    rw [through_cons_of_ok happly]
    exact hfront

theorem exists_prune_of_convert {g r : Grammar} {o : Options} (h : g.IsReadable)
    (ho : o.prune = true) (hr : (g.convert o).outcome = .ok r) :
    ∃ done g', Settled g.start done g' ∧ r = g'.prune := by
  obtain ⟨front, hstages⟩ : ∃ front, o.stages = front ++ [.uselessRules] := by
    rw [Options.stages, if_pos ho]
    exact ⟨_, rfl⟩
  have hrun : (Conversion.through o o.stages { grammar := g }).outcome = .ok r := hr
  have hsorted := o.pairwise_stages
  rw [hstages] at hrun hsorted
  obtain ⟨d', d'', hfront, hlast, hd''⟩ := Conversion.exists_of_through_concat_eq_ok hrun
  have hfrontSorted : ([] ++ front).Pairwise fun t u : Stage => t.rank < u.rank :=
    (List.pairwise_append.mp hsorted).1
  have hsettled := Settled.of_outcome (d := { grammar := g }) hfrontSorted (.of_isReadable h) hfront
  cases hlast
  exact ⟨_, _, hsettled, hd''.symm⟩

theorem selfContained_of_convert {g r : Grammar} {o : Options} (h : g.IsReadable)
    (ho : o.prune = true) (hr : (g.convert o).outcome = .ok r) : r.SelfContained := by
  obtain ⟨_, g', hsettled, rfl⟩ := exists_prune_of_convert h ho hr
  exact Grammar.selfContained_prune hsettled.coherent

/-- The lines of a result have its words and no others whose letters are all terminals.  If it was
pruned, they have no others at all. -/
theorem acceptsByLines_of_convert {file : String} {bytes : Option (List UInt8)}
    {start : Option Symbol} {g r : Grammar} {o : Options}
    (h : GrammarFile.ofBytes? file bytes start = .ok g) (hr : (g.convert o).outcome = .ok r) :
    (∀ w, r.Accepts w ↔ AcceptsByLines r.start r.lines w ∧ ∀ s ∈ w, s ∉ r.vocabulary) ∧
    (o.prune = true → ∀ w, AcceptsByLines r.start r.lines w ↔ r.Accepts w) := by
  have hg := isReadable_of_ofBytes? h
  have hdone := Settled.of_convert_outcome hg hr
  have hkeys := hdone.coherent.keys
  have hstart := hdone.start_mem_vocabulary
  refine ⟨fun w => ?_, fun ho w => ?_⟩
  · exact Grammar.accepts_iff_acceptsByLines hkeys hstart hdone.coherent.marker
  · exact Grammar.acceptsByLines_iff_accepts (selfContained_of_convert hg ho hr) hkeys hstart

theorem acceptsByLines_of_convert_sample :
    GrammarFile.ofBytes? "sample" (some (GrammarFile.encodeText sampleText.toList)) none =
      .ok sampleGrammar ∧
    ∃ r, (sampleGrammar.convert ⟨.whileEmpty, false, true⟩).outcome = .ok r ∧
      ∀ w, AcceptsByLines r.start r.lines w ↔ r.Accepts w := by
  obtain ⟨r, hr⟩ := exists_of_toOption_isSome
    (x := (sampleGrammar.convert ⟨.whileEmpty, false, true⟩).outcome) (by decide +kernel)
  exact ⟨ofBytes?_sampleText, r, hr, (acceptsByLines_of_convert ofBytes?_sampleText hr).2 rfl⟩

/-! The left side `A` of this file has a unit production only.  Its entry goes with it, but `A` is
still mentioned by `S`. -/

def leftoverText : String := "S -> xA\nA -> B\nB -> b\n"

def leftoverGrammar : Grammar :=
  Grammar.ofProductions ⟨'S'⟩
    [(⟨'S'⟩, [⟨'x'⟩, ⟨'A'⟩]), (⟨'A'⟩, [⟨'B'⟩]), (⟨'B'⟩, [⟨'b'⟩])]

/-- Without pruning the lines can have a word that the grammar has not: `A` is no left side of a line
and passes for a terminal. -/
theorem acceptsByLines_leftover :
    GrammarFile.ofBytes? "leftover" (some (GrammarFile.encodeText leftoverText.toList)) none =
      .ok leftoverGrammar ∧
    ∃ r, (leftoverGrammar.convert {}).outcome = .ok r ∧ r.lines = ["S->xA", "S->xB", "B->b"] ∧
      AcceptsByLines r.start r.lines [⟨'x'⟩, ⟨'A'⟩] ∧ ¬r.Accepts [⟨'x'⟩, ⟨'A'⟩] := by
  refine ⟨eq_ok_of_toOption_eq_some (by decide +kernel), ?_⟩
  obtain ⟨r, hr⟩ := exists_of_toOption_isSome
    (x := (leftoverGrammar.convert {}).outcome) (by decide +kernel)
  have hlook : ∀ {α : Type} {look : Grammar → α} {a : α},
      (leftoverGrammar.convert {}).outcome.toOption.map look = some a → look r = a := by
    intro α look a h
    rw [hr] at h
    exact Option.some.inj h
  have hstart : r.start = ⟨'S'⟩ := hlook (by decide +kernel)
  have hlines : r.lines = ["S->xA", "S->xB", "B->b"] := hlook (by decide +kernel)
  have hproductions : r.productions =
      [(⟨'S'⟩, [⟨'x'⟩, ⟨'A'⟩]), (⟨'S'⟩, [⟨'x'⟩, ⟨'B'⟩]), (⟨'B'⟩, [⟨'b'⟩])] :=
    hlook (by decide +kernel)
  have hexp : r.isNonterminal ⟨'A'⟩ = true :=
    @hlook Bool (·.isNonterminal ⟨'A'⟩) true (by decide +kernel)
  refine ⟨r, hr, hlines, ?_, ?_⟩
  · have hletter : ∀ s : Symbol, s = ⟨'x'⟩ ∨ s = ⟨'A'⟩ → ¬r.IsPrintedLeft s := by
      rw [forall_eq_or_imp, forall_eq]
      simp only [Grammar.isPrintedLeft_iff, hstart, hproductions]
      decide
    have hrule : [⟨'x'⟩, ⟨'A'⟩] ∈ r.alternatives r.start := by
      rw [← Grammar.mem_productions_iff, hstart, hproductions]
      exact List.mem_cons_self ..
    rw [Grammar.acceptsByLines_iff]
    exact .of_alternative (Or.inl rfl) hrule
      (.terminal (hletter _ (Or.inl rfl)) (.terminal (hletter _ (Or.inr rfl)) .nil))
  · intro h
    refine Grammar.not_mem_of_yields h ⟨'A'⟩ (by decide) ?_
    exact Grammar.isNonterminal_eq_true_iff.mp hexp

end ChomskyForm
