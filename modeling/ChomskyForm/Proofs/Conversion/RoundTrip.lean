import ChomskyForm.Proofs.Conversion.Distinct
import ChomskyForm.Proofs.Conversion.Printed
import ChomskyForm.Proofs.Kinds

/-!
# Reading what was printed

The printed lines of a grammar tell its productions, one rule to a line.  A grammar whose vocabulary
has just the keys of its table is read back with this table (`Grammar.ReadsBack`).  A file that was
read has such a grammar, and so has a conversion with pruning that left the start symbol a production.
-/

namespace ChomskyForm

theorem OrderedSet.sameMembers_of_forall_mem_iff {α : Type} {s t : OrderedSet α}
    (h : ∀ a, a ∈ s ↔ a ∈ t) : s.SameMembers t := by
  have hperm : s.toList.Perm t.toList := (List.perm_ext_iff_of_nodup s.nodup t.nodup).mpr h
  exact ⟨hperm.length_eq, fun a ha => (h a).mp ha⟩

theorem LetterPool.excluding_congr {used used' : List Symbol} (h : ∀ s, s ∈ used ↔ s ∈ used') :
    LetterPool.excluding used = LetterPool.excluding used' := by
  simp only [LetterPool.excluding, h]

/-- The alphabet has every letter but the marker. -/
theorem mem_alphabet_iff {s : Symbol} :
    s ∈ alphabet ↔ s.char.isAlpha = true ∧ s ≠ Symbol.marker := by
  constructor
  · intro hs
    have hall : ∀ s ∈ alphabet, s.char.isAlpha = true := by decide +kernel
    refine ⟨hall s hs, ?_⟩
    rintro rfl
    exact marker_not_mem_alphabet hs
  · rintro ⟨halpha, hmarker⟩
    have hall : ∀ n < 123, (Char.ofNat n).isAlpha = true → Symbol.mk (Char.ofNat n) ≠ Symbol.marker →
        Symbol.mk (Char.ofNat n) ∈ alphabet := by decide +kernel
    have hcode := Rule.toNat_of_isAlpha halpha
    have hchar : Char.ofNat s.char.toNat = s.char := Char.ofNat_toNat s.char
    have hletter := hall s.char.toNat (by omega)
    rw [hchar] at hletter
    exact hletter halpha hmarker

/-! ### Printed lines -/

namespace GrammarFile

/-- A character that takes one byte and ends no line. -/
def IsGraphic (c : Char) : Prop := 32 < c.toNat ∧ c.toNat < 128

theorem isGraphic_of_isAlpha {c : Char} (h : c.isAlpha = true) : IsGraphic c := by
  have hcode := Rule.toNat_of_isAlpha h
  constructor <;> omega

theorem not_lineEnd_of_mem_encodeText {text : List Char} (h : ∀ c ∈ text, IsGraphic c) {b : UInt8}
    (hb : b ∈ encodeText text) : b ≠ 0x0A ∧ b ≠ 0x0D := by
  obtain ⟨c, hc, hb⟩ := List.mem_flatMap.mp hb
  obtain ⟨hlow, hhigh⟩ := h c hc
  have hsize : c.utf8Size = 1 := by
    rw [Char.utf8Size, if_pos]
    show c.toNat ≤ 127
    omega
  have hcode : b.toNat = c.toNat := by
    rw [String.utf8EncodeChar_eq_singleton hsize, List.mem_singleton] at hb
    rw [hb, UInt32.toNat_toUInt8]
    exact Nat.mod_eq_of_lt (Nat.lt_trans hhigh (by decide))
  constructor
  · rintro rfl
    have hten : (0x0A : UInt8).toNat = 10 := rfl
    omega
  · rintro rfl
    have hthirteen : (0x0D : UInt8).toNat = 13 := rfl
    omega

theorem splitLines_append {bs rest : List UInt8} (hbs : ∀ b ∈ bs, b ≠ 0x0A ∧ b ≠ 0x0D) :
    splitLines (bs ++ 0x0A :: rest) = bs :: splitLines rest := by
  induction bs with
  | nil => rfl
  | cons b bs ih =>
    obtain ⟨⟨hlf, hcr⟩, hbs⟩ := List.forall_mem_cons.mp hbs
    rw [List.cons_append, splitLines, ih hbs]
    · intro rest' hb
      exact absurd hb hcr
    · exact hlf

/-- Each printed line is a line of the file. -/
theorem linesOfBytes_encodeText {texts : List (List Char)}
    (h : ∀ text ∈ texts, ∀ c ∈ text, IsGraphic c) :
    linesOfBytes (encodeText (texts.flatMap fun text => text ++ ['\n'])) = texts.map some := by
  induction texts with
  | nil => rfl
  | cons text texts ih =>
    obtain ⟨htext, htexts⟩ := List.forall_mem_cons.mp h
    have hbytes : encodeText ((text :: texts).flatMap fun text => text ++ ['\n']) =
        encodeText text ++ 0x0A :: encodeText (texts.flatMap fun text => text ++ ['\n']) := by
      simp only [encodeText, List.flatMap_cons, List.flatMap_append, List.append_assoc]
      rfl
    rw [linesOfBytes, hbytes, splitLines_append fun b hb => not_lineEnd_of_mem_encodeText htext hb,
      List.map_cons, decodeLine_encodeText, List.map_cons, ← ih htexts]
    rfl

end GrammarFile

namespace Rule

/-- The rule on a printed line. -/
def ofProduction (p : Production) : Rule := ⟨p.1, [p.2]⟩

theorem spelledBy_text {p : Production} (hlhs : IsLeftSide p.1) (hrhs : IsAlternative p.2) :
    (ofProduction p).SpelledBy (Production.text p).toList := by
  have hside : ListedIn [p.2] ([] ++ (RightSide.chars p.2 ++ [])) :=
    .last isBlankText_nil hrhs isBlankText_nil
  rw [List.append_nil] at hside
  rw [Production.toList_text]
  exact @SpelledBy.arrow (ofProduction p) [] [] _ hlhs isBlankText_nil isBlankText_nil hside

theorem isGraphic_of_mem_text {p : Production} (hlhs : IsLeftSide p.1) (hrhs : IsAlternative p.2) :
    ∀ c ∈ (Production.text p).toList, GrammarFile.IsGraphic c := by
  intro c hc
  rw [Production.toList_text] at hc
  simp only [List.mem_cons, RightSide.chars, List.mem_map] at hc
  rcases hc with rfl | rfl | rfl | ⟨s, hs, rfl⟩
  · exact GrammarFile.isGraphic_of_isAlpha hlhs.1
  · exact ⟨by decide, by decide⟩
  · exact ⟨by decide, by decide⟩
  · exact GrammarFile.isGraphic_of_isAlpha (hrhs.isAlpha hs)

end Rule

/-! ### Grammars that can be read back -/

namespace Grammar

variable {g r : Grammar}

/-- The symbols that occur in the grammar. -/
def symbols (g : Grammar) : List Symbol := g.start :: g.productions.flatMap fun p => p.1 :: p.2

/-- The text of the grammar is read, with its start symbol, as a grammar with the same table. -/
def ReadsBack (file : String) (g : Grammar) : Prop :=
  ∃ g', GrammarFile.ofBytes? file (some (GrammarFile.encodeText g.text.toList)) (some g.start) =
      .ok g' ∧ g'.start = g.start ∧ g'.rules = g.rules ∧ g'.vocabulary.SameMembers g.vocabulary ∧
    g'.pool.letters = alphabet.filter fun s => s ∉ g.symbols

/-- Every symbol is a letter. -/
def IsAlphabetic (g : Grammar) : Prop := ∀ s, s ∈ g.vocabulary ∨ g.Uses s → s.char.isAlpha = true

/-- The lines of the grammar say all there is to say about its table. -/
structure IsPrintable (g : Grammar) : Prop where
  alphabetic : g.IsAlphabetic
  markerAlone : g.MarkerAlone
  vocabulary : ∀ s, s ∈ g.vocabulary ↔ s ∈ g.rules
  marker : Symbol.marker ∉ g.rules
  distinct : g.rules.Distinct
  full : ∀ s ∈ g.rules, g.alternatives s ≠ []
  start_mem : g.start ∈ g.rules

theorem toList_text : g.text.toList =
    (g.productions.map fun p => (Production.text p).toList).flatMap fun text => text ++ ['\n'] := by
  rw [text, String.toList_join, lines, List.map_map, List.flatMap_map, List.flatMap_map]
  refine List.flatMap_congr fun p _ => ?_
  exact String.toList_append

theorem IsPrintable.isLeftSide (h : g.IsPrintable) {p : Production} (hp : p ∈ g.productions) :
    Rule.IsLeftSide p.1 := by
  have hkey := mem_of_mem_alternatives (mem_productions_iff.mp hp)
  refine ⟨h.alphabetic p.1 (Or.inl ((h.vocabulary p.1).mpr hkey)), ?_⟩
  intro hmarker
  rw [hmarker] at hkey
  exact h.marker hkey

theorem IsPrintable.isAlternative (h : g.IsPrintable) {p : Production} (hp : p ∈ g.productions) :
    Rule.IsAlternative p.2 := by
  have hrhs := mem_productions_iff.mp hp
  obtain ⟨hne, halone⟩ := h.markerAlone p.1 p.2 hrhs
  by_cases hmarker : Symbol.marker ∈ p.2
  · exact Or.inl (halone hmarker)
  · refine Or.inr ⟨hne, fun s hs => ⟨h.alphabetic s (Or.inr (uses_of_mem hrhs hs)), ?_⟩⟩
    rintro rfl
    exact hmarker hs

/-- A printable grammar is read back from its productions. -/
theorem ofBytes?_text_of_isPrintable (file : String) (h : g.IsPrintable)
    (hcount : 3 ≤ g.productionCount) :
    GrammarFile.ofBytes? file (some (GrammarFile.encodeText g.text.toList)) (some g.start) =
      .ok (ofProductions g.start g.productions) := by
  have hlines : GrammarFile.linesOfBytes (GrammarFile.encodeText g.text.toList) =
      (g.productions.map fun p => (Production.text p).toList).map some := by
    rw [toList_text]
    refine GrammarFile.linesOfBytes_encodeText fun text htext => ?_
    obtain ⟨p, hp, rfl⟩ := List.mem_map.mp htext
    exact Rule.isGraphic_of_mem_text (h.isLeftSide hp) (h.isAlternative hp)
  have htells : GrammarFile.Tells (GrammarFile.linesOfBytes (GrammarFile.encodeText g.text.toList))
      (g.productions.map Rule.ofProduction) := by
    rw [hlines]
    refine GrammarFile.tells_of_forall₂ ?_
    rw [List.forall₂_map_left_iff, List.forall₂_map_right_iff, List.forall₂_same]
    exact fun p hp => Rule.spelledBy_text (h.isLeftSide hp) (h.isAlternative hp)
  have hproductions : (g.productions.map Rule.ofProduction).flatMap Rule.productions =
      g.productions := by
    rw [List.flatMap_map]
    exact List.flatMap_singleton' _
  refine GrammarFile.ofLines_eq_ok_iff.mpr ⟨_, htells, g.start, rfl, ⟨?_, ?_⟩, ?_⟩
  · rw [hproductions]
    exact hcount
  · obtain ⟨rhs, hrhs⟩ := List.exists_mem_of_ne_nil _ (h.full _ h.start_mem)
    exact ⟨_, List.mem_map_of_mem (mem_productions_iff.mpr hrhs), rfl⟩
  · rw [hproductions]

theorem readsBack_of_isPrintable (file : String) (h : g.IsPrintable)
    (hcount : 3 ≤ g.productionCount) : g.ReadsBack file := by
  have hrules : (ofProductions g.start g.productions).rules = g.rules :=
    rules_ofProductions h.distinct h.full
  have hmem : ∀ s, s ∈ (ofProductions g.start g.productions).vocabulary ↔ s ∈ g.vocabulary := by
    intro s
    rw [← OrderedSet.mem_toList, toList_vocabulary_ofProductions, hrules, OrderedMap.mem_keys,
      h.vocabulary]
  refine ⟨_, ofBytes?_text_of_isPrintable file h hcount, start_ofProductions .., hrules, ?_, ?_⟩
  · exact OrderedSet.sameMembers_of_forall_mem_iff hmem
  · rw [pool_ofProductions]
    rfl

/-! ### Grammars from files -/

theorem eq_of_fields {g g' : Grammar} (hstart : g.start = g'.start) (hrules : g.rules = g'.rules)
    (hvocabulary : g.vocabulary = g'.vocabulary) (hpool : g.pool = g'.pool) : g = g' := by
  cases g
  cases g'
  cases hstart
  cases hrules
  cases hvocabulary
  cases hpool
  rfl

theorem alternatives_ofProductions_ne_nil {start s : Symbol} {ps : List Production}
    (hs : s ∈ (ofProductions start ps).rules) : (ofProductions start ps).alternatives s ≠ [] := by
  obtain ⟨p, hp, rfl⟩ := List.mem_map.mp (mem_rules_ofProductions.mp hs)
  exact List.ne_nil_of_mem (mem_alternatives_ofProductions.mpr hp)

/-- Only the order in which the productions came is lost. -/
theorem ofProductions_productions (start : Symbol) (ps : List Production) :
    ofProductions start (ofProductions start ps).productions = ofProductions start ps := by
  have hrules : (ofProductions start (ofProductions start ps).productions).rules =
      (ofProductions start ps).rules :=
    rules_ofProductions (distinct_ofProductions start ps) fun _ => alternatives_ofProductions_ne_nil
  have hvocabulary : (ofProductions start (ofProductions start ps).productions).vocabulary =
      (ofProductions start ps).vocabulary := by
    refine OrderedSet.ext ?_
    rw [toList_vocabulary_ofProductions, toList_vocabulary_ofProductions, hrules]
  have hmem : ∀ p, p ∈ (ofProductions start ps).productions ↔ p ∈ ps :=
    fun p => mem_productions_iff.trans mem_alternatives_ofProductions
  have hpool : (ofProductions start (ofProductions start ps).productions).pool =
      (ofProductions start ps).pool := by
    rw [pool_ofProductions, pool_ofProductions]
    refine LetterPool.excluding_congr fun s => ?_
    simp only [List.mem_cons, List.mem_flatMap, hmem]
  exact eq_of_fields ((start_ofProductions ..).trans (start_ofProductions ..).symm) hrules
    hvocabulary hpool

theorem isPrintable_of_ofBytes? {file : String} {bytes : Option (List UInt8)}
    {start : Option Symbol} (h : GrammarFile.ofBytes? file bytes start = .ok g) : g.IsPrintable := by
  have hreadable := isReadable_of_ofBytes? h
  cases bytes with
  | none => cases h
  | some bs =>
    obtain ⟨rs, htells, s, _, _, rfl⟩ := GrammarFile.ofLines_eq_ok_iff.mp h
    refine ⟨?_, hreadable.markerAlone, ?_, ?_, distinct_ofProductions _ _, ?_,
      hreadable.start_mem⟩
    · rintro t (ht | ⟨lhs, rhs, hrhs, ht⟩)
      · obtain ⟨p, hp, rfl⟩ := List.mem_map.mp (mem_vocabulary_ofProductions.mp ht)
        obtain ⟨r, hr, hp⟩ := List.mem_flatMap.mp hp
        obtain ⟨rhs, _, rfl⟩ := List.mem_map.mp hp
        obtain ⟨line, hline⟩ := htells.exists_spelledBy hr
        exact hline.isLeftSide.1
      · obtain ⟨r, hr, hp⟩ := List.mem_flatMap.mp (mem_alternatives_ofProductions.mp hrhs)
        obtain ⟨rhs, hside, heq⟩ := List.mem_map.mp hp
        cases heq
        obtain ⟨line, hline⟩ := htells.exists_spelledBy hr
        obtain ⟨text, htext⟩ := hline.exists_listedIn
        exact (htext.isAlternative rhs hside).isAlpha ht
    · exact fun t => mem_vocabulary_ofProductions.trans mem_rules_ofProductions.symm
    · exact fun hmarker => hreadable.coherent.marker (hreadable.coherent.keys _ hmarker)
    · exact fun t ht => alternatives_ofProductions_ne_nil ht

theorem exists_eq_ofProductions_of_ofBytes? {file : String} {bytes : Option (List UInt8)}
    {start : Option Symbol} (h : GrammarFile.ofBytes? file bytes start = .ok g) :
    ∃ ps, g = ofProductions g.start ps := by
  obtain ⟨s, rs, rfl, _, _⟩ := GrammarFile.exists_rules_of_ofBytes? h
  rw [start_ofProductions]
  exact ⟨_, rfl⟩

/-! ### Converted grammars -/

theorem IsAlphabetic.of_keepsKinds {g' : Grammar} (h : g.IsAlphabetic) (hkeeps : g.KeepsKinds g') :
    g'.IsAlphabetic := by
  have hvocabulary : ∀ s ∈ g'.vocabulary, s.char.isAlpha = true := by
    intro s hs
    rcases hkeeps.vocabulary s hs with hold | hletter
    · exact h s (Or.inl hold)
    · exact (mem_alphabet_iff.mp (g.pool.sublist.subset hletter)).1
  rintro s (hs | hs)
  · exact hvocabulary s hs
  · rcases hkeeps.uses s hs with hnew | hold
    · exact hvocabulary s hnew
    · exact h s (Or.inr hold.1)

end Grammar

theorem keepsKinds_of_apply {o : Options} {t : Stage} {d d' : Draft} (hg : d.grammar.Coherent)
    (hstart : d.grammar.start ∈ d.grammar.rules) (happly : (t.apply o d).outcome = .ok d') :
    d.grammar.KeepsKinds d'.grammar := by
  cases t with
  | longRules =>
    obtain ⟨g₁, hg₁, hpure⟩ := Noted.outcome_bind_eq_ok_iff.mp happly
    cases hpure
    exact Grammar.keepsKinds_binarize hg hg₁
  | emptyRules =>
    cases happly
    exact Grammar.keepsKinds_dropEmpty hg
  | unitRules =>
    obtain ⟨g₃, hg₃, rfl⟩ := exists_of_map_eq_ok happly
    exact Grammar.keepsKinds_eliminateUnits hg hg₃
  | startRules =>
    obtain ⟨g₄, hg₄, hpure⟩ := Noted.outcome_bind_eq_ok_iff.mp happly
    cases hpure
    exact Grammar.keepsKinds_completeStart hg (hg.keys _ hstart) hg₄
  | terminalLifting =>
    obtain ⟨g₅, hg₅, hpure⟩ := Noted.outcome_bind_eq_ok_iff.mp happly
    cases hpure
    exact Grammar.keepsKinds_liftTerminals hg hg₅
  | uselessRules =>
    cases happly
    exact Grammar.keepsKinds_prune hg

namespace Grammar

theorem isAlphabetic_of_convert {g r : Grammar} {o : Options} (h : g.IsAlphabetic)
    (hg : g.IsReadable) (hr : (g.convert o).outcome = .ok r) : r.IsAlphabetic := by
  refine (Conversion.outcome_induction
    (P := fun g => g.IsAlphabetic ∧ g.Coherent ∧ g.start ∈ g.rules) ?_ (d := { grammar := g })
    ⟨h, hg.coherent, hg.start_mem⟩ hr).1
  rintro t d d' ⟨halpha, hcoherent, hstart⟩ happly
  have hkeeps := keepsKinds_of_apply hcoherent hstart happly
  exact ⟨halpha.of_keepsKinds hkeeps, hkeeps.coherent, hkeeps.start_mem hstart⟩

theorem markerAlone_of_isEmptyFree {g : Grammar} (hbinary : g.IsBinary) (hfree : g.IsEmptyFree) :
    g.MarkerAlone := by
  rw [isBinary_iff] at hbinary
  rw [isEmptyFree_iff] at hfree
  intro s rhs hrhs
  refine ⟨?_, fun hmarker => absurd hmarker (hfree s rhs hrhs)⟩
  rintro rfl
  have hlength := hbinary s [] hrhs
  simp at hlength

/-- Pruning leaves a nonterminal only if it has productions, but for the start symbol. -/
theorem isPrintable_of_convert {g r : Grammar} {o : Options} (h : g.IsPrintable)
    (hg : g.IsReadable) (ho : o.prune = true) (hr : (g.convert o).outcome = .ok r)
    (hstart : r.alternatives r.start ≠ []) : r.IsPrintable := by
  have hdone := Settled.of_convert_outcome hg hr
  have hmarkerAlone : r.MarkerAlone := markerAlone_of_isEmptyFree
    (hdone.binary (o.mem_stages_of_rank_lt (by decide)))
    (hdone.emptyFree (o.mem_stages_of_rank_lt (by decide)))
  have hfull : ∀ s ∈ r.rules, r.alternatives s ≠ [] := by
    intro s hs
    by_cases hne : s = r.start
    · rw [hne]
      exact hstart
    · exact hdone.full (o.mem_stages_of_rank_lt (by decide)) s hs hne
  obtain ⟨_, g', hsettled, hprune⟩ := exists_prune_of_convert hg ho hr
  have hvocabulary : ∀ s, s ∈ r.vocabulary ↔ s ∈ r.rules := by
    intro s
    refine ⟨fun hs => ?_, hdone.coherent.keys s⟩
    rw [hprune] at hs ⊢
    exact (mem_vocabulary_prune.mp hs).2
  exact ⟨isAlphabetic_of_convert h.alphabetic hg hr, hmarkerAlone, hvocabulary,
    fun hmarker => hdone.coherent.marker (hdone.coherent.keys _ hmarker),
    distinct_of_convert h.distinct hr, hfull, hdone.start_mem⟩

/-- Reading undoes printing for all printable grammars.  The grammar of a file comes back as it was, and
the result of a conversion with pruning comes back if its start symbol has a production. -/
theorem readsBack_text (file : String) :
    (∀ g : Grammar, g.IsPrintable → 3 ≤ g.productionCount → g.ReadsBack file) ∧
    (∀ source bytes start g, GrammarFile.ofBytes? source bytes start = .ok g →
      3 ≤ g.productionCount → GrammarFile.ofBytes? file
        (some (GrammarFile.encodeText g.text.toList)) (some g.start) = .ok g) ∧
    ∀ source bytes start g, GrammarFile.ofBytes? source bytes start = .ok g →
      ∀ o : Options, o.prune = true → ∀ r, (g.convert o).outcome = .ok r →
        r.alternatives r.start ≠ [] → 3 ≤ r.productionCount → r.ReadsBack file := by
  refine ⟨fun g => readsBack_of_isPrintable file, ?_, ?_⟩
  · intro source bytes start g h hcount
    rw [ofBytes?_text_of_isPrintable file (isPrintable_of_ofBytes? h) hcount]
    obtain ⟨ps, hps⟩ := exists_eq_ofProductions_of_ofBytes? h
    rw [hps, start_ofProductions, ofProductions_productions]
  · intro source bytes start g h o ho r hr hstart hcount
    exact readsBack_of_isPrintable file
      (isPrintable_of_convert (isPrintable_of_ofBytes? h) (isReadable_of_ofBytes? h) ho hr hstart)
      hcount

theorem readsBack_text_sample :
    GrammarFile.ofBytes? "again" (some (GrammarFile.encodeText sampleGrammar.text.toList))
      (some sampleGrammar.start) = .ok sampleGrammar ∧
    ∃ r, (sampleGrammar.convert ⟨.whileEmpty, true, true⟩).outcome = .ok r ∧
      r.ReadsBack "again" := by
  obtain ⟨_, hread, hconverted⟩ := readsBack_text "again"
  obtain ⟨r, hr⟩ := exists_of_toOption_isSome
    (x := (sampleGrammar.convert ⟨.whileEmpty, true, true⟩).outcome) (by decide +kernel)
  have hstart := of_decide_eq_true
    (eq_of_map_toOption hr (fun r => decide (r.alternatives r.start ≠ [])) (by decide +kernel))
  have hcount := of_decide_eq_true
    (eq_of_map_toOption hr (fun r => decide (3 ≤ r.productionCount)) (by decide +kernel))
  refine ⟨hread _ _ _ _ ofBytes?_sampleText (by decide +kernel), r, hr, ?_⟩
  exact hconverted _ _ _ _ ofBytes?_sampleText _ rfl r hr hstart hcount

end Grammar

end ChomskyForm
