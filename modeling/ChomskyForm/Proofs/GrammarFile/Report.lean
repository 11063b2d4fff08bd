import ChomskyForm.Proofs.GrammarFile.Fault
import ChomskyForm.Proofs.GrammarFile.Reader

/-!
# Files and their errors

A file with faulty lines is answered with one error for each of them, in their order, and the file is
not looked at as a whole (`Reports`).  Lines are counted before any is skipped; a line that is not text
has no number of its own.  Otherwise there are two things that can be wrong with the file as a whole
(`FaultyWhole`).
-/

namespace ChomskyForm.GrammarFile

/-! ### Errors of lines -/

/-- Blank lines and comments. -/
def IsSkipped (line : List Char) : Prop := IsBlankText line ∨ line.head? = some ';'

/-- The errors of the lines, which are numbered from `n` on. -/
inductive Reports (file : String) : Nat → List (Option (List Char)) → List FileError → Prop
  | nil {n : Nat} : Reports file n [] []
  | unreadable {n : Nat} {lines : List (Option (List Char))} {es : List FileError}
      (h : Reports file (n + 1) lines es) :
      Reports file n (none :: lines) (⟨{ file }, .unreadable .notUtf8⟩ :: es)
  | skipped {n : Nat} {line : List Char} {lines : List (Option (List Char))} {es : List FileError}
      (hline : IsSkipped line) (h : Reports file (n + 1) lines es) :
      Reports file n (some line :: lines) es
  | sound {n : Nat} {r : Rule} {line : List Char} {lines : List (Option (List Char))}
      {es : List FileError} (hline : r.SpelledBy line) (h : Reports file (n + 1) lines es) :
      Reports file n (some line :: lines) es
  | faulty {n : Nat} {line : List Char} {fault : Fault} {lines : List (Option (List Char))}
      {es : List FileError} (hline : ¬IsSkipped line) (hfault : Rule.FaultyBy line fault)
      (h : Reports file (n + 1) lines es) :
      Reports file n (some line :: lines) (⟨{ file, line := some n }, fault⟩ :: es)

/-- The errors of the lines as the reader finds them. -/
def errorsFrom (file : String) (n : Nat) (lines : List (Option (List Char))) : List FileError :=
  errors ((lines.zipIdx n).filterMap (readLine file))

theorem errorsFrom_none_cons {file : String} {n : Nat} {lines : List (Option (List Char))} :
    errorsFrom file n (none :: lines) =
      ⟨{ file }, .unreadable .notUtf8⟩ :: errorsFrom file (n + 1) lines := rfl

theorem errorsFrom_cons_of_isSkipped {file : String} {n : Nat} {line : List Char}
    {lines : List (Option (List Char))} (h : IsSkipped line) :
    errorsFrom file n (some line :: lines) = errorsFrom file (n + 1) lines := by
  have hline : readLine file (some line, n) = none := by
    rw [readLine, isRuleLine_eq_false_iff.mpr h]
    rfl
  rw [errorsFrom, List.zipIdx_cons, List.filterMap_cons_none hline]
  rfl

theorem readLine_of_not_isSkipped {file : String} {n : Nat} {line : List Char}
    (h : ¬IsSkipped line) : readLine file (some line, n) =
      some ((Rule.ofLine line).mapError fun fault => ⟨{ file, line := some n }, fault⟩) := by
  rw [readLine, if_pos]
  rwa [← Bool.not_eq_false, isRuleLine_eq_false_iff]

theorem errorsFrom_cons_of_ok {file : String} {n : Nat} {line : List Char} {r : Rule}
    {lines : List (Option (List Char))} (h : Rule.ofLine line = .ok r) :
    errorsFrom file n (some line :: lines) = errorsFrom file (n + 1) lines := by
  by_cases hskip : IsSkipped line
  · exact errorsFrom_cons_of_isSkipped hskip
  · rw [errorsFrom, List.zipIdx_cons, List.filterMap_cons_some (readLine_of_not_isSkipped hskip), h]
    rfl

theorem errorsFrom_cons_of_error {file : String} {n : Nat} {line : List Char} {fault : Fault}
    {lines : List (Option (List Char))} (hskip : ¬IsSkipped line)
    (h : Rule.ofLine line = .error fault) : errorsFrom file n (some line :: lines) =
      ⟨{ file, line := some n }, fault⟩ :: errorsFrom file (n + 1) lines := by
  rw [errorsFrom, List.zipIdx_cons, List.filterMap_cons_some (readLine_of_not_isSkipped hskip), h]
  rfl

theorem reports_errorsFrom (file : String) (n : Nat) (lines : List (Option (List Char))) :
    Reports file n lines (errorsFrom file n lines) := by
  induction lines generalizing n with
  | nil => exact .nil
  | cons line lines ih =>
    match line with
    | none => exact .unreadable (ih (n + 1))
    | some line =>
      by_cases hskip : IsSkipped line
      · rw [errorsFrom_cons_of_isSkipped hskip]
        exact .skipped hskip (ih (n + 1))
      · cases hread : Rule.ofLine line with
        | ok r =>
          rw [errorsFrom_cons_of_ok hread]
          exact .sound (Rule.ofLine_eq_ok_iff.mp hread) (ih (n + 1))
        | error fault =>
          have hblank : ¬IsBlankText line := fun hblank => hskip (Or.inl hblank)
          rw [errorsFrom_cons_of_error hskip hread]
          exact .faulty hskip ((Rule.ofLine_eq_error_iff hblank).mp hread) (ih (n + 1))

theorem Reports.eq_errorsFrom {file : String} {n : Nat} {lines : List (Option (List Char))}
    {es : List FileError} (h : Reports file n lines es) : es = errorsFrom file n lines := by
  induction h with
  | nil => rfl
  | unreadable _ ih => rw [errorsFrom_none_cons, ← ih]
  | skipped hline _ ih => rw [errorsFrom_cons_of_isSkipped hline, ← ih]
  | sound hline _ ih => rw [errorsFrom_cons_of_ok (Rule.ofLine_eq_ok_iff.mpr hline), ← ih]
  | faulty hline hfault _ ih =>
    have hblank := fun hblank => hline (Or.inl hblank)
    rw [errorsFrom_cons_of_error hline ((Rule.ofLine_eq_error_iff hblank).mpr hfault), ← ih]

theorem Reports.ne_blankLine {file : String} {n : Nat} {lines : List (Option (List Char))}
    {es : List FileError} (h : Reports file n lines es) : ∀ e ∈ es, e.fault ≠ .blankLine := by
  induction h with
  | nil => exact fun e he => absurd he List.not_mem_nil
  | unreadable _ ih => exact List.forall_mem_cons.mpr ⟨Fault.noConfusion, ih⟩
  | skipped _ _ ih => exact ih
  | sound _ _ ih => exact ih
  | faulty _ hfault _ ih => exact List.forall_mem_cons.mpr ⟨hfault.ne_blankLine, ih⟩

/-! ### Errors of whole files -/

/-- What is wrong with a file of these rules as a whole.  Where there is no rule, there may be no start
symbol to look for. -/
structure FaultyWhole (start : Option Symbol) (rs : List Rule) (few undefined : Option Fault) :
    Prop where
  few_iff : ∀ fault, few = some fault ↔ (rs.flatMap Rule.productions).length < 3 ∧
    fault = .tooFewRules (rs.flatMap Rule.productions).length
  undefined_iff : ∀ fault, undefined = some fault ↔ ∃ s,
    (start <|> rs.head?.map Rule.lhs) = some s ∧ (∀ r ∈ rs, r.lhs ≠ s) ∧ fault = .undefinedStart s

theorem FaultyWhole.unique {start : Option Symbol} {rs : List Rule}
    {few undefined few' undefined' : Option Fault} (h : FaultyWhole start rs few undefined)
    (h' : FaultyWhole start rs few' undefined') : few = few' ∧ undefined = undefined' := by
  constructor
  · exact Option.ext fun fault => (h.few_iff fault).trans (h'.few_iff fault).symm
  · exact Option.ext fun fault => (h.undefined_iff fault).trans (h'.undefined_iff fault).symm

def wholeErrors (file : String) (few undefined : Option Fault) : List FileError :=
  (few.toList ++ undefined.toList).map fun fault => ⟨{ file }, fault⟩

theorem FaultyWhole.ne_blankLine {file : String} {start : Option Symbol} {rs : List Rule}
    {few undefined : Option Fault} (h : FaultyWhole start rs few undefined) :
    ∀ e ∈ wholeErrors file few undefined, e.fault ≠ .blankLine := by
  intro e he
  obtain ⟨fault, hfault, rfl⟩ := List.mem_map.mp he
  rintro rfl
  rcases List.mem_append.mp hfault with hfew | hundefined
  · obtain ⟨_, hcontra⟩ := (h.few_iff .blankLine).mp (Option.mem_toList.mp hfew)
    cases hcontra
  · obtain ⟨_, _, _, hcontra⟩ := (h.undefined_iff .blankLine).mp (Option.mem_toList.mp hundefined)
    cases hcontra

theorem exists_faultyWhole (start : Option Symbol) (rs : List Rule) : ∃ few undefined,
    FaultyWhole start rs few undefined ∧
      wholeFaults rs (start <|> rs.head?.map Rule.lhs) = few.toList ++ undefined.toList := by
  obtain ⟨few, hfew, hfewList⟩ : ∃ few : Option Fault,
      (∀ fault, few = some fault ↔ (rs.flatMap Rule.productions).length < 3 ∧
        fault = .tooFewRules (rs.flatMap Rule.productions).length) ∧
      few.toList = if (rs.flatMap Rule.productions).length < Fault.minRules then
        [.tooFewRules (rs.flatMap Rule.productions).length] else [] := by
    by_cases hcount : (rs.flatMap Rule.productions).length < 3
    · refine ⟨some (.tooFewRules (rs.flatMap Rule.productions).length), fun fault => ?_, ?_⟩
      · rw [and_iff_right hcount, Option.some.injEq, eq_comm]
      · rw [Fault.minRules, if_pos hcount, Option.toList_some]
    · refine ⟨none, fun fault => ?_, ?_⟩
      · simp only [hcount, reduceCtorEq, false_and]
      · rw [Fault.minRules, if_neg hcount, Option.toList_none]
  cases hstart : start <|> rs.head?.map Rule.lhs with
  | none =>
    refine ⟨few, none, ⟨hfew, ?_⟩, ?_⟩
    · simp only [hstart, reduceCtorEq, false_and, exists_false, implies_true]
    · simp only [wholeFaults, hfewList, Option.toList_none]
  | some s =>
    by_cases hleft : ∃ r ∈ rs, r.lhs = s
    · refine ⟨few, none, ⟨hfew, ?_⟩, ?_⟩
      · simp only [hstart, Option.some.injEq, reduceCtorEq, exists_eq_left', false_iff]
        rintro fault ⟨hnone, _⟩
        obtain ⟨r, hr, hs⟩ := hleft
        exact hnone r hr hs
      · have hany : rs.any (·.lhs = s) = true := by simpa using hleft
        rw [wholeFaults, hfewList, if_pos hany]
        rfl
    · refine ⟨few, some (.undefinedStart s), ⟨hfew, ?_⟩, ?_⟩
      · have hnone : ∀ r ∈ rs, r.lhs ≠ s := fun r hr hs => hleft ⟨r, hr, hs⟩
        intro fault
        simp only [hstart, Option.some.injEq, exists_eq_left', and_iff_right hnone, eq_comm]
      · have hany : ¬rs.any (·.lhs = s) = true := by simpa using hleft
        rw [wholeFaults, hfewList, if_neg hany]
        rfl

theorem eq_nil_of_start_eq_none {start : Option Symbol} {rs : List Rule}
    (h : (start <|> rs.head?.map Rule.lhs) = none) : rs = [] := by
  cases start with
  | none => exact List.head?_eq_none_iff.mp (Option.map_eq_none_iff.mp h)
  | some s => cases h

theorem assemble_eq_error_iff {file : String} {rs : List Rule} {start : Option Symbol}
    {es : List FileError} : assemble file rs start = .error es ↔
      es ≠ [] ∧ ∃ few undefined, FaultyWhole start rs few undefined ∧
        es = wholeErrors file few undefined := by
  obtain ⟨few, undefined, hwhole, hfaults⟩ := exists_faultyWhole start rs
  have hexists : (∃ few undefined, FaultyWhole start rs few undefined ∧
      es = wholeErrors file few undefined) ↔ es = wholeErrors file few undefined := by
    constructor
    · rintro ⟨few', undefined', hwhole', rfl⟩
      obtain ⟨rfl, rfl⟩ := hwhole.unique hwhole'
      rfl
    · exact fun h => ⟨few, undefined, hwhole, h⟩
  rw [hexists, wholeErrors, ← hfaults, assemble]
  cases hlist : wholeFaults rs (start <|> rs.head?.map Rule.lhs) with
  | nil =>
    -- without a start symbol there is no rule, and that is too few
    cases hstart : start <|> rs.head?.map Rule.lhs with
    | none =>
      rw [hstart, eq_nil_of_start_eq_none hstart] at hlist
      cases hlist
    | some s => simp
  | cons fault faults =>
    simp only [Except.error.injEq, List.map_cons]
    constructor
    · rintro rfl
      exact ⟨List.cons_ne_nil _ _, rfl⟩
    · exact fun h => h.2.symm

theorem ofLines_eq_error_iff {file : String} {lines : List (Option (List Char))}
    {start : Option Symbol} {es : List FileError} :
    ofLines file lines start = .error es ↔ es ≠ [] ∧ (Reports file 1 lines es ∨
      ∃ rs few undefined, Tells lines rs ∧ FaultyWhole start rs few undefined ∧
        es = wholeErrors file few undefined) := by
  have hreports : ∀ {es'}, Reports file 1 lines es' ↔ es' = errors (readLines file lines) := by
    intro es'
    constructor
    · exact Reports.eq_errorsFrom
    · rintro rfl
      exact reports_errorsFrom file 1 lines
  rw [hreports, ofLines]
  simp only [tells_iff_readLines file]
  cases herrors : errors (readLines file lines) with
  | nil =>
    simp only [assemble_eq_error_iff, true_and]
    constructor
    · rintro ⟨hne, few, undefined, hwhole, hes⟩
      exact ⟨hne, Or.inr ⟨_, few, undefined, rfl, hwhole, hes⟩⟩
    · rintro ⟨hne, hnil | ⟨_, few, undefined, rfl, hwhole, hes⟩⟩
      · exact absurd hnil hne
      · exact ⟨hne, few, undefined, hwhole, hes⟩
  | cons e rest =>
    simp only [Except.error.injEq, reduceCtorEq, false_and, exists_false, or_false]
    constructor
    · rintro rfl
      exact ⟨List.cons_ne_nil _ _, rfl⟩
    · exact fun h => h.2.symm

/-! ### Lines that come in -/

/-- The error as it is once a line has come in after the first `k` lines. -/
def movedAfter (k : Nat) (e : FileError) : FileError :=
  { e with location := { e.location with
      line := e.location.line.map fun n => if k < n then n + 1 else n } }

theorem readLine_movedAfter {file : String} {k n m : Nat} {line : Option (List Char)}
    (h : (if k < n then n + 1 else n) = m) :
    (readLine file (line, n)).map (Except.mapError (movedAfter k)) = readLine file (line, m) := by
  subst h
  cases line with
  | none => rfl
  | some line =>
    simp only [readLine]
    split
    · cases Rule.ofLine line <;> rfl
    · rfl

theorem readLines_inserted {file : String} {before after : List (Option (List Char))}
    {line : List Char} (h : IsSkipped line) : readLines file (before ++ some line :: after) =
      (readLines file (before ++ after)).map (Except.mapError (movedAfter before.length)) := by
  have hskip : ∀ n, readLine file (some line, n) = none := by
    intro n
    rw [readLine, isRuleLine_eq_false_iff.mpr h]
    rfl
  have hbefore : ∀ x ∈ before.zipIdx 1, readLine file x =
      (readLine file x).map (Except.mapError (movedAfter before.length)) := by
    rintro ⟨l, n⟩ hx
    have hn := List.snd_lt_add_of_mem_zipIdx hx
    rw [readLine_movedAfter (if_neg (by omega))]
  have hafter : ∀ x ∈ after.zipIdx (1 + before.length), readLine file (x.1, x.2 + 1) =
      (readLine file x).map (Except.mapError (movedAfter before.length)) := by
    rintro ⟨l, n⟩ hx
    have hn := List.le_snd_of_mem_zipIdx hx
    rw [readLine_movedAfter (if_pos (by omega))]
  rw [readLines, readLines, List.zipIdx_append, List.zipIdx_append, List.zipIdx_cons,
    List.filterMap_append, List.filterMap_append, List.filterMap_cons_none (hskip _),
    @List.zipIdx_succ _ after (1 + before.length), List.filterMap_map, List.map_append,
    List.map_filterMap, List.map_filterMap]
  exact congrArg₂ _ (List.filterMap_congr hbefore) (List.filterMap_congr hafter)

theorem errors_map_mapError {read : List (Except FileError Rule)} {f : FileError → FileError} :
    errors (read.map (Except.mapError f)) = (errors read).map f := by
  rw [errors, errors, List.filterMap_map, List.map_filterMap]
  refine List.filterMap_congr fun x _ => ?_
  cases x <;> rfl

theorem rules_map_mapError {read : List (Except FileError Rule)} {f : FileError → FileError} :
    rules (read.map (Except.mapError f)) = rules read := by
  rw [rules, rules, List.filterMap_map]
  refine List.filterMap_congr fun x _ => ?_
  cases x <;> rfl

theorem map_movedAfter_wholeErrors {file : String} {few undefined : Option Fault} {k : Nat} :
    (wholeErrors file few undefined).map (movedAfter k) = wholeErrors file few undefined := by
  rw [wholeErrors, List.map_map]
  rfl

theorem mapError_movedAfter_assemble {file : String} {rs : List Rule} {start : Option Symbol}
    {k : Nat} : (assemble file rs start).mapError (List.map (movedAfter k)) =
      assemble file rs start := by
  cases h : assemble file rs start with
  | ok g => rfl
  | error es =>
    obtain ⟨_, few, undefined, _, rfl⟩ := assemble_eq_error_iff.mp h
    exact congrArg _ map_movedAfter_wholeErrors

theorem ofLines_inserted {file : String} {start : Option Symbol}
    {before after : List (Option (List Char))} {line : List Char} (h : IsSkipped line) :
    ofLines file (before ++ some line :: after) start =
      (ofLines file (before ++ after) start).mapError (List.map (movedAfter before.length)) := by
  simp only [ofLines, readLines_inserted h, errors_map_mapError, rules_map_mapError]
  cases errors (readLines file (before ++ after)) with
  | nil => exact mapError_movedAfter_assemble.symm
  | cons e es => rfl

/-- The reader answers a file either with one error for each of its faulty lines, in their order, or
else with what is wrong with the whole, but never with the fault of a blank line.  A line that is
skipped can come in anywhere. -/
theorem ofBytes?_eq_error_iff {file : String} {bytes : List UInt8} {start : Option Symbol} :
    (∀ es, ofBytes? file (some bytes) start = .error es ↔
      es ≠ [] ∧ (Reports file 1 (linesOfBytes bytes) es ∨
        ∃ rs few undefined, Tells (linesOfBytes bytes) rs ∧
          FaultyWhole start rs few undefined ∧ es = wholeErrors file few undefined)) ∧
    (∀ es, ofBytes? file (some bytes) start = .error es → ∀ e ∈ es, e.fault ≠ .blankLine) ∧
    ∀ bytes' before line after, IsSkipped line → linesOfBytes bytes = before ++ after →
      linesOfBytes bytes' = before ++ some line :: after →
        ofBytes? file (some bytes') start =
          (ofBytes? file (some bytes) start).mapError (List.map (movedAfter before.length)) := by
  refine ⟨fun es => ofLines_eq_error_iff, ?_, ?_⟩
  · intro es h
    obtain ⟨_, hreports | ⟨rs, few, undefined, _, hwhole, rfl⟩⟩ := ofLines_eq_error_iff.mp h
    · exact hreports.ne_blankLine
    · exact hwhole.ne_blankLine
  · intro bytes' before line after hline hlines hlines'
    rw [ofBytes?, ofBytes?, hlines, hlines']
    exact ofLines_inserted hline

/-! A file with four faulty lines, one of which is not text, and the same file with a comment after the
first line.  In the last line the left side is faulty as well, but the dash comes first. -/

def faultyBytes : List UInt8 :=
  encodeText "S -> AB |\n".toList ++ 0xFF :: 0x0A :: encodeText "-> a\nAB - b\n".toList

def commentedBytes : List UInt8 :=
  encodeText "S -> AB |\n; comment\n".toList ++ 0xFF :: 0x0A :: encodeText "-> a\nAB - b\n".toList

def faultyErrors : List FileError :=
  [⟨⟨"faulty", some 1⟩, .missingRightSide⟩, ⟨⟨"faulty", none⟩, .unreadable .notUtf8⟩,
    ⟨⟨"faulty", some 3⟩, .missingLeftSide⟩, ⟨⟨"faulty", some 4⟩, .malformedArrow⟩]

theorem ofBytes?_eq_error_iff_commented :
    ofBytes? "faulty" (some faultyBytes) none = .error faultyErrors ∧
    ofBytes? "faulty" (some commentedBytes) none =
      .error [⟨⟨"faulty", some 1⟩, .missingRightSide⟩, ⟨⟨"faulty", none⟩, .unreadable .notUtf8⟩,
        ⟨⟨"faulty", some 4⟩, .missingLeftSide⟩, ⟨⟨"faulty", some 5⟩, .malformedArrow⟩] := by
  have herrors : errors (readLines "faulty" (linesOfBytes faultyBytes)) = faultyErrors := by
    decide +kernel
  have hfaulty : ofBytes? "faulty" (some faultyBytes) none = .error faultyErrors := by
    rw [ofBytes?, ofLines, herrors]
    rfl
  have hcommented := (@ofBytes?_eq_error_iff "faulty" faultyBytes none).2.2 commentedBytes
    [some "S -> AB |".toList] "; comment".toList
    [none, some "-> a".toList, some "AB - b".toList] (Or.inr rfl) (by decide +kernel)
    (by decide +kernel)
  rw [hfaulty] at hcommented
  exact ⟨hfaulty, hcommented⟩

end ChomskyForm.GrammarFile
