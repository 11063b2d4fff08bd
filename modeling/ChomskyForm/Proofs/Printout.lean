import ChomskyForm.Program
import ChomskyForm.Proofs.CommandLine
import ChomskyForm.Proofs.Conversion.Ending

/-!
# What a run prints

A conversion goes through all of its stages, or up to the first that fails
(`Conversion.exists_passes`).  Both ends are visible in what is printed: the grammar after every stage
that was finished, or nothing but the result.  Which of the two is asked for changes neither the exit
status nor the errors (`run_finalOnly`).
-/

namespace ChomskyForm

namespace Conversion

variable {o : Options}

/-- A run passes all of its stages, or those before the first that fails. -/
theorem exists_passes (o : Options) (stages : List Stage) (d : Draft) :
    (∃ shown d', Passes o stages d shown d') ∨
      ∃ done t rest shown d' e, stages = done ++ t :: rest ∧ Passes o done d shown d' ∧
        (t.apply o d').outcome = .error e := by
  induction stages generalizing d with
  | nil => exact .inl ⟨[], d, .nil d⟩
  | cons t stages ih =>
    cases happly : (t.apply o d).outcome with
    | error e => exact .inr ⟨[], t, stages, [], d, e, rfl, .nil d, happly⟩
    | ok d₁ =>
      rcases ih d₁ with ⟨shown, d', h⟩ | ⟨done, t', rest, shown, d', e, rfl, h, he⟩
      · exact .inl ⟨_, d', .cons happly h⟩
      · exact .inr ⟨t :: done, t', rest, _, d', e, rfl, .cons happly h, he⟩

/-- The last grammar on the way is the one that is left in the end. -/
theorem Passes.getLast?_shown {stages : List Stage} {d d' : Draft} {shown : List (Stage × Grammar)}
    (h : Passes o stages d shown d') (hne : stages ≠ []) :
    shown.getLast?.map Prod.snd = some d'.grammar := by
  induction h with
  | nil d => exact absurd rfl hne
  | cons first rest ih =>
    cases rest with
    | nil d => rfl
    | cons first' rest' =>
      rw [List.getLast?_cons_cons]
      exact ih (List.cons_ne_nil _ _)

end Conversion

theorem Options.stages_ne_nil (o : Options) : o.stages ≠ [] := by
  unfold stages
  exact List.cons_ne_nil _ _

namespace Program

open CommandLine (Settings ofArguments)

/-- The grammars after some stages, each below an empty line and the heading of its stage. -/
def blocks (shown : List (Stage × Grammar)) : String :=
  String.join (shown.map fun (stage, g) => "\n" ++ stage.heading ++ "\n" ++ g.text)

variable {files : String → Option (List UInt8)} {s : Settings} {g : Grammar} {d : Draft}
  {shown : List (Stage × Grammar)}

theorem printed_of_shown {c : Conversion} (h : c.shown = shown) : printed false c = blocks shown := by
  unfold printed blocks block
  rw [h]
  rfl

theorem convertFile_of_error {es : List FileError}
    (h : GrammarFile.ofBytes? s.file (files s.file) s.start = .error es) :
    convertFile files s = { exitCode := 1, err := String.join (es.map (errorLine ·.display)) } := by
  unfold convertFile
  rw [h]

theorem convertFile_of_passes (h : GrammarFile.ofBytes? s.file (files s.file) s.start = .ok g)
    (hpasses : Conversion.Passes s.options s.options.stages { grammar := g } shown d) :
    convertFile files s =
      { exitCode := 0, out := if s.finalOnly then d.grammar.text else blocks shown } := by
  obtain ⟨hshown, hout⟩ : (g.convert s.options).shown = shown ∧
      (g.convert s.options).outcome = .ok d.grammar := hpasses.finished
  unfold convertFile
  rw [h]
  dsimp only
  rw [hout]
  cases s.finalOnly with
  | false => rw [printed_of_shown hshown]; rfl
  | true => rw [printed, hout]; rfl

theorem convertFile_of_failed {done rest : List Stage} {t : Stage} {e : ConversionError}
    (h : GrammarFile.ofBytes? s.file (files s.file) s.start = .ok g)
    (hstages : s.options.stages = done ++ t :: rest)
    (hpasses : Conversion.Passes s.options done { grammar := g } shown d)
    (herror : (t.apply s.options d).outcome = .error e) :
    convertFile files s =
      { exitCode := 1, out := if s.finalOnly then "" else blocks shown,
        err := errorLine (Location.report { file := s.file } e.message) } := by
  have hfailed := hpasses.failed herror rest
  rw [← hstages] at hfailed
  obtain ⟨hshown, hout⟩ : (g.convert s.options).shown = shown ∧
      (g.convert s.options).outcome = .error e := hfailed
  unfold convertFile
  rw [h]
  dsimp only
  rw [hout]
  cases s.finalOnly with
  | false => rw [printed_of_shown hshown]; rfl
  | true => rw [printed, hout]; rfl

/-- To print the final grammar alone hides the other ones and does nothing else, wherever the settings
come from.  What is logged on request is no part of `err`. -/
theorem convertFile_finalOnly (files : String → Option (List UInt8)) (s : Settings) :
    let verbose := convertFile files { s with finalOnly := false }
    let brief := convertFile files { s with finalOnly := true }
    brief.exitCode = verbose.exitCode ∧ brief.err = verbose.err ∧
      match GrammarFile.ofBytes? s.file (files s.file) s.start with
      | .error _ => verbose.exitCode = 1 ∧ verbose.out = "" ∧ brief.out = ""
      | .ok g =>
        ∃ shown d, verbose.out = blocks shown ∧
          ((Conversion.Passes s.options s.options.stages { grammar := g } shown d ∧
              verbose.exitCode = 0 ∧
              ∃ stage, shown.getLast? = some (stage, d.grammar) ∧ brief.out = d.grammar.text) ∨
            ∃ done failing rest e, s.options.stages = done ++ failing :: rest ∧
              Conversion.Passes s.options done { grammar := g } shown d ∧
              (failing.apply s.options d).outcome = .error e ∧
              verbose.exitCode = 1 ∧ brief.out = "") := by
  intro verbose brief
  cases hread : GrammarFile.ofBytes? s.file (files s.file) s.start with
  | error es =>
    have hverbose : verbose = _ := convertFile_of_error hread
    have hbrief : brief = _ := convertFile_of_error hread
    rw [hverbose, hbrief]
    exact ⟨rfl, rfl, rfl, rfl, rfl⟩
  | ok g =>
    rcases Conversion.exists_passes s.options s.options.stages { grammar := g } with
      ⟨shown, d, hpasses⟩ | ⟨done, t, rest, shown, d, e, hstages, hpasses, herror⟩
    · -- what is returned in the end has been shown before
      have hlast := hpasses.getLast?_shown s.options.stages_ne_nil
      obtain ⟨⟨stage, final⟩, hmem, rfl⟩ := Option.map_eq_some_iff.mp hlast
      have hverbose : verbose = _ := convertFile_of_passes hread hpasses
      have hbrief : brief = _ := convertFile_of_passes hread hpasses
      rw [hverbose, hbrief]
      exact ⟨rfl, rfl, shown, d, rfl, .inl ⟨hpasses, rfl, stage, hmem, rfl⟩⟩
    · have hverbose : verbose = _ := convertFile_of_failed hread hstages hpasses herror
      have hbrief : brief = _ := convertFile_of_failed hread hstages hpasses herror
      rw [hverbose, hbrief]
      exact ⟨rfl, rfl, shown, d, rfl, .inr ⟨done, t, rest, e, hstages, hpasses, herror, rfl, rfl⟩⟩

theorem run_of_ofArguments (files : String → Option (List UInt8)) {arguments : List String}
    (h : ofArguments arguments = .ok s) : run files arguments = convertFile files s := by
  unfold run
  rw [h]

/-- To ask for the final grammar alone on the command line has that effect and no other.  What is logged
on request is no part of `err`. -/
theorem run_finalOnly (files : String → Option (List UInt8)) {arguments : List String} {s : Settings}
    (hs : ofArguments arguments = .ok s) (hverbose : s.finalOnly = false) :
    (∀ spelling ∈ ["-f", "--final-only"],
      ofArguments (spelling :: arguments) = .ok { s with finalOnly := true }) ∧
    ∀ brief, ofArguments brief = .ok { s with finalOnly := true } →
      (run files brief).exitCode = (run files arguments).exitCode ∧
      (run files brief).err = (run files arguments).err ∧
      match GrammarFile.ofBytes? s.file (files s.file) s.start with
      | .error _ =>
        (run files arguments).exitCode = 1 ∧ (run files arguments).out = "" ∧
          (run files brief).out = ""
      | .ok g =>
        ∃ shown d, (run files arguments).out = blocks shown ∧
          ((Conversion.Passes s.options s.options.stages { grammar := g } shown d ∧
              (run files arguments).exitCode = 0 ∧
              ∃ stage, shown.getLast? = some (stage, d.grammar) ∧
                (run files brief).out = d.grammar.text) ∨
            ∃ done failing rest e, s.options.stages = done ++ failing :: rest ∧
              Conversion.Passes s.options done { grammar := g } shown d ∧
              (failing.apply s.options d).outcome = .error e ∧
              (run files arguments).exitCode = 1 ∧ (run files brief).out = "") := by
  refine ⟨fun spelling hspelling => ?_, fun brief hbrief => ?_⟩
  · exact CommandLine.ofArguments_finalOnly_cons hs hverbose (by simpa using hspelling)
  have hsame : { s with finalOnly := false } = s := by rw [← hverbose]
  have h := convertFile_finalOnly files s
  rw [hsame] at h
  rw [run_of_ofArguments files hs, run_of_ofArguments files hbrief]
  exact h

/-- A file with one grammar in it. -/
def pairsFile (name : String) : Option (List UInt8) :=
  if name = "pairs" then some (GrammarFile.encodeText "S -> aSb\nS -> ab\nA -> c\n".toList) else none

/-- A file whose grammar uses every letter, so that no terminal can be lifted. -/
def crowdedFile (name : String) : Option (List UInt8) :=
  if name = "crowded" then
    some (GrammarFile.encodeText
      ("S -> AB|CD|EF|GH|IJ|KL|MN|OP|QR|TU|VW|XY|Za\n" ++
        "S -> bc|df|gh|ij|kl|mn|op|qr|st|uv|wx|yz\n").toList)
  else none

theorem run_finalOnly_pairs :
    (ofArguments ["--final-only", "--prune", "pairs"] =
        .ok ⟨"pairs", none, true, ⟨.whileEmpty, false, true⟩⟩ ∧
      (run pairsFile ["--final-only", "--prune", "pairs"]).exitCode = 0 ∧
      (run pairsFile ["--final-only", "--prune", "pairs"]).out = "S->aB\nS->ab\nB->Sb\n" ∧
      (run pairsFile ["--prune", "pairs"]).out =
        "\nRules after large rules removal\nS->aB\nS->ab\nA->c\nB->Sb\n" ++
        "\nRules after empty rules removal\nS->aB\nS->ab\nA->c\nB->Sb\n" ++
        "\nRules after short rules removal\nS->aB\nS->ab\nA->c\nB->Sb\n" ++
        "\nFinal rules\nS->aB\nS->ab\nA->c\nB->Sb\n" ++
        "\nRules after useless rules removal\nS->aB\nS->ab\nB->Sb\n" ∧
      ∃ shown, (run pairsFile ["--prune", "pairs"]).out = blocks shown ∧
        shown.map Prod.fst = [.longRules, .emptyRules, .unitRules, .startRules, .uselessRules] ∧
        shown.getLast?.map (·.2.text) = some "S->aB\nS->ab\nB->Sb\n") ∧
    (run crowdedFile ["-f", "--lift-terminals", "crowded"]).exitCode = 1 ∧
      (run crowdedFile ["-f", "--lift-terminals", "crowded"]).out = "" ∧
      (run crowdedFile ["-f", "--lift-terminals", "crowded"]).err =
        errorLine (Location.report ⟨"crowded", none⟩ (ConversionError.poolExhausted ⟨'S'⟩).message) ∧
      ∃ shown, (run crowdedFile ["--lift-terminals", "crowded"]).out = blocks shown ∧
        shown.map Prod.fst = [.longRules, .emptyRules, .unitRules, .startRules] := by
  refine ⟨?_, ?_⟩
  · have hs : ofArguments ["--prune", "pairs"] =
        .ok ⟨"pairs", none, false, ⟨.whileEmpty, false, true⟩⟩ := by decide
    obtain ⟨hspelled, hruns⟩ := run_finalOnly pairsFile hs rfl
    have hbrief := hspelled "--final-only" (by decide)
    obtain ⟨hexit, _, hout⟩ := hruns _ hbrief
    have hzero : (run pairsFile ["--prune", "pairs"]).exitCode = 0 := by decide +kernel
    have htext : (run pairsFile ["--final-only", "--prune", "pairs"]).out = "S->aB\nS->ab\nB->Sb\n" := by
      decide +kernel
    refine ⟨hbrief, hexit.trans hzero, htext, by decide +kernel, ?_⟩
    split at hout
    · rw [hout.1] at hzero
      exact absurd hzero (by decide)
    · obtain ⟨shown, d, hblocks, ⟨hpasses, _, stage, hlast, hfinal⟩ | ⟨_, _, _, _, _, _, _, hone, _⟩⟩ :=
        hout
      · refine ⟨shown, hblocks, hpasses.map_fst, ?_⟩
        rw [hlast, ← htext, hfinal]
        rfl
      · rw [hone] at hzero
        exact absurd hzero (by decide)
  · have hs : ofArguments ["--lift-terminals", "crowded"] =
        .ok ⟨"crowded", none, false, ⟨.whileEmpty, true, false⟩⟩ := by decide
    obtain ⟨hspelled, hruns⟩ := run_finalOnly crowdedFile hs rfl
    have hbrief := hspelled "-f" (by decide)
    obtain ⟨hexit, herr, hout⟩ := hruns _ hbrief
    have hreason : (run crowdedFile ["--lift-terminals", "crowded"]).err =
        errorLine (Location.report ⟨"crowded", none⟩
          (ConversionError.poolExhausted ⟨'S'⟩).message) := by decide +kernel
    have hstages : (GrammarFile.ofBytes? "crowded" (crowdedFile "crowded") none).map
        (fun g => (g.convert ⟨.whileEmpty, true, false⟩).shown.map Prod.fst) =
          .ok [.longRules, .emptyRules, .unitRules, .startRules] := by decide +kernel
    split at hout
    next es hread =>
      rw [hread] at hstages
      exact nomatch hstages
    next g hread =>
      rw [hread] at hstages
      have hfour : (g.convert ⟨.whileEmpty, true, false⟩).shown.map Prod.fst =
          [.longRules, .emptyRules, .unitRules, .startRules] := Except.ok.inj hstages
      obtain ⟨shown, d, hblocks, ⟨hpasses, _⟩ |
        ⟨done, failing, rest, e, hdone, hpasses, herror, hone, hbare⟩⟩ := hout
      · have hshown : (g.convert ⟨.whileEmpty, true, false⟩).shown = shown := hpasses.finished.1
        rw [hshown, hpasses.map_fst] at hfour
        exact absurd hfour (by decide)
      · have hfailed := (hpasses.failed herror rest).1
        rw [← hdone] at hfailed
        have hshown : (g.convert ⟨.whileEmpty, true, false⟩).shown = shown := hfailed
        rw [hshown] at hfour
        exact ⟨hexit.trans hone, hbare, herr.trans hreason, shown, hblocks, hfour⟩

end Program

end ChomskyForm
