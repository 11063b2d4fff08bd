import ChomskyForm.Proofs.GrammarFile.Rule

/-!
# Lines and their faults

A line that is not blank and spells no rule has a fault, and only the first is reported
(`Rule.ofLine_eq_error_iff`).  A dash outside an arrow comes before all others, wherever it stands in
the line; then the left side is looked at, and then one alternative after the other
(`Rule.FaultyBy`).
-/

namespace ChomskyForm

namespace Token

/-! ### Loose dashes -/

/-- Some dash is not followed by an angle bracket. -/
def HasLooseDash (line : List Char) : Prop :=
  ∃ before rest, line = before ++ '-' :: rest ∧ rest.head? ≠ some '>'

theorem not_hasLooseDash_nil : ¬HasLooseDash [] := by
  rintro ⟨before, rest, h, _⟩
  cases before <;> cases h

theorem hasLooseDash_cons_iff {c : Char} {rest : List Char} :
    HasLooseDash (c :: rest) ↔ (c = '-' ∧ rest.head? ≠ some '>') ∨ HasLooseDash rest := by
  constructor
  · rintro ⟨before, after, h, hafter⟩
    cases before with
    | nil =>
      cases h
      exact Or.inl ⟨rfl, hafter⟩
    | cons d before =>
      cases h
      exact Or.inr ⟨before, after, rfl, hafter⟩
  · rintro (⟨rfl, hrest⟩ | ⟨before, after, rfl, hafter⟩)
    · exact ⟨[], rest, rfl, hrest⟩
    · exact ⟨c :: before, after, rfl, hafter⟩

theorem hasLooseDash_cons_of_ne {c : Char} {rest : List Char} (hc : c ≠ '-') :
    HasLooseDash (c :: rest) ↔ HasLooseDash rest := by
  rw [hasLooseDash_cons_iff, or_iff_right]
  exact fun h => hc h.1

theorem hasLooseDash_append_iff {cs rest : List Char} (hcs : ∀ c ∈ cs, c ≠ '-') :
    HasLooseDash (cs ++ rest) ↔ HasLooseDash rest := by
  induction cs with
  | nil => rfl
  | cons c cs ih =>
    obtain ⟨hc, hcs⟩ := List.forall_mem_cons.mp hcs
    rw [List.cons_append, hasLooseDash_cons_of_ne hc, ih hcs]

/-- A loose dash is all that can be wrong with the tokens of a line. -/
theorem lex_eq_error_iff {line : List Char} {fault : Fault} :
    lex line = .error fault ↔ HasLooseDash line ∧ fault = .malformedArrow := by
  fun_induction lex line with
  | case1 => simp [not_hasLooseDash_nil]
  | case2 rest ih =>
    have hbracket : '>' ≠ '-' := by decide
    rw [map_eq_error_iff, ih, hasLooseDash_cons_iff, hasLooseDash_cons_of_ne hbracket]
    simp
  | case3 rest hrest =>
    have hloose : HasLooseDash ('-' :: rest) := by
      refine hasLooseDash_cons_iff.mpr (Or.inl ⟨rfl, ?_⟩)
      intro hhead
      obtain ⟨more, rfl⟩ := List.head?_eq_some_iff.mp hhead
      exact hrest more rfl
    rw [and_iff_right hloose, Except.error.injEq, eq_comm]
  | case4 rest ih =>
    have hbar : '|' ≠ '-' := by decide
    rw [map_eq_error_iff, ih, hasLooseDash_cons_of_ne hbar]
  | case5 c rest _ hdash _ _ ih => rw [ih, hasLooseDash_cons_of_ne hdash]
  | case6 c rest _ hdash _ _ ih =>
    have hword : ∀ d ∈ rest.takeWhile isWordChar, d ≠ '-' := by
      intro d hd
      exact (isWordChar_eq_true_iff.mp (List.mem_takeWhile_imp hd)).2.2
    rw [map_eq_error_iff, ih, hasLooseDash_cons_of_ne hdash, ← hasLooseDash_append_iff hword,
      List.takeWhile_append_dropWhile]

theorem Renders.word_of_mem {ts : List Token} {line : List Char} (h : Renders ts line)
    {cs : List Char} (hcs : .word cs ∈ ts) : cs ≠ [] ∧ ∀ c ∈ cs, isWordChar c = true := by
  induction ts generalizing line with
  | nil => cases hcs
  | cons t ts ih =>
    obtain ⟨before, rest, _, hstands, hrest, _⟩ := h
    rcases List.mem_cons.mp hcs with rfl | hcs
    · exact hstands.1
    · exact ih hrest hcs

end Token

namespace Rule

/-! ### Faults of a line -/

/-- What is wrong with the left side; a right side is not looked at. -/
inductive LeftFault : List Token → Fault → Prop
  | missing {t : Token} {rest : List Token} (ht : t = .arrow ∨ t = .bar) :
      LeftFault (t :: rest) .missingLeftSide
  | long {cs : List Char} {rest : List Token} (hcs : cs.length ≠ 1) :
      LeftFault (.word cs :: rest) (.longLeftSide cs)
  | symbol {c : Char} {rest : List Token} (hc : c.isAlpha = false) :
      LeftFault (.word [c] :: rest) (.invalidSymbol c)
  | marker {rest : List Token} : LeftFault (.word [Symbol.marker.char] :: rest) .markerOnLeft

/-- What is wrong with the tokens of one alternative.  Of a word it is the first character that is no
letter, or the marker if there is none. -/
inductive SideFault : List Token → Fault → Prop
  | missing : SideFault [] .missingRightSide
  | symbol {letters more : List Char} {c : Char} (hletters : ∀ d ∈ letters, d.isAlpha = true)
      (hc : c.isAlpha = false) : SideFault [.word (letters ++ c :: more)] (.invalidSymbol c)
  | marker {cs : List Char} (hcs : ∀ c ∈ cs, c.isAlpha = true) (hlong : 1 < cs.length)
      (hmarker : Symbol.marker.char ∈ cs) : SideFault [.word cs] .misplacedMarker
  | extra {cs ds : List Char} {more : List Token} :
      SideFault (.word cs :: .word ds :: more) (.unexpectedWord ds)
  | arrow {more : List Token} : SideFault (.arrow :: more) .unexpectedArrow
  | late {cs : List Char} {more : List Token} :
      SideFault (.word cs :: .arrow :: more) .unexpectedArrow

/-- The first of the alternatives that is faulty has this fault. -/
def SidesFault (sides : List Token) (fault : Fault) : Prop :=
  ∃ (sound : List RightSide) (run : List Token) (runs : List (List Token)),
    sides.splitOn .bar = sound.map (fun rhs => [.word (RightSide.chars rhs)]) ++ run :: runs ∧
      (∀ rhs ∈ sound, IsAlternative rhs) ∧ SideFault run fault

/-- What is wrong after a left side.  An arrow is left out at the front only. -/
inductive RightFault : List Token → Fault → Prop
  | arrow {lhs : Symbol} {sides : List Token} {fault : Fault} (hlhs : IsLeftSide lhs)
      (h : SidesFault sides fault) : RightFault (.word [lhs.char] :: .arrow :: sides) fault
  | plain {lhs : Symbol} {sides : List Token} {fault : Fault} (hlhs : IsLeftSide lhs)
      (hfront : sides.head? ≠ some .arrow) (h : SidesFault sides fault) :
      RightFault (.word [lhs.char] :: sides) fault

/-- The first fault of a line. -/
inductive FaultyBy (line : List Char) : Fault → Prop
  | dash (h : Token.HasLooseDash line) : FaultyBy line .malformedArrow
  | left {ts : List Token} {fault : Fault} (hts : Token.Renders ts line) (h : LeftFault ts fault) :
      FaultyBy line fault
  | right {ts : List Token} {fault : Fault} (hts : Token.Renders ts line) (h : RightFault ts fault) :
      FaultyBy line fault

/-! ### Faults of words -/

theorem readLetter_eq_error_iff {c : Char} {fault : Fault} :
    readLetter c = .error fault ↔ c.isAlpha = false ∧ fault = .invalidSymbol c := by
  rw [readLetter]
  cases hc : c.isAlpha with
  | false => simp [eq_comm]
  | true => simp

theorem readLeftSide_eq_error_iff {cs : List Char} {rest : List Token} {fault : Fault} :
    readLeftSide cs = .error fault ↔ LeftFault (.word cs :: rest) fault := by
  constructor
  · intro h
    match cs with
    | [] | _ :: _ :: _ =>
      cases h
      exact .long (by simp)
    | [c] =>
      rcases bind_eq_error_iff.mp h with hletter | ⟨s, hs, hmarker⟩
      · obtain ⟨hc, rfl⟩ := readLetter_eq_error_iff.mp hletter
        exact .symbol hc
      · obtain ⟨rfl, _⟩ := readLetter_eq_ok_iff.mp hs
        by_cases hs : s = Symbol.marker
        · rw [if_pos hs] at hmarker
          cases hmarker
          rw [hs]
          exact .marker
        · rw [if_neg hs] at hmarker
          cases hmarker
  · intro h
    cases h with
    | missing ht => rcases ht with ht | ht <;> cases ht
    | long hcs =>
      match cs with
      | [] | _ :: _ :: _ => rfl
      | [c] => exact absurd rfl hcs
    | symbol hc =>
      rw [readLeftSide, readLetter_eq_error_iff.mpr ⟨hc, rfl⟩]
      rfl
    | marker => rfl

theorem mapM_readLetter_of_isAlpha {cs : List Char} (h : ∀ c ∈ cs, c.isAlpha = true) :
    cs.mapM readLetter = .ok (cs.map Symbol.mk) := by
  refine (mapM_eq_ok_iff fun _ _ => readLetter_eq_ok_iff).mpr ⟨?_, List.forall_mem_map.mpr h⟩
  rw [List.map_map]
  exact (List.map_id cs).symm

theorem isAlpha_of_mapM_readLetter {cs : List Char} {rhs : RightSide}
    (h : cs.mapM readLetter = .ok rhs) : ∀ c ∈ cs, c.isAlpha = true := by
  obtain ⟨rfl, halpha⟩ := (mapM_eq_ok_iff fun _ _ => readLetter_eq_ok_iff).mp h
  exact List.forall_mem_map.mpr halpha

theorem marker_mem_map_iff {cs : List Char} :
    Symbol.marker ∈ cs.map Symbol.mk ↔ Symbol.marker.char ∈ cs :=
  List.mem_map_of_injective fun _ _ h => congrArg Symbol.char h

theorem readRightSide_eq_error_iff {cs : List Char} {fault : Fault} :
    readRightSide cs = .error fault ↔ SideFault [.word cs] fault := by
  constructor
  · intro h
    rcases bind_eq_error_iff.mp h with hletters | ⟨rhs, hrhs, hmarker⟩
    · obtain ⟨letters, c, more, rfl, ⟨rhs, hrhs⟩, hread⟩ := mapM_eq_error_iff.mp hletters
      obtain ⟨hc, rfl⟩ := readLetter_eq_error_iff.mp hread
      exact .symbol (isAlpha_of_mapM_readLetter hrhs) hc
    · have halpha := isAlpha_of_mapM_readLetter hrhs
      rw [mapM_readLetter_of_isAlpha halpha] at hrhs
      cases hrhs
      by_cases hlong : 1 < (cs.map Symbol.mk).length ∧ Symbol.marker ∈ cs.map Symbol.mk
      · rw [if_pos hlong] at hmarker
        cases hmarker
        obtain ⟨hlength, hmem⟩ := hlong
        rw [List.length_map] at hlength
        exact .marker halpha hlength (marker_mem_map_iff.mp hmem)
      · rw [if_neg hlong] at hmarker
        cases hmarker
  · intro h
    cases h with
    | @symbol letters more c hletters hc =>
      have hread : (letters ++ c :: more).mapM readLetter = .error (.invalidSymbol c) :=
        mapM_eq_error_iff.mpr ⟨letters, c, more, rfl, ⟨_, mapM_readLetter_of_isAlpha hletters⟩,
          readLetter_eq_error_iff.mpr ⟨hc, rfl⟩⟩
      rw [readRightSide, hread]
      rfl
    | marker hcs hlong hmarker =>
      have hlength : 1 < (cs.map Symbol.mk).length := by rwa [List.length_map]
      rw [readRightSide, mapM_readLetter_of_isAlpha hcs]
      exact if_pos ⟨hlength, marker_mem_map_iff.mpr hmarker⟩

/-! ### Faults of token lists -/

theorem readAlternative_eq_error_iff {run : List Token} {fault : Fault} (hbar : .bar ∉ run) :
    readAlternative run = .error fault ↔ SideFault run fault := by
  constructor
  · intro h
    match run with
    | [.word cs] => exact readRightSide_eq_error_iff.mp h
    | [] =>
      cases h
      exact .missing
    | .word _ :: .word _ :: _ =>
      cases h
      exact .extra
    | .arrow :: _ =>
      cases h
      exact .arrow
    | .word _ :: .arrow :: _ =>
      cases h
      exact .late
    | .bar :: _ => exact absurd (List.mem_cons_self ..) hbar
    | .word _ :: .bar :: _ =>
      exact absurd (List.mem_cons_of_mem _ (List.mem_cons_self ..)) hbar
  · intro h
    match run with
    | [.word cs] => exact readRightSide_eq_error_iff.mpr h
    | [] | .word _ :: .word _ :: _ | .arrow :: _ | .word _ :: .arrow :: _ =>
      cases h
      rfl
    | .bar :: _ | .word _ :: .bar :: _ => cases h

theorem mem_of_mem_splitAtBars {ts run : List Token} (hrun : run ∈ splitAtBars ts) {t : Token}
    (ht : t ∈ run) : t ∈ ts ∧ t ≠ .bar := by
  fun_induction splitAtBars ts generalizing run with
  | case1 =>
    rw [List.mem_singleton.mp hrun] at ht
    cases ht
  | case2 rest ih =>
    rcases List.mem_cons.mp hrun with rfl | hrun
    · cases ht
    · obtain ⟨hmem, hbar⟩ := ih hrun ht
      exact ⟨List.mem_cons_of_mem _ hmem, hbar⟩
  | case3 t rest _ hnone => exact absurd hnone (splitAtBars_ne_nil rest)
  | case4 u rest hbar first runs heq ih =>
    rw [heq] at ih
    rcases List.mem_cons.mp hrun with rfl | hrun
    · rcases List.mem_cons.mp ht with rfl | ht
      · exact ⟨List.mem_cons_self .., hbar⟩
      · obtain ⟨hmem, hne⟩ := ih (List.mem_cons_self ..) ht
        exact ⟨List.mem_cons_of_mem _ hmem, hne⟩
    · obtain ⟨hmem, hne⟩ := ih (List.mem_cons_of_mem _ hrun) ht
      exact ⟨List.mem_cons_of_mem _ hmem, hne⟩

/-- The lexer makes no empty words, so they need not be told apart. -/
theorem mapM_readAlternative_eq_error_iff {sides : List Token} {fault : Fault}
    (hwords : ∀ cs, .word cs ∈ sides → cs ≠ []) :
    (splitAtBars sides).mapM readAlternative = .error fault ↔ SidesFault sides fault := by
  have hbars : ∀ run ∈ splitAtBars sides, .bar ∉ run :=
    fun run hrun hbar => (mem_of_mem_splitAtBars hrun hbar).2 rfl
  have hsound : ∀ {done : List (List Token)} {rhss : List RightSide},
      done.mapM readAlternative = .ok rhss ↔
        done = rhss.map (fun rhs => [.word (RightSide.chars rhs)]) ∧
          ∀ rhs ∈ rhss, rhs = [] ∨ IsAlternative rhs :=
    mapM_eq_ok_iff fun _ _ => readAlternative_eq_ok_iff
  rw [mapM_eq_error_iff, SidesFault, ← splitAtBars_eq_splitOn]
  constructor
  · rintro ⟨done, run, runs, hsplit, ⟨sound, hdone⟩, hrun⟩
    obtain ⟨rfl, hall⟩ := hsound.mp hdone
    have hmem : run ∈ splitAtBars sides := by
      rw [hsplit]
      exact List.mem_append_right _ (List.mem_cons_self ..)
    refine ⟨sound, run, runs, hsplit, fun rhs hrhs => ?_,
      (readAlternative_eq_error_iff (hbars run hmem)).mp hrun⟩
    refine (hall rhs hrhs).resolve_left ?_
    rintro rfl
    have hword : [.word []] ∈ splitAtBars sides := by
      rw [hsplit]
      exact List.mem_append_left _ (List.mem_map.mpr ⟨[], hrhs, rfl⟩)
    exact hwords [] (mem_of_mem_splitAtBars hword (List.mem_cons_self ..)).1 rfl
  · rintro ⟨sound, run, runs, hsplit, hall, hrun⟩
    have hmem : run ∈ splitAtBars sides := by
      rw [hsplit]
      exact List.mem_append_right _ (List.mem_cons_self ..)
    exact ⟨_, run, runs, hsplit, ⟨sound, hsound.mpr ⟨rfl, fun rhs hrhs => Or.inr (hall rhs hrhs)⟩⟩,
      (readAlternative_eq_error_iff (hbars run hmem)).mpr hrun⟩

theorem rightFault_iff {cs : List Char} {rest : List Token} {fault : Fault} :
    RightFault (.word cs :: rest) fault ↔
      ∃ lhs : Symbol, (cs = [lhs.char] ∧ IsLeftSide lhs) ∧ SidesFault (dropArrow rest) fault := by
  constructor
  · intro h
    cases h with
    | arrow hlhs h => exact ⟨_, ⟨rfl, hlhs⟩, h⟩
    | plain hlhs hfront h =>
      refine ⟨_, ⟨rfl, hlhs⟩, ?_⟩
      match rest with
      | .arrow :: _ => exact absurd rfl hfront
      | [] | .bar :: _ | .word _ :: _ => exact h
  · rintro ⟨lhs, ⟨rfl, hlhs⟩, h⟩
    match rest with
    | .arrow :: _ => exact .arrow hlhs h
    | [] | .bar :: _ | .word _ :: _ => exact .plain hlhs (by simp) h

theorem mem_of_mem_dropArrow {ts : List Token} {t : Token} (h : t ∈ dropArrow ts) : t ∈ ts := by
  match ts with
  | .arrow :: _ => exact List.mem_cons_of_mem _ h
  | [] | .bar :: _ | .word _ :: _ => exact h

theorem ofTokens_eq_error_iff {ts : List Token} {fault : Fault} (hne : ts ≠ [])
    (hwords : ∀ cs, .word cs ∈ ts → cs ≠ []) :
    ofTokens ts = .error fault ↔ LeftFault ts fault ∨ RightFault ts fault := by
  match ts with
  | [] => exact absurd rfl hne
  | .arrow :: rest | .bar :: rest =>
    constructor
    · intro h
      cases h
      exact Or.inl (.missing (by simp))
    · rintro (h | h)
      · cases h
        rfl
      · cases h
  | .word cs :: rest =>
    have hsides : ∀ ds, .word ds ∈ dropArrow rest → ds ≠ [] :=
      fun ds hds => hwords ds (List.mem_cons_of_mem _ (mem_of_mem_dropArrow hds))
    rw [ofTokens, bind_eq_error_iff, readLeftSide_eq_error_iff, rightFault_iff]
    refine or_congr_right (exists_congr fun lhs => ?_)
    rw [readLeftSide_eq_ok_iff, bind_eq_error_iff, mapM_readAlternative_eq_error_iff hsides,
      or_iff_left]
    rintro ⟨_, _, h⟩
    cases h

/-! ### Faults of lines -/

/-- A line that is not blank is read with its first fault. -/
theorem ofLine_eq_error_iff {line : List Char} {fault : Fault} (h : ¬IsBlankText line) :
    ofLine line = .error fault ↔ FaultyBy line fault := by
  have htokens : ∀ {ts : List Token}, Token.Renders ts line →
      (ofTokens ts = .error fault ↔ LeftFault ts fault ∨ RightFault ts fault) := by
    intro ts hts
    refine ofTokens_eq_error_iff ?_ fun cs hcs => (hts.word_of_mem hcs).1
    rintro rfl
    exact h hts
  rw [ofLine, bind_eq_error_iff, Token.lex_eq_error_iff]
  constructor
  · rintro (⟨hdash, rfl⟩ | ⟨ts, hlex, hfault⟩)
    · exact .dash hdash
    · have hts := Token.lex_eq_ok_iff.mp hlex
      rcases (htokens hts).mp hfault with hleft | hright
      · exact .left hts hleft
      · exact .right hts hright
  · intro hfault
    cases hfault with
    | dash hdash => exact Or.inl ⟨hdash, rfl⟩
    | left hts hleft =>
      exact Or.inr ⟨_, Token.lex_eq_ok_iff.mpr hts, (htokens hts).mpr (Or.inl hleft)⟩
    | right hts hright =>
      exact Or.inr ⟨_, Token.lex_eq_ok_iff.mpr hts, (htokens hts).mpr (Or.inr hright)⟩

theorem SidesFault.ne_blankLine {sides : List Token} {fault : Fault} (h : SidesFault sides fault) :
    fault ≠ .blankLine := by
  obtain ⟨_, _, _, _, _, hside⟩ := h
  rintro rfl
  cases hside

/-- The fault of a blank line is the fault of no other. -/
theorem FaultyBy.ne_blankLine {line : List Char} {fault : Fault} (h : FaultyBy line fault) :
    fault ≠ .blankLine := by
  cases h with
  | dash => exact Fault.noConfusion
  | left _ hleft =>
    rintro rfl
    cases hleft
  | right _ hright =>
    cases hright with
    | arrow _ hsides => exact hsides.ne_blankLine
    | plain _ _ hsides => exact hsides.ne_blankLine

end Rule

end ChomskyForm
