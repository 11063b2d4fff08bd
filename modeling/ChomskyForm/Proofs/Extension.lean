import ChomskyForm.Proofs.Stages.Binary
import ChomskyForm.Proofs.Stages.Lifted

/-!
# Grammars that are extended after they were made

The letters of a pool are set apart when a grammar is made from its productions, and a production that
is added later takes none of them away.  So a stage may draw a letter that an added production has
(`binarize_taken`).  It draws no other letter of the grammar, and if it draws none at all, every
nonterminal keeps its words (`drawn_of_extended`).

The stages are known to be right for grammars whose pools have no letter of theirs.  This is of use
here because a stage takes its letters from the front of the pool and does not look at the rest
(`draws_liftTerminals`): it does the same with a pool of the drawn letters alone.
-/

namespace ChomskyForm

theorem LetterPool.draw_eq_some_iff {p q : LetterPool} {s : Symbol} :
    p.draw = some (s, q) ↔ p.letters = s :: q.letters := by
  refine ⟨letters_eq_of_draw, fun h => ?_⟩
  obtain ⟨letters, hp⟩ := p
  obtain ⟨rest, hq⟩ := q
  cases h
  rfl

theorem Yields.eq_flatMap_spelled {N : Symbol → Prop} {rules : RuleTable} {α : RightSide}
    {w : List Symbol} (h : Yields N rules α w) (hα : ∀ s ∈ α, ¬N s) :
    w = α.flatMap Symbol.spelled := by
  induction h with
  | nil => rfl
  | terminal _ _ ih =>
    rw [List.flatMap_cons, ih fun s hs => hα s (List.mem_cons_of_mem _ hs)]
  | nonterminal expanded => exact absurd expanded (hα _ (List.mem_cons_self ..))

namespace Grammar

variable {g g' : Grammar} {σ σ' : StandIns} {lhs s t : Symbol}

/-! ### Other pools -/

def withPool (g : Grammar) (p : LetterPool) : Grammar := { g with pool := p }

theorem drawFor_eq_ok_iff {purpose : Symbol → Notice} :
    (g.drawFor lhs purpose).outcome = .ok (s, g') ↔ ∃ rest : LetterPool,
      g.pool.letters = s :: rest.letters ∧
        g' = { g with vocabulary := g.vocabulary.insert s, pool := rest } := by
  unfold drawFor draw
  cases hdraw : g.pool.draw with
  | none =>
    constructor
    · intro h
      cases h
    · rintro ⟨rest, hletters, _⟩
      rw [LetterPool.draw_eq_some_iff.mpr hletters] at hdraw
      cases hdraw
  | some drawn =>
    obtain ⟨letter, rest⟩ := drawn
    constructor
    · intro h
      cases h
      exact ⟨rest, LetterPool.draw_eq_some_iff.mp hdraw, rfl⟩
    · rintro ⟨rest', hletters, rfl⟩
      rw [LetterPool.draw_eq_some_iff.mpr hletters] at hdraw
      cases hdraw
      rfl

/-- The work draws some letters from the pool `p₀` and leaves `p₁`.  From any other pool that begins
with these letters it would draw the same. -/
def Draws {β : Type} (p₀ p₁ : LetterPool) (work : LetterPool → Noted ConversionError β)
    (result : LetterPool → β) : Prop :=
  ∃ ls, p₀.letters = ls ++ p₁.letters ∧
    ∀ p q : LetterPool, p.letters = ls ++ q.letters → (work p).outcome = .ok (result q)

section

variable {β γ : Type} {p₀ p₁ p₂ : LetterPool} {work : LetterPool → Noted ConversionError β}
  {result : LetterPool → β} {result' : LetterPool → γ}

theorem draws_pure (p : LetterPool) (result : LetterPool → β) :
    Draws p p (fun p => pure (result p)) result := by
  refine ⟨[], rfl, ?_⟩
  rintro ⟨letters, hp⟩ ⟨letters', hq⟩ h
  cases h
  rfl

theorem Draws.bind {next : β → Noted ConversionError γ} (h : Draws p₀ p₁ work result)
    (h' : Draws p₁ p₂ (fun p => next (result p)) result') :
    Draws p₀ p₂ (fun p => work p >>= next) result' := by
  obtain ⟨ls, hls, hwork⟩ := h
  obtain ⟨ms, hms, hnext⟩ := h'
  refine ⟨ls ++ ms, by rw [hls, hms, List.append_assoc], fun p q hp => ?_⟩
  rw [List.append_assoc] at hp
  have hsub : (ms ++ q.letters).Sublist alphabet := by
    refine List.Sublist.trans ?_ p.sublist
    rw [hp]
    exact List.sublist_append_right ls _
  exact Noted.outcome_bind_eq_ok_iff.mpr ⟨_, hwork p ⟨ms ++ q.letters, hsub⟩ hp, hnext _ q rfl⟩

end

theorem draws_lift (h : (lift lhs s (g, σ)).outcome = .ok (t, g', σ')) :
    Draws g.pool g'.pool (fun p => lift lhs s (g.withPool p, σ)) fun q => (t, g'.withPool q, σ') := by
  simp only [lift] at h ⊢
  by_cases hs : g.isNonterminal s = true
  · have hs' : ∀ p, (g.withPool p).isNonterminal s = true := fun _ => hs
    simp only [hs, hs'] at h ⊢
    cases h
    exact draws_pure _ _
  · have hs' : ∀ p, ¬(g.withPool p).isNonterminal s = true := fun _ => hs
    simp only [hs, hs'] at h ⊢
    cases hget : σ.get? s with
    | some u =>
      simp only [hget] at h ⊢
      cases h
      exact draws_pure _ _
    | none =>
      simp only [hget] at h ⊢
      obtain ⟨⟨letter, g₁⟩, hdraw, hpure⟩ := Noted.outcome_bind_eq_ok_iff.mp h
      cases hpure
      obtain ⟨rest, hletters, rfl⟩ := drawFor_eq_ok_iff.mp hdraw
      refine ⟨[letter], hletters, fun p q hp => ?_⟩
      exact Noted.outcome_bind_eq_ok_iff.mpr ⟨_, drawFor_eq_ok_iff.mpr ⟨q, hp, rfl⟩, rfl⟩

theorem draws_addLifted {rhs : RightSide} (h : (addLifted lhs (g, σ) rhs).outcome = .ok (g', σ')) :
    Draws g.pool g'.pool (fun p => addLifted lhs (g.withPool p, σ) rhs)
      fun q => (g'.withPool q, σ') := by
  match rhs with
  | [] | [_] | _ :: _ :: _ :: _ =>
    cases h
    exact draws_pure _ _
  | [l, r] =>
    obtain ⟨⟨l', g₁, σ₁⟩, hleft, hnext⟩ := Noted.outcome_bind_eq_ok_iff.mp h
    obtain ⟨⟨r', g₂, σ₂⟩, hright, hpure⟩ := Noted.outcome_bind_eq_ok_iff.mp hnext
    cases hpure
    exact (draws_lift hleft).bind ((draws_lift hright).bind (draws_pure _ _))

theorem draws_foldlM {γ : Type}
    {f : Grammar × StandIns → γ → Noted ConversionError (Grammar × StandIns)} {cs : List γ}
    (hf : ∀ c g σ g' σ', (f (g, σ) c).outcome = .ok (g', σ') →
      Draws g.pool g'.pool (fun p => f (g.withPool p, σ) c) fun q => (g'.withPool q, σ'))
    (h : (cs.foldlM f (g, σ)).outcome = .ok (g', σ')) :
    Draws g.pool g'.pool (fun p => cs.foldlM f (g.withPool p, σ)) fun q => (g'.withPool q, σ') := by
  induction cs generalizing g σ with
  | nil =>
    cases h
    exact draws_pure _ _
  | cons c cs ih =>
    simp only [List.foldlM_cons] at h ⊢
    obtain ⟨⟨g₁, σ₁⟩, hfirst, hrest⟩ := Noted.outcome_bind_eq_ok_iff.mp h
    exact (hf c _ _ _ _ hfirst).bind (ih hrest)

theorem draws_addAllLifted {rhss : List RightSide}
    (h : (addAllLifted lhs rhss (g, σ)).outcome = .ok (g', σ')) :
    Draws g.pool g'.pool (fun p => addAllLifted lhs rhss (g.withPool p, σ))
      fun q => (g'.withPool q, σ') :=
  draws_foldlM (g := { g with rules := g.rules.withKey lhs })
    (fun _ _ _ _ _ hcopy => draws_addLifted hcopy) h

theorem addAll_withPool (g : Grammar) (p : LetterPool) (ps : List Production) :
    (g.withPool p).addAll ps = (g.addAll ps).withPool p := by
  induction ps generalizing g with
  | nil => rfl
  | cons r ps ih => exact ih (g.add r.1 r.2)

theorem draws_liftTerminals (h : g.liftTerminals.outcome = .ok g') :
    Draws g.pool g'.pool (fun p => (g.withPool p).liftTerminals) g'.withPool := by
  obtain ⟨⟨copied, σ⟩, hfold, hpure⟩ := Noted.outcome_bind_eq_ok_iff.mp h
  cases hpure
  rw [pool_addAll]
  refine Draws.bind (draws_foldlM (g := { g with rules := ∅ })
    (f := fun state (e : Symbol × List RightSide) => addAllLifted e.1 e.2 state)
    (fun _ _ _ _ _ hentry => draws_addAllLifted hentry) hfold) ?_
  simp only [addAll_withPool]
  exact draws_pure _ _

/-! ### Words -/

/-- What makes a letter fit to name a new nonterminal. -/
def Unused (g : Grammar) (s : Symbol) : Prop := s ∉ g.vocabulary ∧ s ≠ g.start ∧ ¬g.Uses s

/-- Some letters left the pool, and the other symbols have kept their words if these were unused. -/
def KeepsWordsUnlessTaken (g g' : Grammar) : Prop :=
  ∃ ls, g.pool.letters = ls ++ g'.pool.letters ∧
    ((∀ l ∈ ls, g.Unused l) → ∀ s, s ∉ ls → ∀ w, g'.Generates s w ↔ g.Generates s w)

theorem exists_pools {ls : List Symbol} (h : g.pool.letters = ls ++ g'.pool.letters) :
    ∃ p q : LetterPool, p.letters = ls ∧ q.letters = [] := by
  have hsub : ls.Sublist alphabet := by
    refine List.Sublist.trans ?_ g.pool.sublist
    rw [h]
    exact List.sublist_append_left ls _
  exact ⟨⟨ls, hsub⟩, ⟨[], List.nil_sublist _⟩, rfl, rfl⟩

theorem keepsWordsUnlessTaken_binarize (hkeys : ∀ s ∈ g.rules, s ∈ g.vocabulary)
    (h : g.binarize.outcome = .ok g') : g.KeepsWordsUnlessTaken g' := by
  obtain ⟨cuts, hcut⟩ := binarize_cut h
  refine ⟨cuts.flatMap Prod.snd, hcut.pool, fun hunused s hs w => ?_⟩
  obtain ⟨p, q, hp, hq⟩ := exists_pools hcut.pool
  have hsupplied : (g.withPool p).Supplied := ⟨hkeys, fun l hl => hunused l (hp ▸ hl)⟩
  have hpool : p.letters = cuts.flatMap Prod.snd ++ q.letters := by
    rw [hp, hq, List.append_nil]
  -- the same cuts, with a pool of the drawn letters alone
  have hcut' : Cut (g.withPool p) (g'.withPool q) cuts := { hcut with pool := hpool }
  exact hcut'.generates_iff hsupplied fun hmem => hs (hp ▸ hmem)

theorem keepsWordsUnlessTaken_liftTerminals (hkeys : ∀ s ∈ g.rules, s ∈ g.vocabulary)
    (h : g.liftTerminals.outcome = .ok g') : g.KeepsWordsUnlessTaken g' := by
  obtain ⟨ls, hls, hdraws⟩ := draws_liftTerminals h
  refine ⟨ls, hls, fun hunused s hs w => ?_⟩
  obtain ⟨p, q, hp, hq⟩ := exists_pools hls
  have hsupplied : (g.withPool p).Supplied := ⟨hkeys, fun l hl => hunused l (hp ▸ hl)⟩
  have hrun : (g.withPool p).liftTerminals.outcome = .ok (g'.withPool q) := by
    refine hdraws p q ?_
    rw [hp, hq, List.append_nil]
  obtain ⟨σ, hstood⟩ := stoodIn_of_liftTerminals hsupplied hrun
  exact hstood.generates_iff hsupplied fun hmem => hs (hp ▸ hmem)

/-- The symbol is a left side or stands in a right side. -/
def Mentions (g : Grammar) (s : Symbol) : Prop := s ∈ g.rules ∨ g.Uses s

theorem mentions_extended_iff {start : Symbol} {ps qs : List Production} :
    ((ofProductions start ps).addAll qs).Mentions s ↔ ∃ p ∈ ps ++ qs, s ∈ p.1 :: p.2 := by
  have hrules : s ∈ ((ofProductions start ps).addAll qs).rules ↔ s ∈ (ps ++ qs).map Prod.fst := by
    rw [mem_rules_addAll, mem_rules_ofProductions, List.map_append, List.mem_append]
  have hrule : ∀ lhs rhs, rhs ∈ ((ofProductions start ps).addAll qs).alternatives lhs ↔
      (lhs, rhs) ∈ ps ++ qs := by
    intro lhs rhs
    rw [mem_alternatives_addAll, mem_alternatives_ofProductions, List.mem_append]
  constructor
  · rintro (hs | ⟨lhs, rhs, hrhs, hs⟩)
    · obtain ⟨p, hp, rfl⟩ := List.mem_map.mp (hrules.mp hs)
      exact ⟨p, hp, List.mem_cons_self ..⟩
    · exact ⟨(lhs, rhs), (hrule lhs rhs).mp hrhs, List.mem_cons_of_mem _ hs⟩
  · rintro ⟨p, hp, hs⟩
    rcases List.mem_cons.mp hs with rfl | hs
    · exact .inl (hrules.mpr (List.mem_map_of_mem hp))
    · exact .inr ⟨p.1, p.2, (hrule p.1 p.2).mpr hp, hs⟩

/-- A letter that is drawn from an extended grammar occurs in it if and only if an added production
has it.  Where no drawn letter does, all nonterminals keep their words. -/
theorem drawn_of_extended (start : Symbol) (ps qs : List Production) :
    let g := (ofProductions start ps).addAll qs
    ∀ stage ∈ [binarize, liftTerminals], ∀ g', (stage g).outcome = .ok g' →
      ∃ drawn, g.pool.letters = drawn ++ g'.pool.letters ∧
        (∀ l ∈ drawn, g.Mentions l ↔ ∃ p ∈ qs, l ∈ p.1 :: p.2) ∧
        ((∀ l ∈ drawn, ¬g.Mentions l) →
          ∀ s ∈ g.vocabulary, ∀ w, g'.Generates s w ↔ g.Generates s w) := by
  intro g stage hstage g' h
  have hvocabulary : ∀ s, s ∈ g.vocabulary ↔ s ∈ g.rules := by
    intro s
    rw [mem_vocabulary_addAll, mem_vocabulary_ofProductions, mem_rules_addAll,
      mem_rules_ofProductions]
  have hkeys : ∀ s ∈ g.rules, s ∈ g.vocabulary := fun s => (hvocabulary s).mpr
  have hkept : g.KeepsWordsUnlessTaken g' := by
    rcases List.mem_pair.mp hstage with rfl | rfl
    · exact keepsWordsUnlessTaken_binarize hkeys h
    · exact keepsWordsUnlessTaken_liftTerminals hkeys h
  obtain ⟨drawn, hdrawn, hwords⟩ := hkept
  -- the pool is still the one that the grammar was made with
  have hpool : ∀ l ∈ drawn, l ≠ start ∧ ∀ p ∈ ps, l ∉ p.1 :: p.2 := by
    intro l hl
    have hletter : l ∈ g.pool.letters := hdrawn ▸ List.mem_append_left _ hl
    rw [pool_addAll, pool_ofProductions, LetterPool.mem_excluding, List.mem_cons, not_or] at hletter
    obtain ⟨_, hne, hnot⟩ := hletter
    exact ⟨hne, fun p hp hmem => hnot (List.mem_flatMap.mpr ⟨p, hp, hmem⟩)⟩
  refine ⟨drawn, hdrawn, fun l hl => ?_, fun hfresh s hs => ?_⟩
  · rw [mentions_extended_iff]
    constructor
    · rintro ⟨p, hp, hmem⟩
      rcases List.mem_append.mp hp with hp | hp
      · exact absurd hmem ((hpool l hl).2 p hp)
      · exact ⟨p, hp, hmem⟩
    · rintro ⟨p, hp, hmem⟩
      exact ⟨p, List.mem_append_right _ hp, hmem⟩
  · refine hwords (fun l hl => ?_) s fun hmem => hfresh s hmem (.inl ((hvocabulary s).mp hs))
    obtain ⟨hkey, huses⟩ := not_or.mp (hfresh l hl)
    refine ⟨mt (hvocabulary l).mp hkey, ?_, huses⟩
    rw [start_addAll, start_ofProductions]
    exact (hpool l hl).1

/-- All symbols of the added production have been in the grammar before. -/
theorem drawn_of_extended_known :
    let g := (ofProductions ⟨'S'⟩ [(⟨'S'⟩, [⟨'x'⟩, ⟨'y'⟩, ⟨'z'⟩])]).addAll [(⟨'S'⟩, [⟨'x'⟩])]
    binarize ∈ [binarize, liftTerminals] ∧ ∃ g', g.binarize.outcome = .ok g' ∧
      ⟨'S'⟩ ∈ g.vocabulary ∧ ∀ w, g'.Generates ⟨'S'⟩ w ↔ g.Generates ⟨'S'⟩ w := by
  intro g
  obtain ⟨g', hg'⟩ := exists_of_toOption_isSome (x := g.binarize.outcome) (by decide +kernel)
  have hmem : binarize ∈ [binarize, liftTerminals] := List.mem_cons_self ..
  have hs : ⟨'S'⟩ ∈ g.vocabulary := by decide +kernel
  have hknown : ∀ l ∈ g.pool.letters, l ≠ ⟨'S'⟩ ∧ l ≠ ⟨'x'⟩ := by decide +kernel
  obtain ⟨drawn, hdrawn, htaken, hwords⟩ := drawn_of_extended ⟨'S'⟩
    [(⟨'S'⟩, [⟨'x'⟩, ⟨'y'⟩, ⟨'z'⟩])] [(⟨'S'⟩, [⟨'x'⟩])] binarize hmem g' hg'
  refine ⟨hmem, g', hg', hs, hwords (fun l hl hmentioned => ?_) ⟨'S'⟩ hs⟩
  obtain ⟨p, hp, hlp⟩ := (htaken l hl).mp hmentioned
  have hletter := hknown l (hdrawn ▸ List.mem_append_left _ hl)
  rw [List.mem_singleton.mp hp] at hlp
  simp only [List.mem_cons, List.not_mem_nil, or_false] at hlp
  exact hlp.elim hletter.1 hletter.2

/-- The left side `A` was added and is drawn all the same, so that `S` derives `xb` besides `xyz`. -/
theorem binarize_taken :
    let g := (ofProductions ⟨'S'⟩ [(⟨'S'⟩, [⟨'x'⟩, ⟨'y'⟩, ⟨'z'⟩])]).addAll [(⟨'A'⟩, [⟨'b'⟩])]
    ∃ g', g.binarize.outcome = .ok g' ∧ g.pool.letters = ⟨'A'⟩ :: g'.pool.letters ∧
      g.Mentions ⟨'A'⟩ ∧ g'.Generates ⟨'S'⟩ [⟨'x'⟩, ⟨'b'⟩] ∧ ¬g.Generates ⟨'S'⟩ [⟨'x'⟩, ⟨'b'⟩] := by
  intro g
  obtain ⟨g', hg'⟩ := exists_of_toOption_isSome (x := g.binarize.outcome) (by decide +kernel)
  have hpool : g'.pool.letters = g.pool.letters.tail :=
    eq_of_map_toOption hg' (fun g' => g'.pool.letters) (by decide +kernel)
  have hvocabulary : g'.vocabulary = OrderedSet.ofList [⟨'S'⟩, ⟨'A'⟩] :=
    eq_of_map_toOption hg' (fun g' => g'.vocabulary) (by decide +kernel)
  have hS : g'.alternatives ⟨'S'⟩ = [[⟨'x'⟩, ⟨'A'⟩]] :=
    eq_of_map_toOption hg' (fun g' => g'.alternatives ⟨'S'⟩) (by decide +kernel)
  have hA : g'.alternatives ⟨'A'⟩ = [[⟨'b'⟩], [⟨'y'⟩, ⟨'z'⟩]] :=
    eq_of_map_toOption hg' (fun g' => g'.alternatives ⟨'A'⟩) (by decide +kernel)
  have hwordA : g'.Generates ⟨'A'⟩ [⟨'b'⟩] := by
    refine .of_alternative (by rw [hvocabulary]; decide) (hA ▸ List.mem_cons_self ..) ?_
    exact .of_fixed (s := ⟨'b'⟩) (by rw [hvocabulary]; decide)
  have hwordS : g'.Generates ⟨'S'⟩ [⟨'x'⟩, ⟨'b'⟩] := by
    refine .of_alternative (by rw [hvocabulary]; decide) (hS ▸ List.mem_cons_self ..) ?_
    refine yields_pair_iff.mpr ⟨[⟨'x'⟩], _, rfl, ?_, hwordA⟩
    exact .of_fixed (s := ⟨'x'⟩) (by rw [hvocabulary]; decide)
  refine ⟨g', hg', ?_, .inl (by decide +kernel), hwordS, fun h => ?_⟩
  · rw [hpool]
    decide +kernel
  · obtain ⟨hfixed, _⟩ | ⟨_, rhs, hrhs, hw⟩ := yields_singleton_iff.mp h
    · exact hfixed (by decide +kernel)
    · have hold : g.alternatives ⟨'S'⟩ = [[⟨'x'⟩, ⟨'y'⟩, ⟨'z'⟩]] := by decide +kernel
      have hrhs' : rhs = [⟨'x'⟩, ⟨'y'⟩, ⟨'z'⟩] := List.mem_singleton.mp (hold ▸ hrhs)
      subst hrhs'
      have heq := hw.eq_flatMap_spelled (by decide +kernel)
      exact absurd heq (by decide)

end Grammar

end ChomskyForm
