import ChomskyForm.Proofs.Coherence
import ChomskyForm.Proofs.GrammarFile.Reader

/-!
# Grammars that come from a file

A grammar that the reader returns has its start symbol among its left sides, no empty right side, and
the empty marker on right sides only, where it stands alone (`isReadable_of_ofBytes?`).
-/

namespace ChomskyForm

/-! ### Rules of files -/

namespace Rule

/-- The marker stands only alone. -/
def IsReadableSide (rhs : RightSide) : Prop :=
  rhs ≠ [] ∧ (Symbol.marker ∈ rhs → rhs = [Symbol.marker])

theorem isReadableSide_of_isAlternative {rhs : RightSide} (h : IsAlternative rhs) :
    IsReadableSide rhs := by
  refine ⟨h.ne_nil, fun hmarker => ?_⟩
  rcases h with h | ⟨_, h⟩
  · exact h
  · exact absurd rfl (h _ hmarker).2

/-- A rule that could be read has alternatives, and its left side is not the marker. -/
structure IsReadable (r : Rule) : Prop where
  lhs : r.lhs ≠ Symbol.marker
  nonempty : r.alternatives ≠ []
  sides : ∀ rhs ∈ r.alternatives, IsReadableSide rhs

theorem isReadable_of_spelledBy {line : List Char} {r : Rule} (h : r.SpelledBy line) :
    r.IsReadable := by
  obtain ⟨text, htext⟩ := h.exists_listedIn
  refine ⟨h.isLeftSide.2, htext.ne_nil, fun rhs hrhs => ?_⟩
  exact isReadableSide_of_isAlternative (htext.isAlternative rhs hrhs)

end Rule

theorem GrammarFile.exists_rules_of_ofBytes? {file : String} {bytes : Option (List UInt8)}
    {start : Option Symbol} {g : Grammar} (h : ofBytes? file bytes start = .ok g) :
    ∃ (s : Symbol) (rs : List Rule), g = Grammar.ofProductions s (rs.flatMap Rule.productions) ∧
      (∀ r ∈ rs, r.IsReadable) ∧ ∃ r ∈ rs, r.lhs = s := by
  cases bytes with
  | none => cases h
  | some bs =>
    obtain ⟨rs, hrs, s, _, ⟨_, hs⟩, hg⟩ := ofLines_eq_ok_iff.mp h
    refine ⟨s, rs, hg, fun r hr => ?_, hs⟩
    obtain ⟨line, hline⟩ := hrs.exists_spelledBy hr
    exact Rule.isReadable_of_spelledBy hline

/-! ### What is known of a grammar from a file -/

/-- What every grammar from a file is. -/
structure Grammar.IsReadable (g : Grammar) : Prop where
  coherent : g.Coherent
  markerAlone : g.MarkerAlone
  start_mem : g.start ∈ g.rules

theorem isReadable_of_ofBytes? {file : String} {bytes : Option (List UInt8)}
    {start : Option Symbol} {g : Grammar} (h : GrammarFile.ofBytes? file bytes start = .ok g) :
    g.IsReadable := by
  obtain ⟨s, rs, hg, hrs, r, hr, hs⟩ := GrammarFile.exists_rules_of_ofBytes? h
  subst hg
  have hproductions : ∀ p ∈ rs.flatMap Rule.productions,
      p.1 ≠ Symbol.marker ∧ Rule.IsReadableSide p.2 := by
    intro p hp
    obtain ⟨r', hr', hp⟩ := List.mem_flatMap.mp hp
    obtain ⟨rhs, hrhs, hp⟩ := List.mem_map.mp hp
    rw [← hp]
    exact ⟨(hrs r' hr').lhs, (hrs r' hr').sides rhs hrhs⟩
  refine ⟨Grammar.coherent_ofProductions fun p hp => (hproductions p hp).1, ?_, ?_⟩
  · intro lhs rhs hrhs
    exact (hproductions (lhs, rhs) (Grammar.mem_alternatives_ofProductions.mp hrhs)).2
  · rw [Grammar.start_ofProductions, Grammar.mem_rules_ofProductions, List.mem_map]
    have hnonempty : ∀ r ∈ rs, r.alternatives ≠ [] := fun r hr => (hrs r hr).nonempty
    exact (GrammarFile.exists_mem_flatMap_productions_iff hnonempty).mpr ⟨r, hr, hs⟩

/-! ### A sample

The start symbol of the file is recursive and has only unit productions, one of them in a cycle.
There are empty alternatives, a right side of three symbols, a symbol that derives the empty word
alone and one that derives no word. -/

def sampleText : String :=
  "S -> A | e\nA -> S | B\nB -> AA | aSb | AC | c\nC -> e\nD -> Dx\n"

def sampleGrammar : Grammar :=
  Grammar.ofProductions ⟨'S'⟩
    [(⟨'S'⟩, [⟨'A'⟩]), (⟨'S'⟩, [⟨'e'⟩]), (⟨'A'⟩, [⟨'S'⟩]), (⟨'A'⟩, [⟨'B'⟩]),
      (⟨'B'⟩, [⟨'A'⟩, ⟨'A'⟩]), (⟨'B'⟩, [⟨'a'⟩, ⟨'S'⟩, ⟨'b'⟩]), (⟨'B'⟩, [⟨'A'⟩, ⟨'C'⟩]),
      (⟨'B'⟩, [⟨'c'⟩]), (⟨'C'⟩, [⟨'e'⟩]), (⟨'D'⟩, [⟨'D'⟩, ⟨'x'⟩])]

theorem ofBytes?_sampleText :
    GrammarFile.ofBytes? "sample" (some (GrammarFile.encodeText sampleText.toList)) none =
      .ok sampleGrammar :=
  eq_ok_of_toOption_eq_some (by decide +kernel)

end ChomskyForm
