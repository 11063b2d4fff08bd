import ChomskyForm.Proofs.Rebuild
import ChomskyForm.Saturation

/-!
# Putting productions back in the place of their left sides

Letters that have one production each can be replaced by it wherever they stand, until none is left.
If the letters of a table stand for pieces of the right sides of another one (`ReadsAs`), and each leads
to letters of a lower rank only (`Unfolds`), this gives the other table back (`Unfolds.inlined_eq`).
-/

namespace ChomskyForm

namespace RuleTable

/-- Replaces each of the letters by its production. -/
def inlineOnce (rules : RuleTable) (letters : List Symbol) (rhs : RightSide) : RightSide :=
  rhs.flatMap fun s => if s ∈ letters then (rules.alternatives s).flatten else [s]

/-- Replaces the letters until none is left.  If no letter leads back to itself, this takes no more
rounds than there are letters. -/
def inline (rules : RuleTable) (letters : List Symbol) (rhs : RightSide) : RightSide :=
  saturate (rules.inlineOnce letters) letters.length rhs

/-- The table without the entries of the letters, which are replaced in all other entries. -/
def inlined (rules : RuleTable) (letters : List Symbol) : RuleTable :=
  (rules.filterKeys (· ∉ letters)).mapValues fun _ rhss => rhss.map (rules.inline letters)

/-! ### Entries that are read as those of another table -/

/-- Reading each symbol by `φ` turns the entries into those of the table `old`. -/
def ReadsAs (φ : Symbol → RightSide) (es : List (Symbol × List RightSide)) (old : RuleTable) : Prop :=
  es.map (fun e => (e.1, e.2.map fun rhs => rhs.flatMap φ)) = old.entries

section

variable {φ : Symbol → RightSide} {es added : List (Symbol × List RightSide)} {old : RuleTable}

theorem ReadsAs.map_fst (h : ReadsAs φ es old) : es.map Prod.fst = old.keys := by
  rw [OrderedMap.keys, ← h, List.map_map]
  rfl

/-- Where no alternative of the old table is repeated, none is of a table that is read as it. -/
theorem ReadsAs.entries_ofEntries (h : ReadsAs φ es old) (hold : old.Distinct)
    (hnodup : (added.map Prod.fst).Nodup) (hnew : ∀ l ∈ added.map Prod.fst, l ∉ old)
    (hone : ∀ e ∈ added, ∃ rhs, e.2 = [rhs]) : (ofEntries (es ++ added)).entries = es ++ added := by
  refine RuleTable.entries_ofEntries ?_ fun e he => ?_
  · rw [List.map_append, h.map_fst]
    refine List.nodup_append.mpr ⟨old.nodup, hnodup, ?_⟩
    intro s hs l hl heq
    rw [heq] at hs
    exact hnew l hl hs
  · rcases List.mem_append.mp he with he | he
    · have hentry : (e.1, e.2.map fun rhs => rhs.flatMap φ) ∈ old.entries := by
        rw [← h]
        exact List.mem_map_of_mem he
      have hread := hold e.1
      rw [alternatives_of_mem_entries hentry] at hread
      exact hread.of_map
    · obtain ⟨rhs, heq⟩ := hone e he
      rw [heq]
      exact List.nodup_singleton rhs

end

/-! ### Letters with one production -/

/-- Each letter has one production and stands for the piece that `φ` tells. -/
structure Unfolds (rules : RuleTable) (letters : List Symbol) (φ : Symbol → RightSide)
    (rank : Symbol → Nat) : Prop where
  self : ∀ s, s ∉ letters → φ s = [s]
  rule : ∀ l ∈ letters, ∃ rhs, rules.alternatives l = [rhs] ∧ rhs.flatMap φ = φ l ∧
    ∀ t ∈ rhs, t ∈ letters → rank t < rank l
  rank_lt : ∀ l ∈ letters, rank l < letters.length

namespace Unfolds

variable {rules : RuleTable} {letters : List Symbol} {φ : Symbol → RightSide} {rank : Symbol → Nat}

theorem flatMap_eq_self (h : Unfolds rules letters φ rank) {rhs : RightSide}
    (hrhs : ∀ s ∈ rhs, s ∉ letters) : rhs.flatMap φ = rhs := by
  rw [List.flatMap_congr fun s hs => h.self s (hrhs s hs)]
  exact List.flatMap_singleton' _

/-- One round does not change what a right side stands for. -/
theorem flatMap_inlineOnce (h : Unfolds rules letters φ rank) (rhs : RightSide) :
    (rules.inlineOnce letters rhs).flatMap φ = rhs.flatMap φ := by
  rw [inlineOnce, List.flatMap_assoc]
  refine List.flatMap_congr fun s _ => ?_
  by_cases hs : s ∈ letters
  · obtain ⟨whole, hrule, hwhole, _⟩ := h.rule s hs
    rw [if_pos hs, hrule, List.flatten_singleton, hwhole]
  · rw [if_neg hs, List.flatMap_singleton]

/-- The letters that are left after one round have a lower rank. -/
theorem rank_lt_of_mem_inlineOnce (h : Unfolds rules letters φ rank) {rhs : RightSide} {n : Nat}
    (hrank : ∀ t ∈ rhs, t ∈ letters → rank t < n + 1) {t : Symbol}
    (ht : t ∈ rules.inlineOnce letters rhs) (hletter : t ∈ letters) : rank t < n := by
  obtain ⟨s, hs, ht⟩ := List.mem_flatMap.mp ht
  by_cases hmem : s ∈ letters
  · obtain ⟨whole, hrule, _, hlower⟩ := h.rule s hmem
    rw [if_pos hmem, hrule, List.flatten_singleton] at ht
    have hbelow := hlower t ht hletter
    have habove := hrank s hs hmem
    omega
  · rw [if_neg hmem, List.mem_singleton] at ht
    exact absurd (ht ▸ hletter) hmem

theorem saturate_inlineOnce (h : Unfolds rules letters φ rank) {rhs : RightSide} {n : Nat}
    (hrank : ∀ t ∈ rhs, t ∈ letters → rank t < n) :
    saturate (rules.inlineOnce letters) n rhs = rhs.flatMap φ := by
  induction n generalizing rhs with
  | zero =>
    refine (h.flatMap_eq_self fun s hs hletter => ?_).symm
    exact absurd (hrank s hs hletter) (Nat.not_lt_zero _)
  | succ n ih =>
    rw [saturate_succ, ih fun t ht hletter => h.rank_lt_of_mem_inlineOnce hrank ht hletter,
      h.flatMap_inlineOnce]

theorem inline_eq (h : Unfolds rules letters φ rank) (rhs : RightSide) :
    rules.inline letters rhs = rhs.flatMap φ :=
  h.saturate_inlineOnce fun t _ hletter => h.rank_lt t hletter

/-- A table comes back if entries that are read as its own are followed by those of the letters. -/
theorem inlined_eq (h : Unfolds rules letters φ rank) {old : RuleTable}
    {es added : List (Symbol × List RightSide)} (hentries : rules.entries = es ++ added)
    (hread : ReadsAs φ es old) (hadded : added.map Prod.fst = letters)
    (hnew : ∀ l ∈ letters, l ∉ old) : rules.inlined letters = old := by
  have hkept : rules.entries.filter (fun e => e.1 ∉ letters) = es := by
    rw [hentries, List.filter_append, List.filter_eq_self.mpr, List.filter_eq_nil_iff.mpr,
      List.append_nil]
    · intro e he
      have hletter : e.1 ∈ letters := by
        rw [← hadded]
        exact List.mem_map_of_mem he
      simp only [hletter, not_true_eq_false, decide_false, Bool.false_eq_true, not_false_eq_true]
    · intro e he
      have hold : e.1 ∈ old := by
        rw [← OrderedMap.mem_keys, ← hread.map_fst]
        exact List.mem_map_of_mem he
      exact decide_eq_true fun hletter => hnew e.1 hletter hold
  refine OrderedMap.ext ?_
  show (rules.entries.filter fun e => e.1 ∉ letters).map
    (fun e => (e.1, e.2.map (rules.inline letters))) = old.entries
  rw [hkept, ← hread]
  refine List.map_congr_left fun e _ => ?_
  rw [List.map_congr_left fun rhs _ => h.inline_eq rhs]

end Unfolds

end RuleTable

end ChomskyForm
