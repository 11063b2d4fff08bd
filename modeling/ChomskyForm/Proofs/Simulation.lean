import ChomskyForm.Grammar.Language
import ChomskyForm.Proofs.RuleTable
import Mathlib.Data.List.Forall2

/-!
# Carrying derivations from one table of rules to another

Every rewriting of a grammar replaces symbols in the right sides by other symbols, by longer right
sides or by nothing.  `Yields.simulate` carries a derivation along such a replacement, symbol by
symbol; `Yields.transfer` is the case in which every symbol stays as it is.  The inductions over
derivations that the stages of a conversion need are all instances of these two.
-/

namespace ChomskyForm

variable {N N' : Symbol → Prop} {rules rules' : RuleTable}

/-! ### Short right sides -/

theorem yields_nil_iff {w : List Symbol} : Yields N rules [] w ↔ w = [] := by
  constructor
  · intro h
    cases h
    rfl
  · intro h
    rw [h]
    exact .nil

theorem yields_singleton_iff {s : Symbol} {w : List Symbol} :
    Yields N rules [s] w ↔
      (¬N s ∧ w = s.spelled) ∨ (N s ∧ ∃ rhs ∈ rules.alternatives s, Yields N rules rhs w) := by
  constructor
  · intro h
    cases h with
    | terminal fixed tail =>
      rw [yields_nil_iff.mp tail, List.append_nil]
      exact Or.inl ⟨fixed, rfl⟩
    | nonterminal expanded choice head tail =>
      rw [yields_nil_iff.mp tail, List.append_nil]
      exact Or.inr ⟨expanded, _, choice, head⟩
  · intro h
    rcases h with ⟨fixed, hw⟩ | ⟨expanded, rhs, choice, head⟩
    · rw [hw, ← List.append_nil s.spelled]
      exact .terminal fixed .nil
    · rw [← List.append_nil w]
      exact .nonterminal expanded choice head .nil

theorem Yields.of_alternative {s : Symbol} {rhs : RightSide} {w : List Symbol} (expanded : N s)
    (choice : rhs ∈ rules.alternatives s) (h : Yields N rules rhs w) : Yields N rules [s] w :=
  yields_singleton_iff.mpr (Or.inr ⟨expanded, rhs, choice, h⟩)

theorem Yields.of_fixed {s : Symbol} (fixed : ¬N s) : Yields N rules [s] s.spelled :=
  yields_singleton_iff.mpr (Or.inl ⟨fixed, rfl⟩)

theorem yields_cons_iff {s : Symbol} {α : RightSide} {w : List Symbol} :
    Yields N rules (s :: α) w ↔
      ∃ u v, w = u ++ v ∧ Yields N rules [s] u ∧ Yields N rules α v :=
  @yields_append_iff N rules [s] α w

theorem yields_pair_iff {s t : Symbol} {w : List Symbol} :
    Yields N rules [s, t] w ↔
      ∃ u v, w = u ++ v ∧ Yields N rules [s] u ∧ Yields N rules [t] v := yields_cons_iff

/-! ### Simulation -/

namespace Yields

/-- A derivation from `α` becomes one from the right sides `βs` that may stand for the symbols of `α`
by `R`.  `Q` holds of the symbols that can turn up in the derivation. -/
theorem simulate (N' : Symbol → Prop) (rules' : RuleTable) {Q : Symbol → Prop}
    {R : Symbol → RightSide → Prop}
    (closed : ∀ s, Q s → N s → ∀ rhs ∈ rules.alternatives s, ∀ t ∈ rhs, Q t)
    (terminal : ∀ s, Q s → ¬N s → ∃ β, R s β ∧ Yields N' rules' β s.spelled)
    (nonterminal : ∀ s, Q s → N s → ∀ rhs ∈ rules.alternatives s, ∀ βs u, List.Forall₂ R rhs βs →
      Yields N' rules' βs.flatten u → ∃ β, R s β ∧ Yields N' rules' β u)
    {α : RightSide} {w : List Symbol} (h : Yields N rules α w) (hα : ∀ s ∈ α, Q s) :
    ∃ βs, List.Forall₂ R α βs ∧ Yields N' rules' βs.flatten w := by
  induction h with
  | nil => exact ⟨[], .nil, .nil⟩
  | @terminal s rest w fixed tail ih =>
    obtain ⟨β, hβ, hyield⟩ := terminal s (hα s (List.mem_cons_self ..)) fixed
    obtain ⟨βs, hβs, hrest⟩ := ih fun t ht => hα t (List.mem_cons_of_mem _ ht)
    exact ⟨β :: βs, .cons hβ hβs, hyield.append hrest⟩
  | @nonterminal s rhs rest u w expanded choice head tail ihHead ihTail =>
    have hs := hα s (List.mem_cons_self ..)
    obtain ⟨γs, hγs, hhead⟩ := ihHead (closed s hs expanded rhs choice)
    obtain ⟨β, hβ, hyield⟩ := nonterminal s hs expanded rhs choice γs u hγs hhead
    obtain ⟨βs, hβs, hrest⟩ := ihTail fun t ht => hα t (List.mem_cons_of_mem _ ht)
    exact ⟨β :: βs, .cons hβ hβs, hyield.append hrest⟩

/-- The case of a single symbol, where nothing restricts the symbols that can turn up. -/
theorem simulate_symbol (N' : Symbol → Prop) (rules' : RuleTable) {R : Symbol → RightSide → Prop}
    (terminal : ∀ s, ¬N s → ∃ β, R s β ∧ Yields N' rules' β s.spelled)
    (nonterminal : ∀ s, N s → ∀ rhs ∈ rules.alternatives s, ∀ βs u, List.Forall₂ R rhs βs →
      Yields N' rules' βs.flatten u → ∃ β, R s β ∧ Yields N' rules' β u)
    {s : Symbol} {w : List Symbol} (h : Yields N rules [s] w) :
    ∃ β, R s β ∧ Yields N' rules' β w := by
  obtain ⟨βs, hβs, hyield⟩ := simulate N' rules' (Q := fun _ => True) (R := R)
    (fun _ _ _ _ _ _ _ => trivial) (fun s _ => terminal s) (fun s _ => nonterminal s) h
    fun _ _ => trivial
  cases hβs with
  | @cons _ β _ _ hβ hrest =>
    cases hrest
    rw [List.flatten_singleton] at hyield
    exact ⟨β, hβ, hyield⟩

theorem flatten_eq_of_forall₂ {Q : Symbol → Prop} {α : RightSide} {βs : List RightSide}
    (h : List.Forall₂ (fun s β => β = [s] ∧ Q s) α βs) : βs.flatten = α ∧ ∀ s ∈ α, Q s := by
  induction h with
  | nil => exact ⟨rfl, fun s hs => absurd hs List.not_mem_nil⟩
  | @cons s β α βs hhead _ ih =>
    refine ⟨?_, ?_⟩
    · rw [List.flatten_cons, hhead.1, ih.1]
      rfl
    · intro t ht
      rcases List.mem_cons.mp ht with ht | ht
      · rw [ht]
        exact hhead.2
      · exact ih.2 t ht

/-- If each production of one table can be followed in the other, so can each derivation. -/
theorem transfer {Q : Symbol → Prop}
    (closed : ∀ s, Q s → N s → ∀ rhs ∈ rules.alternatives s, ∀ t ∈ rhs, Q t)
    (terminal : ∀ s, Q s → ¬N s → ¬N' s)
    (nonterminal : ∀ s, Q s → N s → ∀ rhs ∈ rules.alternatives s, ∀ u, Yields N' rules' rhs u →
      Yields N' rules' [s] u)
    {α : RightSide} {w : List Symbol} (h : Yields N rules α w) (hα : ∀ s ∈ α, Q s) :
    Yields N' rules' α w := by
  have hsim := simulate N' rules' (R := fun s β => β = [s] ∧ True) closed
    (fun s hs hfixed => ⟨[s], ⟨rfl, trivial⟩, of_fixed (terminal s hs hfixed)⟩)
    (fun s hs hexp rhs hrhs βs u hβs hu => by
      rw [(flatten_eq_of_forall₂ hβs).1] at hu
      exact ⟨[s], ⟨rfl, trivial⟩, nonterminal s hs hexp rhs hrhs u hu⟩) h hα
  obtain ⟨βs, hβs, hyield⟩ := hsim
  rw [(flatten_eq_of_forall₂ hβs).1] at hyield
  exact hyield

/-- The symbols are replaced by a function. -/
theorem expand {φ : Symbol → RightSide}
    (terminal : ∀ s, ¬N s → Yields N' rules' (φ s) s.spelled)
    (nonterminal : ∀ s, N s → ∀ rhs ∈ rules.alternatives s, ∀ u,
      Yields N' rules' (rhs.flatMap φ) u → Yields N' rules' (φ s) u)
    {α : RightSide} {w : List Symbol} (h : Yields N rules α w) :
    Yields N' rules' (α.flatMap φ) w := by
  have hmap : ∀ (α : RightSide) (βs : List RightSide), List.Forall₂ (fun s β => β = φ s) α βs →
      βs.flatten = α.flatMap φ := by
    intro α βs hβs
    induction hβs with
    | nil => rfl
    | cons hhead _ ih => rw [List.flatten_cons, List.flatMap_cons, hhead, ih]
  have hsim := simulate N' rules' (Q := fun _ => True)
    (R := fun s β => β = φ s) (fun _ _ _ _ _ _ _ => trivial)
    (fun s _ hfixed => ⟨φ s, rfl, terminal s hfixed⟩)
    (fun s _ hexp rhs hrhs βs u hβs hu => by
      rw [hmap rhs βs hβs] at hu
      exact ⟨φ s, rfl, nonterminal s hexp rhs hrhs u hu⟩) h fun _ _ => trivial
  obtain ⟨βs, hβs, hyield⟩ := hsim
  rw [hmap α βs hβs] at hyield
  exact hyield

/-- More alternatives derive more words. -/
theorem mono {α : RightSide} {w : List Symbol} (h : Yields N rules α w)
    (hsub : ∀ s, ∀ rhs ∈ rules.alternatives s, rhs ∈ rules'.alternatives s) :
    Yields N rules' α w :=
  transfer (Q := fun _ => True) (fun _ _ _ _ _ _ _ => trivial) (fun _ _ hfixed => hfixed)
    (fun s _ hexp rhs hrhs _ hu => of_alternative hexp (hsub s rhs hrhs) hu) h fun _ _ => trivial

end Yields

/-! ### Dropping symbols that derive nothing -/

/-- What it takes to drop the symbols `X` from a table: each of their alternatives mentions one of
them, and the other table has what is left of the alternatives that mention none. -/
structure Drops (X : Symbol → Prop) (N N' : Symbol → Prop) (rules rules' : RuleTable) : Prop where
  expanded : ∀ s, X s → N s
  blocked : ∀ s, X s → ∀ rhs ∈ rules.alternatives s, ∃ t ∈ rhs, X t
  kept : ∀ s, ¬X s → ∀ rhs ∈ rules.alternatives s, (∀ t ∈ rhs, ¬X t) → rhs ∈ rules'.alternatives s
  only : ∀ s, ∀ rhs ∈ rules'.alternatives s, rhs ∈ rules.alternatives s ∧ ∀ t ∈ rhs, ¬X t
  sameKind : ∀ s, ¬X s → (N' s ↔ N s)

namespace Drops

variable {X : Symbol → Prop}

theorem yields_of_yields (d : Drops X N N' rules rules') {α : RightSide} {w : List Symbol}
    (h : Yields N rules α w) : (∀ s ∈ α, ¬X s) ∧ Yields N' rules' α w := by
  have hsim := Yields.simulate N' rules' (Q := fun _ => True)
    (R := fun s β => β = [s] ∧ ¬X s) (fun _ _ _ _ _ _ _ => trivial)
    (fun s _ hfixed => by
      have hX : ¬X s := fun hX => hfixed (d.expanded s hX)
      exact ⟨[s], ⟨rfl, hX⟩, Yields.of_fixed fun hN' => hfixed ((d.sameKind s hX).mp hN')⟩)
    (fun s _ hexp rhs hrhs βs u hβs hu => by
      obtain ⟨hflat, hfree⟩ := Yields.flatten_eq_of_forall₂ hβs
      rw [hflat] at hu
      have hX : ¬X s := by
        intro hX
        obtain ⟨t, ht, hXt⟩ := d.blocked s hX rhs hrhs
        exact hfree t ht hXt
      have hrule := d.kept s hX rhs hrhs hfree
      exact ⟨[s], ⟨rfl, hX⟩, Yields.of_alternative ((d.sameKind s hX).mpr hexp) hrule hu⟩)
    h fun _ _ => trivial
  obtain ⟨βs, hβs, hyield⟩ := hsim
  obtain ⟨hflat, hfree⟩ := Yields.flatten_eq_of_forall₂ hβs
  rw [hflat] at hyield
  exact ⟨hfree, hyield⟩

theorem yields_iff (d : Drops X N N' rules rules') {α : RightSide} {w : List Symbol}
    (hα : ∀ s ∈ α, ¬X s) : Yields N' rules' α w ↔ Yields N rules α w := by
  constructor
  · intro h
    refine Yields.transfer (Q := fun s => ¬X s) ?_ ?_ ?_ h hα
    · intro s _ _ rhs hrhs
      exact (d.only s rhs hrhs).2
    · intro s hX hfixed hN
      exact hfixed ((d.sameKind s hX).mpr hN)
    · intro s hX hexp rhs hrhs u hu
      exact Yields.of_alternative ((d.sameKind s hX).mp hexp) (d.only s rhs hrhs).1 hu
  · intro h
    exact (d.yields_of_yields h).2

theorem not_yields (d : Drops X N N' rules rules') {s : Symbol} {w : List Symbol} (hX : X s) :
    ¬Yields N rules [s] w := by
  intro h
  exact (d.yields_of_yields h).1 s (List.mem_singleton.mpr rfl) hX

theorem alternatives_eq_nil (d : Drops X N N' rules rules') {s : Symbol} (hX : X s) :
    rules'.alternatives s = [] := by
  rw [List.eq_nil_iff_forall_not_mem]
  intro rhs hrhs
  obtain ⟨hold, hfree⟩ := d.only s rhs hrhs
  obtain ⟨t, ht, hXt⟩ := d.blocked s hX rhs hold
  exact hfree t ht hXt

/-- A symbol that is dropped but stays a nonterminal derives nothing before and after. -/
theorem yields_symbol_iff (d : Drops X N N' rules rules') {s : Symbol} {w : List Symbol}
    (hs : X s → N' s) : Yields N' rules' [s] w ↔ Yields N rules [s] w := by
  by_cases hX : X s
  · have hold := d.not_yields (w := w) hX
    have hnew : ¬Yields N' rules' [s] w := by
      rw [yields_singleton_iff, d.alternatives_eq_nil hX]
      intro h
      rcases h with ⟨hfixed, _⟩ | ⟨_, rhs, hrhs, _⟩
      · exact hfixed (hs hX)
      · exact List.not_mem_nil hrhs
    exact iff_of_false hnew hold
  · refine d.yields_iff ?_
    intro t ht
    rw [List.mem_singleton.mp ht]
    exact hX

end Drops

end ChomskyForm
