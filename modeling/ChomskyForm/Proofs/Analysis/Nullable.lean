import ChomskyForm.Proofs.Analysis.Grounded

/-!
# Nullable symbols are those with a tree without a word

A derivation tree of the empty word consists of empty leaves and of nodes whose symbols are grounded
before the node above them (`DerivationTree.Follows.grounded`), and such trees can be put together for
every grounded symbol (`exists_children_of_grounded`).  Trees do not know the order of a table, so
neither do the nullable symbols.
-/

namespace ChomskyForm

/-- A symbol that is left standing, or one with the trees of a right side below it. -/
inductive DerivationTree where
  | leaf (s : Symbol)
  | node (s : Symbol) (children : List DerivationTree)

namespace DerivationTree

def root : DerivationTree → Symbol
  | leaf s => s
  | node s _ => s

/-- What the leaves spell, from left to right. -/
def word : DerivationTree → List Symbol
  | leaf s => s.spelled
  | node _ children => children.flatMap word

/-- Each node is expanded by a production of the table, and no key is left standing.  The empty marker
is never expanded, not even where it is a key. -/
inductive Follows (rules : RuleTable) : DerivationTree → Prop
  | leaf {s : Symbol} (fixed : s ∈ rules → s = Symbol.marker) : Follows rules (leaf s)
  | node {s : Symbol} {children : List DerivationTree} (expanded : s ≠ Symbol.marker)
      (choice : children.map root ∈ rules.alternatives s)
      (below : ∀ c ∈ children, Follows rules c) : Follows rules (node s children)

variable {rules : RuleTable}

theorem word_node_eq_nil_iff {s : Symbol} {children : List DerivationTree} :
    (node s children).word = [] ↔ ∀ c ∈ children, c.word = [] := by
  rw [word, List.flatMap_eq_nil_iff]

/-! ### From trees to the sweeps -/

theorem grounded_of_children {s : Symbol} {children : List DerivationTree}
    (choice : children.map root ∈ rules.alternatives s)
    (below : ∀ c ∈ children, c.root ≠ Symbol.marker →
      Grounded (fun s => s = Symbol.marker) rules c.root) :
    Grounded (fun s => s = Symbol.marker) rules s := by
  refine .intro choice fun t ht hbase => ?_
  obtain ⟨c, hc, rfl⟩ := List.mem_map.mp ht
  exact below c hc fun hmarker => hbase (decide_eq_true hmarker)

theorem Follows.grounded {t : DerivationTree} (h : t.Follows rules) (hword : t.word = [])
    (hroot : t.root ≠ Symbol.marker) : Grounded (fun s => s = Symbol.marker) rules t.root := by
  -- on the tree: the root is grounded because the roots below it are
  induction h with
  | leaf _ =>
    rw [word, Symbol.spelled_eq_nil_iff] at hword
    exact absurd hword hroot
  | node _ choice _ ih =>
    rw [word_node_eq_nil_iff] at hword
    exact grounded_of_children choice fun c hc => ih c hc (hword c hc)

/-! ### From the sweeps to trees -/

theorem exists_children {α : RightSide}
    (h : ∀ s ∈ α, ∃ t : DerivationTree, t.root = s ∧ t.Follows rules ∧ t.word = []) :
    ∃ children : List DerivationTree, children.map root = α ∧
      (∀ c ∈ children, c.Follows rules) ∧ ∀ c ∈ children, c.word = [] := by
  induction α with
  | nil => exact ⟨[], rfl, fun _ hc => absurd hc List.not_mem_nil,
      fun _ hc => absurd hc List.not_mem_nil⟩
  | cons s α ih =>
    rw [List.forall_mem_cons] at h
    obtain ⟨⟨t, hroot, hfollows, hword⟩, hrest⟩ := h
    obtain ⟨children, hroots, hall, hwords⟩ := ih hrest
    refine ⟨t :: children, ?_, ?_, ?_⟩
    · rw [List.map_cons, hroot, hroots]
    · exact List.forall_mem_cons.mpr ⟨hfollows, hall⟩
    · exact List.forall_mem_cons.mpr ⟨hword, hwords⟩

theorem exists_children_of_grounded {s : Symbol}
    (h : Grounded (fun s => s = Symbol.marker) rules s) :
    ∃ children : List DerivationTree, children.map root ∈ rules.alternatives s ∧
      (∀ c ∈ children, c.Follows rules) ∧ (node s children).word = [] := by
  induction h with
  | @intro s rhs choice _ ih =>
    have htrees : ∀ t ∈ rhs, ∃ d : DerivationTree, d.root = t ∧ d.Follows rules ∧ d.word = [] := by
      intro t ht
      by_cases hmarker : t = Symbol.marker
      · exact ⟨leaf t, rfl, .leaf fun _ => hmarker, by
          rw [word, Symbol.spelled_eq_nil_iff]
          exact hmarker⟩
      · obtain ⟨below, hchoice, hfollows, hword⟩ :=
          ih t ht fun hbase => hmarker (of_decide_eq_true hbase)
        exact ⟨node t below, rfl, .node hmarker hchoice hfollows, hword⟩
    obtain ⟨children, hroots, hfollows, hwords⟩ := exists_children htrees
    rw [← hroots] at choice
    exact ⟨children, choice, hfollows, word_node_eq_nil_iff.mpr hwords⟩

end DerivationTree

/-! ### The nullable symbols -/

theorem Grounded.of_forall_alternatives {base : Symbol → Bool} {rules rules' : RuleTable}
    (hsub : ∀ s, ∀ rhs ∈ rules.alternatives s, rhs ∈ rules'.alternatives s) {s : Symbol}
    (h : Grounded base rules s) : Grounded base rules' s := by
  induction h with
  | intro choice _ ih => exact .intro (hsub _ _ choice) ih

namespace RuleTable

variable {rules : RuleTable}

theorem mem_nullable_iff_exists_children {s : Symbol} :
    s ∈ rules.nullable ↔ ∃ children : List DerivationTree,
      children.map DerivationTree.root ∈ rules.alternatives s ∧
        (∀ c ∈ children, c.Follows rules) ∧ (DerivationTree.node s children).word = [] := by
  rw [nullable, mem_grounded_iff]
  constructor
  · exact DerivationTree.exists_children_of_grounded
  · rintro ⟨children, hchoice, hfollows, hword⟩
    rw [DerivationTree.word_node_eq_nil_iff] at hword
    exact DerivationTree.grounded_of_children hchoice fun c hc =>
      (hfollows c hc).grounded (hword c hc)

/-- The nullable symbols of a table are the keys with a derivation tree of the empty word, whatever the
length of the right sides.  Tables with the same productions, in whatever order the keys and the
alternatives stand, therefore have the same nullable symbols. -/
theorem mem_nullable_iff_exists_tree (rules : RuleTable) :
    (∀ s, s ∈ rules.nullable ↔ s ∈ rules ∧ ∃ children : List DerivationTree,
      children.map DerivationTree.root ∈ rules.alternatives s ∧
        (∀ c ∈ children, c.Follows rules) ∧ (DerivationTree.node s children).word = []) ∧
    ∀ rules' : RuleTable,
      (∀ s rhs, rhs ∈ rules'.alternatives s ↔ rhs ∈ rules.alternatives s) →
      ∀ s, s ∈ rules'.nullable ↔ s ∈ rules.nullable := by
  constructor
  · intro s
    rw [mem_nullable_iff_exists_children]
    refine (and_iff_right_of_imp ?_).symm
    rintro ⟨_, hchoice, _⟩
    exact mem_of_mem_alternatives hchoice
  · intro rules' hsame s
    rw [nullable, nullable, mem_grounded_iff, mem_grounded_iff]
    constructor
    · exact Grounded.of_forall_alternatives fun s rhs => (hsame s rhs).mp
    · exact Grounded.of_forall_alternatives fun s rhs => (hsame s rhs).mpr

/-- `S` and `A` go round in a circle; `B` has the empty right side, and `C` a marker beside it. -/
def roundProductions : List Production :=
  [(⟨'S'⟩, [⟨'A'⟩, ⟨'e'⟩, ⟨'C'⟩]), (⟨'A'⟩, [⟨'S'⟩]), (⟨'A'⟩, [⟨'B'⟩, ⟨'B'⟩]), (⟨'C'⟩, [⟨'e'⟩, ⟨'B'⟩]),
    (⟨'D'⟩, [⟨'A'⟩, ⟨'d'⟩]), (⟨'B'⟩, [])]

def roundTable : RuleTable := (Grammar.ofProductions ⟨'S'⟩ roundProductions).rules

def reversedTable : RuleTable := (Grammar.ofProductions ⟨'S'⟩ roundProductions.reverse).rules

theorem mem_nullable_iff_exists_tree_round :
    (∃ children : List DerivationTree,
      children.map DerivationTree.root ∈ roundTable.alternatives ⟨'S'⟩ ∧
        (∀ c ∈ children, c.Follows roundTable) ∧ (DerivationTree.node ⟨'S'⟩ children).word = []) ∧
    roundTable.nullable.toList = [⟨'B'⟩, ⟨'A'⟩, ⟨'C'⟩, ⟨'S'⟩] ∧
    reversedTable.nullable.toList = [⟨'B'⟩, ⟨'C'⟩, ⟨'A'⟩, ⟨'S'⟩] ∧
    ∀ s, s ∈ reversedTable.nullable ↔ s ∈ roundTable.nullable := by
  obtain ⟨htree, hsame⟩ := mem_nullable_iff_exists_tree roundTable
  refine ⟨((htree ⟨'S'⟩).mp (by decide +kernel)).2, by decide +kernel, by decide +kernel, ?_⟩
  refine hsame reversedTable fun s rhs => ?_
  have hround : rhs ∈ roundTable.alternatives s ↔ (s, rhs) ∈ roundProductions :=
    Grammar.mem_alternatives_ofProductions
  have hreversed : rhs ∈ reversedTable.alternatives s ↔ (s, rhs) ∈ roundProductions.reverse :=
    Grammar.mem_alternatives_ofProductions
  rw [hround, hreversed, List.mem_reverse]

end RuleTable

end ChomskyForm
