import ChomskyForm.LetterPool
import ChomskyForm.OrderedMap

/-!
# Context-free grammars

A grammar is a start symbol, a table of alternatives, a vocabulary and the letters that are still
free.  The vocabulary says which symbols are nonterminals: those that ever were a left side and the
letters drawn for new nonterminals.  A symbol may be a nonterminal without having an entry in the
table.
-/

namespace ChomskyForm

/-- For each left side its alternatives, both in the order in which they came. -/
abbrev RuleTable := OrderedMap Symbol (List RightSide)

/-- One alternative together with its left side. -/
abbrev Production := Symbol × RightSide

namespace RuleTable

/-- The alternatives of a symbol; none if it is no left side. -/
def alternatives (rules : RuleTable) (lhs : Symbol) : List RightSide := (rules.get? lhs).getD []

/-- All productions, in table order and for each left side in list order. -/
def productions (rules : RuleTable) : List Production :=
  rules.entries.flatMap fun e => e.2.map fun rhs => (e.1, rhs)

theorem mem_productions {rules : RuleTable} {lhs : Symbol} {rhs : RightSide} :
    (lhs, rhs) ∈ rules.productions ↔ ∃ e ∈ rules.entries, e.1 = lhs ∧ rhs ∈ e.2 := by
  simp only [productions, List.mem_flatMap, List.mem_map, Prod.mk.injEq]
  constructor
  · rintro ⟨e, he, r, hr, rfl, rfl⟩
    exact ⟨e, he, rfl, hr⟩
  · rintro ⟨e, he, rfl, hr⟩
    exact ⟨e, he, rhs, hr, rfl, rfl⟩

def has (rules : RuleTable) (lhs : Symbol) (rhs : RightSide) : Bool := rhs ∈ alternatives rules lhs

theorem has_eq_true_iff {rules : RuleTable} {lhs : Symbol} {rhs : RightSide} :
    has rules lhs rhs = true ↔ rhs ∈ alternatives rules lhs := decide_eq_true_iff

/-- Makes sure that a symbol has an entry. -/
def withKey (rules : RuleTable) (lhs : Symbol) : RuleTable :=
  rules.insert lhs (alternatives rules lhs)

/-- Adds an alternative at the end of its left side's list unless it is there already. -/
def add (rules : RuleTable) (lhs : Symbol) (rhs : RightSide) : RuleTable :=
  let present := alternatives rules lhs
  rules.insert lhs (if has rules lhs rhs then present else present ++ [rhs])

/-- Keeps the productions that pass the test; every key stays. -/
def filterAlternatives (rules : RuleTable) (p : RightSide → Bool) : RuleTable :=
  rules.mapValues fun _ rhss => rhss.filter p

/-- Keeps the keys that pass the test, with all their alternatives. -/
def filterKeys (rules : RuleTable) (p : Symbol → Bool) : RuleTable :=
  rules.filter fun lhs _ => p lhs

theorem alternatives_add_self (rules : RuleTable) (lhs : Symbol) (rhs : RightSide) :
    alternatives (add rules lhs rhs) lhs =
      if has rules lhs rhs then alternatives rules lhs
      else alternatives rules lhs ++ [rhs] := by
  rw [alternatives, add, OrderedMap.get?_insert_self]
  rfl

theorem alternatives_add_of_ne (rules : RuleTable) {lhs s : Symbol} (rhs : RightSide)
    (h : s ≠ lhs) : alternatives (add rules lhs rhs) s = alternatives rules s := by
  rw [alternatives, add, OrderedMap.get?_insert_of_ne _ _ h]
  rfl

end RuleTable

/-- A context-free grammar with the letters left for new nonterminals. -/
structure Grammar where
  start : Symbol
  rules : RuleTable
  vocabulary : OrderedSet Symbol
  pool : LetterPool
deriving DecidableEq

namespace Grammar

/-! ### Reading a grammar -/

def alternatives (g : Grammar) (lhs : Symbol) : List RightSide := g.rules.alternatives lhs

def has (g : Grammar) (lhs : Symbol) (rhs : RightSide) : Bool := g.rules.has lhs rhs

def productions (g : Grammar) : List Production := g.rules.productions

def productionCount (g : Grammar) : Nat := g.productions.length

def isNonterminal (g : Grammar) (s : Symbol) : Bool := s ∈ g.vocabulary

theorem isNonterminal_eq_true_iff {g : Grammar} {s : Symbol} :
    g.isNonterminal s = true ↔ s ∈ g.vocabulary := decide_eq_true_iff

/-- Whether a right side is one nonterminal. -/
def isUnit (g : Grammar) : RightSide → Bool
  | [s] => g.isNonterminal s
  | _ => false

theorem isUnit_eq_true_iff {g : Grammar} {rhs : RightSide} :
    g.isUnit rhs = true ↔ ∃ s ∈ g.vocabulary, rhs = [s] := by
  match rhs with
  | [] => simp only [isUnit, Bool.false_eq_true, List.nil_eq, reduceCtorEq, and_false, exists_false]
  | [s] =>
    rw [isUnit, isNonterminal_eq_true_iff]
    constructor
    · exact fun h => ⟨s, h, rfl⟩
    · rintro ⟨t, ht, h⟩
      cases h
      exact ht
  | s :: t :: rest =>
    simp only [isUnit, Bool.false_eq_true, List.cons.injEq, reduceCtorEq, and_false, exists_false]

/-! ### Extending a grammar -/

/-- Adds a production; the left side joins the vocabulary even if the production is not new. -/
def add (g : Grammar) (lhs : Symbol) (rhs : RightSide) : Grammar :=
  { g with rules := g.rules.add lhs rhs, vocabulary := g.vocabulary.insert lhs }

def addAll (g : Grammar) (ps : List Production) : Grammar :=
  ps.foldl (fun g p => g.add p.1 p.2) g

/-- Takes the next free letter and makes it a nonterminal. -/
def draw (g : Grammar) : Option (Symbol × Grammar) :=
  g.pool.draw.map fun (s, rest) => (s, { g with vocabulary := g.vocabulary.insert s, pool := rest })

theorem addAll_append (g : Grammar) (ps qs : List Production) :
    g.addAll (ps ++ qs) = (g.addAll ps).addAll qs := List.foldl_append

/-- The grammar with the given productions, in their order.  Its pool holds the letters that occur
neither in them nor as the start symbol. -/
def ofProductions (start : Symbol) (ps : List Production) : Grammar :=
  addAll
    { start
      rules := ∅
      vocabulary := ∅
      pool := LetterPool.excluding (start :: ps.flatMap fun p => p.1 :: p.2) }
    ps

/-! ### Comparing without the order of symbols -/

/-- Two grammars agree up to the order of their left sides and of their vocabularies; the order of
the alternatives of one left side counts.  Two pools with the same letters are equal. -/
def SameUpToOrder (g h : Grammar) : Prop :=
  g.start = h.start ∧ g.rules.SameEntries h.rules ∧ g.vocabulary.SameMembers h.vocabulary ∧
    g.pool = h.pool

instance (g h : Grammar) : Decidable (g.SameUpToOrder h) := inferInstanceAs (Decidable (_ ∧ _))

end Grammar

end ChomskyForm
