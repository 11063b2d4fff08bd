import ChomskyForm.Analysis.UnitClosure
import ChomskyForm.NormalForm.Failure

/-!
# Grammars without unit productions

Unit productions are dropped, and left sides that had no others with them.  To make up for it, each
`A → BC` is multiplied to all `A → B'C'` in which `B'` and `C'` may take the places of `B` and `C`.
-/

namespace ChomskyForm

/-- All right sides `lr` with `l` from the first list and `r` from the second, row by row. -/
def RightSide.pairs (lefts rights : List Symbol) : List RightSide :=
  lefts.flatMap fun l => rights.map fun r => [l, r]

theorem RightSide.mem_pairs {lefts rights : List Symbol} {rhs : RightSide} :
    rhs ∈ RightSide.pairs lefts rights ↔ ∃ l ∈ lefts, ∃ r ∈ rights, rhs = [l, r] := by
  simp only [RightSide.pairs, List.mem_flatMap, List.mem_map, eq_comm]

namespace Grammar

/-- Drops the unit productions, and then the entries that are empty; the start symbol keeps its. -/
def dropUnits (g : Grammar) : Grammar :=
  { g with
    rules := (g.rules.filterAlternatives fun rhs => !g.isUnit rhs).filter fun lhs rhss =>
      !rhss.isEmpty || lhs = g.start }

/-- The symbols that may take the place of `s`: the members of its closure for a nonterminal, just
itself for a terminal.  A nonterminal without an entry in the closure is a failure. -/
def substitutes (g : Grammar) (D : UnitClosure) (s : Symbol) :
    Except ConversionError (List Symbol) :=
  if g.isNonterminal s then
    match D.get? s with
    | some reached => .ok reached.toList
    | none => .error (.missingClosure s)
  else .ok [s]

/-- Adds every right side that a right side of two symbols stands for. -/
def addInstances (D : UnitClosure) (g : Grammar) : Production → Except ConversionError Grammar
  | (lhs, [left, right]) => do
    let lefts ← g.substitutes D left
    let rights ← g.substitutes D right
    pure (g.addAll ((RightSide.pairs lefts rights).map fun rhs => (lhs, rhs)))
  | _ => pure g

/-- Drops the unit productions and makes up for them by the closure `D`. -/
def eliminateUnits (g : Grammar) (D : UnitClosure) : Except ConversionError Grammar :=
  g.dropUnits.productions.foldlM (addInstances D) g.dropUnits

/-- What there is to tell about a closure. -/
def closureNotices (D : UnitClosure) : List Notice :=
  D.entries.map fun e => .closure e.1 e.2.toList

end Grammar

end ChomskyForm
