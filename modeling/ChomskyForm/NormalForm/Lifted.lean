import ChomskyForm.NormalForm.Failure

/-!
# Right sides of two nonterminals

A terminal in a right side of two symbols is replaced by a new nonterminal that derives just this
terminal: `A → aB` becomes `A → TB` with `T → a`.  All uses of a terminal share its stand-in, and
the productions of the stand-ins follow the table.
-/

namespace ChomskyForm

/-- For each lifted terminal the nonterminal that stands for it. -/
abbrev StandIns := OrderedMap Symbol Symbol

namespace Grammar

/-- The nonterminal to write for a symbol of a production of `lhs`: a nonterminal itself, for a
terminal its stand-in, drawn at its first use. -/
def lift (lhs : Symbol) (s : Symbol) (state : Grammar × StandIns) :
    Noted ConversionError (Symbol × Grammar × StandIns) :=
  let (g, standIns) := state
  if g.isNonterminal s then pure (s, g, standIns)
  else
    match standIns.get? s with
    | some t => pure (t, g, standIns)
    | none => do
      let (t, g) ← g.drawFor lhs (.standsIn · s)
      pure (t, g, standIns.insert s t)

/-- Adds an alternative, lifted if it has two symbols. -/
def addLifted (lhs : Symbol) (state : Grammar × StandIns) :
    RightSide → Noted ConversionError (Grammar × StandIns)
  | [left, right] => do
    let (left, state) ← lift lhs left state
    let (right, g, standIns) ← lift lhs right state
    pure (g.add lhs [left, right], standIns)
  | rhs => pure (state.1.add lhs rhs, state.2)

def addAllLifted (lhs : Symbol) (rhss : List RightSide) (state : Grammar × StandIns) :
    Noted ConversionError (Grammar × StandIns) :=
  rhss.foldlM (addLifted lhs) ({ state.1 with rules := state.1.rules.withKey lhs }, state.2)

/-- Replaces the terminals in right sides of two symbols by nonterminals. -/
def liftTerminals (g : Grammar) : Noted ConversionError Grammar := do
  let (lifted, standIns) ← g.rules.entries.foldlM (fun state e => addAllLifted e.1 e.2 state)
    ({ g with rules := ∅ }, ∅)
  pure (lifted.addAll (standIns.entries.map fun (s, t) => (t, [s])))

end Grammar

end ChomskyForm
