import ChomskyForm.Grammar.Basic

/-!
# Notices

What the reader and the stages of a conversion have to say about their work is a list of notices,
kept beside the result of the work.  Notices made before a failure are kept.
-/

namespace ChomskyForm

/-- Something worth telling about reading or converting a grammar. -/
inductive Notice where
  /-- A file was read. -/
  | read (productions : Nat) (file : String)
  /-- A conversion begins. -/
  | converting (productions letters : Nat)
  /-- A letter was drawn to shorten a right side. -/
  | drew (letter : Symbol) (lhs : Symbol) (rhs : RightSide)
  /-- The symbols that derive the empty string. -/
  | nullable (symbols : List Symbol)
  /-- The start symbol derives the empty string, which the result cannot. -/
  | startNullable (start : Symbol)
  /-- A symbol is dropped because it has no production left. -/
  | withoutProductions (s : Symbol)
  /-- The nonterminals that a symbol reaches through unit productions. -/
  | closure (s : Symbol) (reached : List Symbol)
  /-- A production was copied into the start symbol. -/
  | copied (source start : Symbol)
  /-- A letter was drawn to stand for a terminal. -/
  | standsIn (letter terminal : Symbol)
  /-- The nonterminals that derive no word. -/
  | unproductive (symbols : List Symbol)
  /-- The left sides that the start symbol reaches. -/
  | reachable (symbols : List Symbol)
  /-- The result has no word at all. -/
  | generatesNothing (start : Symbol)
deriving DecidableEq

/-- How much a notice matters to the user. -/
inductive Notice.Level where
  | detail
  | warning
deriving DecidableEq

namespace Notice

/-- A notice is a warning if the result may not be what the user expects. -/
def level : Notice → Level
  | startNullable _ => .warning
  | generatesNothing _ => .warning
  | _ => .detail

def text : Notice → String
  | read n file => s!"Read {n} productions from {file}"
  | converting n letters => s!"Converting {n} productions, {letters} letters free"
  | drew letter lhs rhs => s!"Drew `{letter}` for `{lhs}->{RightSide.text rhs}`"
  | nullable ss => s!"Nullable symbols: \x7b{Symbol.listed ss}\x7d"
  | startNullable s =>
    s!"Start symbol `{s}` derives the empty string, which cannot be kept in normal form"
  | withoutProductions s => s!"`{s}` has no productions left"
  | closure s reached => s!"D({s}) = \x7b{Symbol.listed reached}\x7d"
  | copied source start => s!"Copied a production of `{source}` into `{start}`"
  | standsIn letter terminal => s!"`{letter}` stands in for terminal `{terminal}`"
  | unproductive ss => s!"Unproductive: \x7b{Symbol.listed ss}\x7d"
  | reachable ss => s!"Reachable: \x7b{Symbol.listed ss}\x7d"
  | generatesNothing s =>
    s!"Start symbol `{s}` has no productions; the grammar generates nothing"

end Notice

/-- The outcome of some work, with the notices made on the way. -/
structure Noted (ε α : Type) where
  notices : List Notice
  outcome : Except ε α

namespace Noted

variable {ε α β : Type}

@[ext] theorem ext {x y : Noted ε α} (h : x.notices = y.notices) (h' : x.outcome = y.outcome) :
    x = y := by
  cases x
  cases y
  cases h
  cases h'
  rfl

/-- Goes on with the result of `x`; a failure ends the work. -/
def bind (x : Noted ε α) (f : α → Noted ε β) : Noted ε β :=
  match x.outcome with
  | .error e => ⟨x.notices, .error e⟩
  | .ok a => ⟨x.notices ++ (f a).notices, (f a).outcome⟩

instance : Monad (Noted ε) where
  pure a := ⟨[], .ok a⟩
  bind := bind

def note (n : Notice) : Noted ε Unit := ⟨[n], .ok ()⟩

def fail (e : ε) : Noted ε α := ⟨[], .error e⟩

/-- Takes over a result that was found without notices. -/
def ofExcept (x : Except ε α) : Noted ε α := ⟨[], x⟩

theorem outcome_bind (x : Noted ε α) (f : α → Noted ε β) :
    (x >>= f).outcome = x.outcome >>= fun a => (f a).outcome := by
  obtain ⟨ns, r⟩ := x
  cases r with
  | error e => rfl
  | ok a => rfl

theorem bind_of_ok {x : Noted ε α} {a : α} (h : x.outcome = .ok a) (f : α → Noted ε β) :
    x >>= f = ⟨x.notices ++ (f a).notices, (f a).outcome⟩ := by
  show bind x f = _
  rw [bind, h]

instance : LawfulMonad (Noted ε) := LawfulMonad.mk' (Noted ε)
  (fun x => by
    obtain ⟨ns, r⟩ := x
    cases r with
    | error e => rfl
    | ok a => exact ext (List.append_nil ns) rfl)
  (fun _ _ => rfl)
  (fun x f g => by
    obtain ⟨ns, r⟩ := x
    cases r with
    | error e => rfl
    | ok a =>
      show bind ⟨ns ++ (f a).notices, (f a).outcome⟩ g = bind ⟨ns, .ok a⟩ fun a => bind (f a) g
      simp only [bind]
      cases (f a).outcome with
      | error e => rfl
      | ok b => exact ext (List.append_assoc ..) rfl)

/-- The outcome of a fold is the fold of the outcomes. -/
theorem outcome_foldlM {γ : Type} (f : β → γ → Noted ε β) (b : β) (cs : List γ) :
    (cs.foldlM f b).outcome = cs.foldlM (fun b c => (f b c).outcome) b := by
  induction cs generalizing b with
  | nil => rfl
  | cons c cs ih =>
    rw [List.foldlM_cons, List.foldlM_cons, outcome_bind]
    exact congrArg _ (funext fun b' => ih b')

end Noted

end ChomskyForm
