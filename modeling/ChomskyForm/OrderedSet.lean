/-!
# Sets that remember the order of arrival

An `OrderedSet` is a list without repetitions: a new member goes to the end, and a member that is
already there keeps its place.  Order is part of the value (`toList`); `SameMembers` compares two
sets without it.
-/

namespace ChomskyForm

/-- A finite set whose members are listed in the order in which they were first inserted. -/
structure OrderedSet (α : Type) where
  toList : List α
  nodup : toList.Nodup
deriving DecidableEq

namespace OrderedSet

variable {α : Type}

instance : EmptyCollection (OrderedSet α) := ⟨⟨[], List.nodup_nil⟩⟩

instance : Inhabited (OrderedSet α) := ⟨∅⟩

instance : Membership α (OrderedSet α) := ⟨fun s a => a ∈ s.toList⟩

instance [DecidableEq α] (a : α) (s : OrderedSet α) : Decidable (a ∈ s) :=
  inferInstanceAs (Decidable (a ∈ s.toList))

theorem mem_toList {s : OrderedSet α} {a : α} : a ∈ s.toList ↔ a ∈ s := Iff.rfl

@[ext] theorem ext {s t : OrderedSet α} (h : s.toList = t.toList) : s = t := by
  cases s
  cases t
  cases h
  rfl

@[simp] theorem toList_empty : (∅ : OrderedSet α).toList = [] := rfl

def size (s : OrderedSet α) : Nat := s.toList.length

/-! ### Growing -/

def singleton (a : α) : OrderedSet α := ⟨[a], List.pairwise_singleton _ a⟩

@[simp] theorem toList_singleton (a : α) : (singleton a).toList = [a] := rfl

variable [DecidableEq α]

/-- Puts `a` at the end unless it is a member already. -/
def insert (s : OrderedSet α) (a : α) : OrderedSet α :=
  if h : a ∈ s then s
  else ⟨s.toList ++ [a], List.nodup_append.mpr
    ⟨s.nodup, List.pairwise_singleton _ a, fun x hx y hy hxy => h (by
      rw [List.mem_singleton] at hy
      exact hy ▸ hxy ▸ hx)⟩⟩

theorem insert_of_mem {s : OrderedSet α} {a : α} (h : a ∈ s) : s.insert a = s := by
  simp only [insert, h, ↓reduceDIte]

theorem toList_insert_of_not_mem {s : OrderedSet α} {a : α} (h : a ∉ s) :
    (s.insert a).toList = s.toList ++ [a] := by
  simp only [insert, h, ↓reduceDIte]

theorem mem_insert {s : OrderedSet α} {a b : α} : b ∈ s.insert a ↔ b ∈ s ∨ b = a := by
  by_cases h : a ∈ s
  · rw [insert_of_mem h]
    constructor
    · exact Or.inl
    · rintro (hb | rfl)
      · exact hb
      · exact h
  · rw [← mem_toList, toList_insert_of_not_mem h, List.mem_append, List.mem_singleton, mem_toList]

/-- Inserts the members of a list from left to right. -/
def insertAll (s : OrderedSet α) (as : List α) : OrderedSet α := as.foldl insert s

theorem mem_insertAll {s : OrderedSet α} {as : List α} {b : α} :
    b ∈ s.insertAll as ↔ b ∈ s ∨ b ∈ as := by
  induction as generalizing s with
  | nil => simp only [insertAll, List.foldl_nil, List.not_mem_nil, or_false]
  | cons a as ih =>
    have step : s.insertAll (a :: as) = (s.insert a).insertAll as := rfl
    rw [step, ih, mem_insert, List.mem_cons, or_assoc]

/-- The members of a list, each at its first place. -/
def ofList (as : List α) : OrderedSet α := insertAll ∅ as

/-! ### Shrinking -/

omit [DecidableEq α] in
/-- Keeps the members that pass the test, in their order. -/
def filter (s : OrderedSet α) (p : α → Bool) : OrderedSet α :=
  ⟨s.toList.filter p, List.Pairwise.filter p s.nodup⟩

omit [DecidableEq α] in
@[simp] theorem toList_filter (s : OrderedSet α) (p : α → Bool) :
    (s.filter p).toList = s.toList.filter p := rfl

omit [DecidableEq α] in
theorem mem_filter {s : OrderedSet α} {p : α → Bool} {a : α} :
    a ∈ s.filter p ↔ a ∈ s ∧ p a = true := List.mem_filter

/-- Removes `a`; the others keep their order. -/
def erase (s : OrderedSet α) (a : α) : OrderedSet α := s.filter (· ≠ a)

theorem mem_erase {s : OrderedSet α} {a b : α} : b ∈ s.erase a ↔ b ∈ s ∧ b ≠ a := by
  rw [erase, mem_filter, decide_eq_true_eq]

/-! ### Comparing without the order -/

omit [DecidableEq α] in
/-- Two sets have the same members, in whatever order. -/
def SameMembers (s t : OrderedSet α) : Prop := s.size = t.size ∧ ∀ a ∈ s.toList, a ∈ t

instance (s t : OrderedSet α) : Decidable (s.SameMembers t) :=
  inferInstanceAs (Decidable (_ ∧ _))

end OrderedSet

end ChomskyForm
