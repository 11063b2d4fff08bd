import ChomskyForm.OrderedSet

/-!
# Tables that remember the order of their keys

An `OrderedMap` is a list of entries with distinct keys.  Writing to a key that is there keeps its
place, a new key goes to the end, and dropping keys leaves the order of the rest.  `SameEntries`
compares two tables without the order of their keys.
-/

namespace ChomskyForm

/-- A finite table whose keys are listed in the order in which they were first written. -/
structure OrderedMap (κ ν : Type) where
  entries : List (κ × ν)
  nodup : (entries.map Prod.fst).Nodup
deriving DecidableEq

namespace OrderedMap

variable {κ ν : Type}

instance : EmptyCollection (OrderedMap κ ν) := ⟨⟨[], List.nodup_nil⟩⟩

instance : Inhabited (OrderedMap κ ν) := ⟨∅⟩

@[ext] theorem ext {m n : OrderedMap κ ν} (h : m.entries = n.entries) : m = n := by
  cases m
  cases n
  cases h
  rfl

def keys (m : OrderedMap κ ν) : List κ := m.entries.map Prod.fst

/-- The values, in the order of their keys. -/
def values (m : OrderedMap κ ν) : List ν := m.entries.map Prod.snd

def size (m : OrderedMap κ ν) : Nat := m.entries.length

instance : Membership κ (OrderedMap κ ν) := ⟨fun m k => k ∈ m.keys⟩

theorem mem_keys {m : OrderedMap κ ν} {k : κ} : k ∈ m.keys ↔ k ∈ m := Iff.rfl

theorem length_keys (m : OrderedMap κ ν) : m.keys.length = m.size := List.length_map _

/-! ### Changing values in place -/

/-- Replaces every value; keys and their order stay. -/
def mapValues {ν' : Type} (m : OrderedMap κ ν) (f : κ → ν → ν') : OrderedMap κ ν' where
  entries := m.entries.map fun e => (e.1, f e.1 e.2)
  nodup := by
    rw [List.map_map]
    exact m.nodup

@[simp] theorem keys_mapValues {ν' : Type} (m : OrderedMap κ ν) (f : κ → ν → ν') :
    (m.mapValues f).keys = m.keys := by
  simp only [keys, mapValues, List.map_map]
  rfl

/-- Keeps the entries that pass the test, in their order. -/
def filter (m : OrderedMap κ ν) (p : κ → ν → Bool) : OrderedMap κ ν where
  entries := m.entries.filter fun e => p e.1 e.2
  nodup := List.Pairwise.sublist (List.Sublist.map _ List.filter_sublist) m.nodup

theorem mem_entries_filter {m : OrderedMap κ ν} {p : κ → ν → Bool} {e : κ × ν} :
    e ∈ (m.filter p).entries ↔ e ∈ m.entries ∧ p e.1 e.2 = true := List.mem_filter

variable [DecidableEq κ]

instance (k : κ) (m : OrderedMap κ ν) : Decidable (k ∈ m) :=
  inferInstanceAs (Decidable (k ∈ m.keys))

def erase (m : OrderedMap κ ν) (k : κ) : OrderedMap κ ν := m.filter fun k' _ => k' ≠ k

/-! ### Reading one key -/

/-- The value of a key, if the table has that key. -/
def get? (m : OrderedMap κ ν) (k : κ) : Option ν := m.entries.lookup k

theorem get?_eq_none_iff {m : OrderedMap κ ν} {k : κ} : m.get? k = none ↔ k ∉ m := by
  rw [get?, List.lookup_eq_none_iff]
  constructor
  · intro h hk
    obtain ⟨e, he, rfl⟩ := List.mem_map.mp hk
    exact absurd (h e he) (by simp only [bne_self_eq_false, Bool.false_eq_true, not_false_eq_true])
  · intro h e he
    rw [bne_iff_ne]
    rintro rfl
    exact h (List.mem_map_of_mem he)

/-! ### Writing one key -/

/-- Writes `v` at the first entry with key `k`, or in a new entry at the end. -/
def insertEntry (k : κ) (v : ν) : List (κ × ν) → List (κ × ν)
  | [] => [(k, v)]
  | e :: rest => if e.1 = k then (k, v) :: rest else e :: insertEntry k v rest

theorem keys_insertEntry (k : κ) (v : ν) (es : List (κ × ν)) :
    (insertEntry k v es).map Prod.fst =
      if k ∈ es.map Prod.fst then es.map Prod.fst else es.map Prod.fst ++ [k] := by
  induction es with
  | nil => rfl
  | cons e rest ih =>
    by_cases h : e.1 = k
    · simp only [insertEntry, h, ↓reduceIte, List.map_cons, List.mem_cons, true_or]
    · have h' : ¬k = e.1 := fun hk => h hk.symm
      simp only [insertEntry, h, ↓reduceIte, List.map_cons, ih, List.mem_cons, h', false_or]
      split <;> rfl

/-- Writes the value of a key: in place if the key is there, else in a new entry at the end. -/
def insert (m : OrderedMap κ ν) (k : κ) (v : ν) : OrderedMap κ ν where
  entries := insertEntry k v m.entries
  nodup := by
    rw [keys_insertEntry]
    split
    · exact m.nodup
    · rename_i h
      refine List.nodup_append.mpr ⟨m.nodup, List.pairwise_singleton _ k, fun a ha b hb hab => h ?_⟩
      rw [List.mem_singleton] at hb
      exact hb ▸ hab ▸ ha

theorem keys_insert (m : OrderedMap κ ν) (k : κ) (v : ν) :
    (m.insert k v).keys = if k ∈ m then m.keys else m.keys ++ [k] := keys_insertEntry k v m.entries

theorem mem_insert {m : OrderedMap κ ν} {k k' : κ} {v : ν} :
    k' ∈ m.insert k v ↔ k' ∈ m ∨ k' = k := by
  rw [← mem_keys, keys_insert]
  split
  · rename_i h
    constructor
    · exact Or.inl
    · rintro (hk | rfl)
      · exact hk
      · exact h
  · rw [List.mem_append, List.mem_singleton, mem_keys]

theorem get?_insert_self (m : OrderedMap κ ν) (k : κ) (v : ν) : (m.insert k v).get? k = some v := by
  show (insertEntry k v m.entries).lookup k = some v
  generalize m.entries = es
  induction es with
  | nil => simp only [insertEntry, List.lookup_cons, BEq.rfl]
  | cons e rest ih =>
    obtain ⟨k₀, v₀⟩ := e
    by_cases h : k₀ = k
    · simp only [insertEntry, h, ↓reduceIte, List.lookup_cons, BEq.rfl]
    · have h' : (k == k₀) = false := beq_eq_false_iff_ne.mpr fun hk => h hk.symm
      simp only [insertEntry, h, ↓reduceIte, List.lookup_cons, h', ih]

theorem get?_insert_of_ne (m : OrderedMap κ ν) {k k' : κ} (v : ν) (hne : k' ≠ k) :
    (m.insert k v).get? k' = m.get? k' := by
  show (insertEntry k v m.entries).lookup k' = m.entries.lookup k'
  have hk : (k' == k) = false := beq_eq_false_iff_ne.mpr hne
  generalize m.entries = es
  induction es with
  | nil => simp only [insertEntry, List.lookup_cons, hk, List.lookup_nil]
  | cons e rest ih =>
    obtain ⟨k₀, v₀⟩ := e
    by_cases h : k₀ = k
    · subst h
      simp only [insertEntry, ↓reduceIte, List.lookup_cons, hk]
    · simp only [insertEntry, h, ↓reduceIte, List.lookup_cons, ih]

/-! ### Comparing without the order of keys -/

/-- Two tables give every key the same value, in whatever order the keys stand. -/
def SameEntries (m n : OrderedMap κ ν) : Prop :=
  m.size = n.size ∧ ∀ e ∈ m.entries, n.get? e.1 = some e.2

instance [DecidableEq ν] (m n : OrderedMap κ ν) : Decidable (m.SameEntries n) :=
  inferInstanceAs (Decidable (_ ∧ _))

end OrderedMap

/-- The table with one entry for each member of a set, in the set's order. -/
def OrderedMap.ofKeys {κ ν : Type} (s : OrderedSet κ) (f : κ → ν) : OrderedMap κ ν where
  entries := s.toList.map fun k => (k, f k)
  nodup := by
    rw [List.map_map]
    exact (List.map_id s.toList).symm ▸ s.nodup

theorem OrderedMap.keys_ofKeys {κ ν : Type} (s : OrderedSet κ) (f : κ → ν) :
    (OrderedMap.ofKeys s f).keys = s.toList := by
  simp only [OrderedMap.keys, OrderedMap.ofKeys, List.map_map]
  exact List.map_id s.toList

end ChomskyForm
