import CircuitLayout.KeyOrder

namespace CircuitLayout

/-!
# Ordered maps and sets

Finite maps and sets kept as lists in increasing order of their keys, so that what is read off
them comes in that order. Main statements: what `find?` gives after `insert`, and what is an
entry of a map or a member of a set after `insert`.
-/

/-- A finite map that lists its entries by increasing key. -/
structure OrderedMap (κ ν : Type) where
  /-- The entries, by increasing key. -/
  entries : List (κ × ν)
  deriving DecidableEq, Repr

namespace OrderedMap

variable {κ ν : Type} [DecidableEq κ] [KeyOrder κ]

instance : EmptyCollection (OrderedMap κ ν) := ⟨⟨[]⟩⟩

/-- The value of a key, if it has one. -/
def find? (m : OrderedMap κ ν) (k : κ) : Option ν :=
  (m.entries.find? fun e => decide (e.1 = k)).map (·.2)

/-- Puts an entry at its place among the entries, replacing one with the same key. -/
def insertEntry (k : κ) (v : ν) : List (κ × ν) → List (κ × ν)
  | [] => [(k, v)]
  | e :: es =>
    if e.1 = k then (k, v) :: es
    else if before k e.1 then (k, v) :: e :: es
    else e :: insertEntry k v es

/-- Gives a key a value, replacing the one it had. -/
def insert (m : OrderedMap κ ν) (k : κ) (v : ν) : OrderedMap κ ν :=
  ⟨insertEntry k v m.entries⟩

/-- The keys, in increasing order. -/
def keys (m : OrderedMap κ ν) : List κ := m.entries.map (·.1)

/-- What is inserted is found under its key, and nothing else has changed. -/
theorem find?_insertEntry (k j : κ) (v : ν) (es : List (κ × ν)) :
    ((insertEntry k v es).find? fun e => decide (e.1 = j)).map (·.2) =
      if k = j then some v else (es.find? fun e => decide (e.1 = j)).map (·.2) := by
  induction es with
  | nil => by_cases h : k = j <;> simp [insertEntry, h]
  | cons e es ih =>
    unfold insertEntry
    split
    · next he => subst he; by_cases h : e.1 = j <;> simp [h]
    · next he =>
      split
      · -- the new entry stands before the first larger key
        by_cases h : k = j <;> simp [h]
      · by_cases hj : e.1 = j
        · have : k ≠ j := fun h => he (hj.trans h.symm)
          simp [hj, this]
        · simpa [hj] using ih

/-- An inserted key has its new value, every other key the value it had. -/
theorem find?_insert (m : OrderedMap κ ν) (k j : κ) (v : ν) :
    (m.insert k v).find? j = if k = j then some v else m.find? j :=
  find?_insertEntry k j v m.entries

/-- An insertion adds no entry but the one that is inserted. -/
theorem mem_insertEntry {k : κ} {v : ν} {es : List (κ × ν)} {e : κ × ν}
    (h : e ∈ insertEntry k v es) : e = (k, v) ∨ e ∈ es := by
  induction es with
  | nil => exact .inl (List.mem_singleton.1 h)
  | cons d es ih =>
    unfold insertEntry at h
    split at h
    · exact (List.mem_cons.1 h).imp_right (List.mem_cons_of_mem _)
    · split at h
      · exact List.mem_cons.1 h
      · rcases List.mem_cons.1 h with rfl | hrest
        · exact .inr (List.mem_cons_self ..)
        · exact (ih hrest).imp_right (List.mem_cons_of_mem _)

omit [KeyOrder κ] in
@[simp] theorem find?_empty (k : κ) : (∅ : OrderedMap κ ν).find? k = none := rfl

omit [KeyOrder κ] in
/-- A key with a value is one of the keys. -/
theorem mem_keys_of_find? {m : OrderedMap κ ν} {k : κ} (h : (m.find? k).isSome) : k ∈ m.keys := by
  obtain ⟨v, hv⟩ := Option.isSome_iff_exists.1 h
  obtain ⟨e, he, -⟩ := Option.map_eq_some_iff.1 hv
  have hkey : e.1 = k := by simpa using List.find?_some he
  exact List.mem_map.2 ⟨e, List.mem_of_find?_eq_some he, hkey⟩

end OrderedMap

/-- A finite set that lists its elements in increasing order. -/
structure OrderedSet (κ : Type) where
  /-- The elements, in increasing order. -/
  toList : List κ
  deriving DecidableEq, Repr

namespace OrderedSet

variable {κ : Type} [DecidableEq κ] [KeyOrder κ]

instance : EmptyCollection (OrderedSet κ) := ⟨⟨[]⟩⟩

instance : Membership κ (OrderedSet κ) := ⟨fun s k => k ∈ s.toList⟩

/-- Puts an element at its place in a list, unless it is there. -/
def insertElement (k : κ) : List κ → List κ
  | [] => [k]
  | e :: es =>
    if e = k then e :: es
    else if before k e then k :: e :: es
    else e :: insertElement k es

/-- Adds an element. -/
def insert (s : OrderedSet κ) (k : κ) : OrderedSet κ := ⟨insertElement k s.toList⟩

/-- The set of the elements of a list. -/
def ofList (xs : List κ) : OrderedSet κ := xs.foldl insert ∅

/-- The number of elements. -/
def size (s : OrderedSet κ) : Nat := s.toList.length

/-- The elements of a list with one more. -/
theorem mem_insertElement (k j : κ) (es : List κ) :
    j ∈ insertElement k es ↔ j = k ∨ j ∈ es := by
  induction es with
  | nil => simp [insertElement]
  | cons e es ih =>
    unfold insertElement
    split
    · next h => subst h; simp
    · split
      · simp
      · simp [ih]; grind

/-- What is in a set after an insertion. -/
@[simp] theorem mem_insert (s : OrderedSet κ) (k j : κ) : j ∈ s.insert k ↔ j = k ∨ j ∈ s :=
  mem_insertElement k j s.toList

omit [DecidableEq κ] [KeyOrder κ] in
@[simp] theorem not_mem_empty (k : κ) : k ∉ (∅ : OrderedSet κ) := List.not_mem_nil

end OrderedSet

end CircuitLayout
