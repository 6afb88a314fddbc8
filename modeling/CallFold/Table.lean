/-!
# Tables

A finite map from keys to values, as a list of pairs with distinct keys. Writing a key replaces what
it held. `Table.get?_insert_self` and `Table.get?_insert_of_ne` say all that a reader of a table can
observe, its size apart.
-/

namespace CallFold

/-- A finite map: pairs with distinct keys, the latest written first. -/
structure Table (κ α : Type) where
  entries : List (κ × α)
  distinct : (entries.map Prod.fst).Nodup

namespace Table

variable {κ α : Type}

/-- The table without entries. -/
def empty : Table κ α := ⟨[], List.nodup_nil⟩

/-- The number of keys. -/
def size (t : Table κ α) : Nat := t.entries.length

/-- Whether there are no keys. -/
def isEmpty (t : Table κ α) : Bool := t.entries.isEmpty

/-- The keys, the latest written first. -/
def keys (t : Table κ α) : List κ := t.entries.map Prod.fst

variable [DecidableEq κ]

/-- The value that a key holds. -/
def get? (t : Table κ α) (k : κ) : Option α := t.entries.lookup k

/-- Whether a key holds a value. -/
def contains (t : Table κ α) (k : κ) : Bool := (t.get? k).isSome

/-- The pairs of all other keys. -/
def others (k : κ) (entries : List (κ × α)) : List (κ × α) :=
  entries.filter fun e => e.1 ≠ k

theorem nodup_insert (t : Table κ α) (k : κ) (v : α) :
    (((k, v) :: others k t.entries).map Prod.fst).Nodup := by
  rw [List.map_cons, List.nodup_cons]
  constructor
  · simp [others]
  · exact t.distinct.sublist (List.filter_sublist.map Prod.fst)

/-- Writes a key. -/
def insert (t : Table κ α) (k : κ) (v : α) : Table κ α :=
  ⟨(k, v) :: others k t.entries, nodup_insert t k v⟩

@[simp]
theorem get?_empty (k : κ) : (empty : Table κ α).get? k = none := rfl

theorem lookup_others {k k' : κ} (h : k' ≠ k) (entries : List (κ × α)) :
    (others k entries).lookup k' = entries.lookup k' := by
  induction entries with
  | nil => rfl
  | cons e rest ih =>
    obtain ⟨a, v⟩ := e
    unfold others at ih ⊢
    by_cases ha : a = k
    · subst ha
      have hne : (k' == a) = false := by simpa using h
      rw [List.filter_cons_of_neg (by simp), ih]
      rw [List.lookup_cons, hne]
    · rw [List.filter_cons_of_pos (by simpa using ha)]
      rw [List.lookup_cons, List.lookup_cons, ih]

/-- A key that was just written holds what was written. -/
@[simp]
theorem get?_insert_self (t : Table κ α) (k : κ) (v : α) : (t.insert k v).get? k = some v := by
  simp [get?, insert]

/-- Writing a key does not touch the others. -/
theorem get?_insert_of_ne (t : Table κ α) {k k' : κ} (v : α) (h : k' ≠ k) :
    (t.insert k v).get? k' = t.get? k' := by
  have hne : (k' == k) = false := by simpa using h
  simp [get?, insert, List.lookup_cons, hne, lookup_others h]

end Table

end CallFold
