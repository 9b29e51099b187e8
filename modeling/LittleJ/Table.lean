/-!
# Ordered tables

A table maps texts to entries and remembers the order in which they came. Setting an entry that is
there keeps its place; a new one goes last. Objects and scopes are tables.
-/

namespace LittleJ

/-- Entries by key, oldest first. -/
abbrev Table (α : Type) := List (String × α)

namespace Table

variable {α : Type}

/-- The entry under a key. -/
def get? (key : String) : Table α → Option α
  | [] => none
  | (k, a) :: rest => if k == key then some a else get? key rest

/-- Whether there is an entry under a key. -/
def has (key : String) (t : Table α) : Bool :=
  (t.get? key).isSome

/-- Sets the entry under a key, in its old place or at the end. -/
def put (key : String) (a : α) : Table α → Table α
  | [] => [(key, a)]
  | (k, b) :: rest => if k == key then (k, a) :: rest else (k, b) :: put key a rest

/-- Takes out the entry under a key. -/
def erase (key : String) : Table α → Table α
  | [] => []
  | (k, b) :: rest => if k == key then rest else (k, b) :: erase key rest

/-- The keys, oldest first. -/
def keys (t : Table α) : List String :=
  t.map Prod.fst

/-- Sets entries one after the other. -/
def putAll (entries : List (String × α)) (t : Table α) : Table α :=
  entries.foldl (fun t e => t.put e.1 e.2) t

/-- A key that was just set gives what was set. -/
theorem get?_put_self (key : String) (a : α) (t : Table α) : (t.put key a).get? key = some a := by
  induction t with
  | nil => simp [put, get?]
  | cons e rest ih =>
    obtain ⟨k, b⟩ := e
    by_cases h : k = key
    · simp [put, get?, h]
    · simp [put, get?, h, ih]

/-- Setting a key leaves every other one alone. -/
theorem get?_put_of_ne {key other : String} (a : α) (t : Table α) (h : other ≠ key) :
    (t.put key a).get? other = t.get? other := by
  induction t with
  | nil => simp [put, get?, Ne.symm h]
  | cons e rest ih =>
    obtain ⟨k, b⟩ := e
    by_cases hk : k = key
    · subst hk
      simp [put, get?, Ne.symm h]
    · by_cases ho : k = other
      · simp [put, get?, ho, h]
      · simp [put, get?, hk, ho, ih]

end Table

end LittleJ
