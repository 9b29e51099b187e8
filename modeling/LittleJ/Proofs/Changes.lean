import LittleJ.Store.Scopes

/-!
# Changes to the store

What a change to one table of the store does to its entries: something new goes to the end, and a
change at one place leaves all other places alone. The entries of ordered tables are described the
same way.
-/

namespace LittleJ

open List

theorem getD_push {α : Type} (xs : Array α) (x d : α) (r : Nat) :
    (xs.push x).getD r d = if r = xs.size then x else xs.getD r d := by
  by_cases h : r < xs.size
  · simp [Array.getD, h, Nat.ne_of_lt h, Nat.lt_succ_of_lt h, Array.getElem_push]
  · by_cases he : r = xs.size
    · subst he; simp [Array.getD]
    · have : ¬ r < xs.size + 1 := by omega
      simp [Array.getD, h, he, this]

theorem getD_modify {α : Type} (xs : Array α) (f : α → α) (d : α) (r s : Nat) :
    (xs.modify r f).getD s d = if r = s ∧ r < xs.size then f (xs.getD s d) else xs.getD s d := by
  by_cases hs : s < xs.size
  · simp only [Array.getD, Array.size_modify, hs, dif_pos, Array.getInternal_eq_getElem,
      Array.getElem_modify]
    by_cases hrs : r = s
    · subst hrs; simp [hs]
    · simp [hrs]
  · have hne : ¬(r = s ∧ r < xs.size) := by rintro ⟨rfl, h⟩; exact hs h
    simp only [Array.getD, Array.size_modify, hs, dif_neg, not_false_iff, if_neg hne]

namespace Store

theorem array_newArray (σ : Store) (xs : Array Value) (r : Nat) :
    (σ.newArray xs).2.array r = if r = σ.arrays.size then xs else σ.array r :=
  getD_push _ _ _ _

theorem object_newObject (σ : Store) (t : Table Value) (r : Nat) :
    (σ.newObject t).2.object r = if r = σ.objects.size then t else σ.object r :=
  getD_push _ _ _ _

theorem closure_newClosure (σ : Store) (k : Closure) (r : Nat) :
    (σ.newClosure k).2.closure r = if r = σ.closures.size then k else σ.closure r :=
  getD_push _ _ _ _

/-- Only a function that was made has a home. -/
theorem lt_size_of_home {σ : Store} {r home : Nat} (h : (σ.closure r).home = some home) :
    r < σ.closures.size := by
  by_cases hr : r < σ.closures.size
  · exact hr
  · rw [closure, Array.getD, dif_neg hr] at h
    cases h

theorem scope_newScope (σ : Store) (s : Scope) (r : Nat) :
    (σ.newScope s).2.scope r = if r = σ.scopes.size then s else σ.scope r :=
  getD_push _ _ _ _

theorem array_modifyArray (σ : Store) (r s : Nat) (f : Array Value → Array Value) :
    (σ.modifyArray r f).array s =
      if r = s ∧ r < σ.arrays.size then f (σ.array s) else σ.array s :=
  getD_modify _ _ _ _ _

theorem object_modifyObject (σ : Store) (r s : Nat) (f : Table Value → Table Value) :
    (σ.modifyObject r f).object s =
      if r = s ∧ r < σ.objects.size then f (σ.object s) else σ.object s :=
  getD_modify _ _ _ _ _

theorem scope_modifyScope (σ : Store) (r s : Nat) (f : Scope → Scope) :
    (σ.modifyScope r f).scope s =
      if r = s ∧ r < σ.scopes.size then f (σ.scope s) else σ.scope s :=
  getD_modify _ _ _ _ _

theorem size_modifyScope (σ : Store) (r : Nat) (f : Scope → Scope) :
    (σ.modifyScope r f).scopes.size = σ.scopes.size := by
  simp [modifyScope]

theorem closure_adopt (σ : Store) (home r s : Nat) : (σ.adopt home r).closure s =
      if r = s ∧ r < σ.closures.size ∧ (σ.closure s).home = none
      then ⟨(σ.closure s).function, some home⟩ else σ.closure s := by
  refine (getD_modify _ _ _ _ _).trans ?_
  rw [show σ.closures.getD s default = σ.closure s from rfl]
  cases (σ.closure s).home <;> simp

/-- A function that is told where it was made stays the same function. -/
theorem function_adopt (σ : Store) (home r s : Nat) :
    ((σ.adopt home r).closure s).function = (σ.closure s).function := by
  rw [closure_adopt]
  split <;> rfl

theorem home_adopt (σ : Store) (home r s : Nat) :
    ((σ.adopt home r).closure s).home = (σ.closure s).home ∨
      ((σ.adopt home r).closure s).home = some home := by
  rw [closure_adopt]
  split
  · exact Or.inr rfl
  · exact Or.inl rfl

end Store

namespace Table

variable {α : Type}

theorem mem_of_get? {key : String} {t : Table α} {a : α} (h : t.get? key = some a) :
    (key, a) ∈ t := by
  induction t with
  | nil => simp [get?] at h
  | cons e t ih =>
    obtain ⟨k, b⟩ := e
    rw [get?] at h
    split at h
    · rename_i hk
      obtain rfl := beq_iff_eq.1 hk
      obtain rfl := Option.some.inj h
      exact mem_cons_self
    · exact mem_cons_of_mem _ (ih h)

/-- An entry after setting a key is the one that was set or an old one. -/
theorem mem_put {key : String} {a : α} {t : Table α} {e : String × α} (h : e ∈ t.put key a) :
    e.2 = a ∨ e ∈ t := by
  induction t with
  | nil =>
    obtain rfl := List.mem_singleton.1 h
    exact Or.inl rfl
  | cons e' t ih =>
    obtain ⟨k, b⟩ := e'
    rw [put] at h
    split at h
    · rcases List.mem_cons.1 h with rfl | h
      · exact Or.inl rfl
      · exact Or.inr (mem_cons_of_mem _ h)
    · rcases List.mem_cons.1 h with rfl | h
      · exact Or.inr mem_cons_self
      · exact (ih h).imp_right (mem_cons_of_mem _)

theorem mem_of_mem_erase {key : String} {t : Table α} {e : String × α} (h : e ∈ t.erase key) :
    e ∈ t := by
  induction t with
  | nil => exact h
  | cons e' t ih =>
    obtain ⟨k, b⟩ := e'
    rw [erase] at h
    split at h
    · exact mem_cons_of_mem _ h
    · rcases List.mem_cons.1 h with rfl | h
      · exact mem_cons_self
      · exact mem_cons_of_mem _ (ih h)

theorem mem_putAll {entries : List (String × α)} {t : Table α} {e : String × α}
    (h : e ∈ putAll entries t) : e.2 ∈ entries.map Prod.snd ∨ e ∈ t := by
  unfold putAll at h
  induction entries generalizing t with
  | nil => exact Or.inr h
  | cons e' entries ih =>
    rw [foldl_cons] at h
    rcases ih h with h | h
    · exact Or.inl (mem_cons_of_mem _ h)
    · refine (mem_put h).imp_left fun he => ?_
      rw [he]
      exact mem_cons_self

/-- Setting a key that is there changes no key. -/
theorem keys_put_of_has {key : String} {t : Table α} (h : t.has key = true) (a : α) :
    (t.put key a).keys = t.keys := by
  induction t with
  | nil => simp [has, get?] at h
  | cons e t ih =>
    obtain ⟨k, b⟩ := e
    rw [put]
    split
    · rfl
    · rename_i hk
      rw [has, get?, if_neg hk] at h
      exact congrArg (k :: ·) (ih h)

end Table

end LittleJ
