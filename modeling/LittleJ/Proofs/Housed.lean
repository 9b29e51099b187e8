import LittleJ.Proofs.CoupledStatement

/-!
# Scopes and the functions made in them

While a program runs, scopes are made and none goes away. A scope keeps the limit it was made with,
which is that of the scope around it, and it keeps its depth once code runs in it. A function learns
the scope it was made in when the code there comes to it, so a function that has such a scope has
one that exists. Entering a call uses all of this: the scope of the call is made inside that of the
function, and gets its limit from there, but its depth from the caller.
-/

namespace LittleJ

open Store

namespace Store

/-- The limits of all scopes are among `L`, and functions were made in scopes that exist. -/
structure Housed (L : Option Rat → Prop) (σ : Store) : Prop where
  limit : ∀ r, r < σ.scopes.size → L (σ.scope r).limit
  home : ∀ r h, (σ.closure r).home = some h → h < σ.scopes.size

/-- A store after running from `base`: scopes are still there with the depth and the limit they had,
and the clock has not gone back. -/
structure Grown (base σ : Store) : Prop where
  size : base.scopes.size ≤ σ.scopes.size
  depth : ∀ r, r < base.scopes.size → (σ.scope r).depth = (base.scope r).depth
  limit : ∀ r, r < base.scopes.size → (σ.scope r).limit = (base.scope r).limit
  clock : base.clock ≤ σ.clock

theorem Grown.refl (σ : Store) : Grown σ σ :=
  ⟨Nat.le_refl _, fun _ _ => rfl, fun _ _ => rfl, Nat.le_refl _⟩

theorem Grown.trans {σ₁ σ₂ σ₃ : Store} (h₁ : Grown σ₁ σ₂) (h₂ : Grown σ₂ σ₃) : Grown σ₁ σ₃ where
  size := Nat.le_trans h₁.size h₂.size
  depth r hr := by rw [h₂.depth r (Nat.lt_of_lt_of_le hr h₁.size), h₁.depth r hr]
  limit r hr := by rw [h₂.limit r (Nat.lt_of_lt_of_le hr h₁.size), h₁.limit r hr]
  clock := Nat.le_trans h₁.clock h₂.clock

variable {L : Option Rat → Prop} {σ base : Store}

theorem closure_empty (r : Nat) : Store.empty.closure r = default := by
  simp [empty, Store.closure, Array.getD]

theorem housed_empty : Store.empty.Housed L where
  limit r hr := absurd hr (by simp [empty])
  home r k hk := by rw [closure_empty] at hk; simp [default] at hk

/-! ## Changes that keep functions and scopes -/

/-- A change that leaves scopes and functions alone. -/
theorem Housed.of_eq {σ' : Store} (h : Housed L σ) (hs : σ'.scopes = σ.scopes)
    (hc : σ'.closures = σ.closures) : Housed L σ' where
  limit r hr := by unfold scope at *; rw [hs] at *; exact h.limit r hr
  home r k hk := by
    unfold closure at hk
    rw [hc] at hk
    rw [hs]
    exact h.home r k hk

theorem Grown.of_eq {σ' : Store} (h : Grown base σ) (hs : σ'.scopes = σ.scopes)
    (hc : σ'.clock = σ.clock) : Grown base σ' where
  size := by rw [hs]; exact h.size
  depth r hr := by unfold scope; rw [hs]; exact h.depth r hr
  limit r hr := by unfold scope; rw [hs]; exact h.limit r hr
  clock := by rw [hc]; exact h.clock

theorem Grown.tick (h : Grown base σ) : Grown base σ.tick.2 where
  size := h.size
  depth := h.depth
  limit := h.limit
  clock := Nat.le_succ_of_le h.clock

theorem Housed.adopt (h : Housed L σ) {home : Nat} (hh : home < σ.scopes.size) (r : Nat) :
    Housed L (σ.adopt home r) where
  limit := h.limit
  home s k hk := by
    rcases home_adopt σ home r s with he | he
    · rw [he] at hk; exact h.home s k hk
    · rw [he] at hk
      simp only [Option.some.injEq] at hk
      exact hk ▸ hh

theorem Housed.newClosure (h : Housed L σ) (f : Function) :
    Housed L (σ.newClosure ⟨f, none⟩).2 where
  limit := h.limit
  home r k hk := by
    rw [closure_newClosure] at hk
    split at hk
    · simp at hk
    · exact h.home r k hk

/-- A change to a scope that keeps its limit, such as setting a variable. -/
theorem Housed.modifyScope (h : Housed L σ) (r : Nat) {f : Scope → Scope}
    (hf : ∀ s, (f s).limit = s.limit) : Housed L (σ.modifyScope r f) where
  limit s hs := by
    rw [size_modifyScope] at hs
    rw [scope_modifyScope]
    split
    · rw [hf]; exact h.limit s hs
    · exact h.limit s hs
  home s k hk := by rw [size_modifyScope]; exact h.home s k hk

theorem Grown.modifyScope (h : Grown base σ) (r : Nat) {f : Scope → Scope}
    (hdepth : ∀ s, (f s).depth = s.depth) (hlimit : ∀ s, (f s).limit = s.limit) :
    Grown base (σ.modifyScope r f) where
  size := by rw [size_modifyScope]; exact h.size
  depth s hs := by
    rw [scope_modifyScope]
    split
    · rw [hdepth]; exact h.depth s hs
    · exact h.depth s hs
  limit s hs := by
    rw [scope_modifyScope]
    split
    · rw [hlimit]; exact h.limit s hs
    · exact h.limit s hs
  clock := h.clock

/-! ## New scopes -/

theorem Housed.newScope (h : Housed L σ) {s : Scope} (hs : L s.limit) :
    Housed L (σ.newScope s).2 where
  limit r hr := by
    rw [scope_newScope]
    split
    · exact hs
    · rename_i hne
      simp only [Store.newScope, Array.size_push] at hr
      exact h.limit r (by omega)
  home r k hk := by
    have := h.home r k hk
    simp only [Store.newScope, Array.size_push]
    omega

/-- A scope is made and its depth set, while nothing runs in it. -/
theorem grown_newScope (σ : Store) (s : Scope) (depth : Int) :
    Grown σ ((σ.newScope s).2.setDepth σ.scopes.size depth) where
  size := by simp [setDepth, size_modifyScope, newScope]
  depth r hr := by
    rw [setDepth, scope_modifyScope, if_neg (by omega), scope_newScope, if_neg (Nat.ne_of_lt hr)]
  limit r hr := by
    rw [setDepth, scope_modifyScope, if_neg (by omega), scope_newScope, if_neg (Nat.ne_of_lt hr)]
  clock := Nat.le_refl _

theorem limit_of_childScope {home : Nat} {params : List String} {args : List Value} {s : Scope}
    (h : σ.childScope home params args = .ok s) : s.limit = (σ.scope home).limit := by
  unfold childScope at h
  split at h
  · simp at h
  · dsimp only at h
    split at h
    · simp at h
    · simp only [Except.ok.injEq] at h
      rw [← h]

end Store

/-- Entering a call makes a new scope one deeper than the caller's and not too deep for its limit,
or stops. Either way no function changes. -/
theorem Statement.enter_cases {L : Option Rat → Prop} {σ : Store} {caller home : Nat}
    (params : List String) (args : List Value) (hσ : σ.Housed L) (hcaller : caller < σ.scopes.size)
    (hhome : home < σ.scopes.size) :
    (∃ e σ', Statement.enter caller home params args σ = .error e σ' ∧ e ≠ .exhausted ∧
      σ'.Housed L ∧ σ.Grown σ' ∧ σ'.closures = σ.closures) ∨
    (∃ scope σ', Statement.enter caller home params args σ = .ok scope σ' ∧
      σ'.Housed L ∧ σ.Grown σ' ∧ σ'.closures = σ.closures ∧ scope < σ'.scopes.size ∧
      (σ'.scope scope).depth = (σ.scope caller).depth + 1 ∧ σ'.atLimit scope = false) := by
  rw [Statement.enter_eq]
  cases hchild : σ.childScope home params args with
  | error x => exact Or.inl ⟨_, _, rfl, by simp, hσ, Grown.refl σ, rfl⟩
  | ok inner =>
    dsimp only
    have hcaller' : ((σ.newScope inner).2.scope caller).depth = (σ.scope caller).depth := by
      rw [scope_newScope, if_neg (Nat.ne_of_lt hcaller)]
    rw [hcaller']
    have hlimit : L inner.limit := by
      rw [limit_of_childScope hchild]
      exact hσ.limit home hhome
    have hgrown := grown_newScope σ inner ((σ.scope caller).depth + 1)
    have hhoused : ((σ.newScope inner).2.setDepth σ.scopes.size
        ((σ.scope caller).depth + 1)).Housed L :=
      (hσ.newScope hlimit).modifyScope _ fun _ => rfl
    split
    · exact Or.inl ⟨_, _, rfl, by simp, hhoused, hgrown, rfl⟩
    · rename_i hopen
      refine Or.inr ⟨_, _, rfl, hhoused, hgrown, rfl, ?_, ?_, by simpa using hopen⟩
      · simp [setDepth, size_modifyScope, newScope]
      · rw [setDepth, scope_modifyScope, if_pos ⟨rfl, by simp [newScope]⟩]

end LittleJ
