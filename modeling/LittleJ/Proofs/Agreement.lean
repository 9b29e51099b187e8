import LittleJ.Proofs.Changes
import LittleJ.Proofs.Coupling

/-!
# Stores that hold the same

Two stores *agree* if they hold the same arrays, objects, functions and variables and the same has
been written. Their clocks and the limits of their scopes may differ. Everything that a step reads
off the store, apart from these two, is then the same.
-/

namespace LittleJ

open Store

/-- Two stores hold the same, but for the clock and the limits of scopes. -/
structure Store.Agree (σ₁ σ₂ : Store) : Prop where
  arrays : σ₁.arrays = σ₂.arrays
  objects : σ₁.objects = σ₂.objects
  closures : σ₁.closures = σ₂.closures
  slots : σ₁.slots = σ₂.slots
  seed : σ₁.seed = σ₂.seed
  out : σ₁.out = σ₂.out
  /-- The same scopes have been made. -/
  size : σ₁.scopes.size = σ₂.scopes.size
  vars : ∀ r, (σ₁.scope r).vars = (σ₂.scope r).vars
  parent : ∀ r, (σ₁.scope r).parent = (σ₂.scope r).parent
  depth : ∀ r, (σ₁.scope r).depth = (σ₂.scope r).depth

namespace Store

variable {σ σ₁ σ₂ : Store}

/-! ## Readers of agreeing stores -/

namespace Agree

variable (h : Agree σ₁ σ₂)

include h

theorem array (r : Nat) : σ₁.array r = σ₂.array r := by
  unfold Store.array; rw [h.arrays]

theorem object (r : Nat) : σ₁.object r = σ₂.object r := by
  unfold Store.object; rw [h.objects]

theorem closure (r : Nat) : σ₁.closure r = σ₂.closure r := by
  unfold Store.closure; rw [h.closures]

theorem slot (r : Nat) : σ₁.slot r = σ₂.slot r := by
  unfold Store.slot; rw [h.slots]

theorem printWithin (fuel : Nat) : σ₁.printWithin fuel = σ₂.printWithin fuel := by
  induction fuel with
  | zero => rfl
  | succ fuel ih =>
    funext v
    cases v with
    | arr r => simp only [Store.printWithin, h.array, ih]
    | obj r => simp only [Store.printWithin, h.object, ih]
    | fn r => simp only [Store.printWithin, h.closure, ih]
    | _ => rfl

theorem print : σ₁.print = σ₂.print := by
  unfold Store.print nesting
  rw [h.printWithin, h.arrays, h.objects]

theorem excerpt : σ₁.excerpt = σ₂.excerpt := by
  unfold Store.excerpt; rw [h.print]

theorem text (v : Value) : σ₁.text v = σ₂.text v := by
  unfold Store.text; rw [h.print]

theorem endlessWithin (fuel : Nat) : σ₁.endlessWithin fuel = σ₂.endlessWithin fuel := by
  induction fuel with
  | zero => rfl
  | succ fuel ih =>
    funext v
    cases v with
    | arr r => simp only [Store.endlessWithin, h.array, ih]
    | _ => rfl

theorem anyEndless (ts : List Token) : σ₁.anyEndless ts = σ₂.anyEndless ts := by
  unfold Store.anyEndless isEndless
  rw [h.endlessWithin, h.arrays]

theorem ownerFrom (name : String) (fuel r : Nat) :
    σ₁.ownerFrom name fuel r = σ₂.ownerFrom name fuel r := by
  induction fuel generalizing r with
  | zero => rfl
  | succ fuel ih =>
    simp only [Store.ownerFrom, h.vars, h.parent]
    split
    · rfl
    · split
      · exact ih _
      · rfl

theorem owner (r : Nat) (name : String) : σ₁.owner r name = σ₂.owner r name := by
  unfold Store.owner; rw [h.ownerFrom]

theorem lookup (r : Nat) : σ₁.lookup r = σ₂.lookup r := by
  funext name
  unfold Store.lookup
  simp only [h.owner, h.vars]

theorem checkNew (r : Nat) (name : String) : σ₁.checkNew r name = σ₂.checkNew r name := by
  unfold Store.checkNew; rw [h.vars]

theorem isGlobal (r : Nat) : (σ₁.scope r).isGlobal = (σ₂.scope r).isGlobal := by
  unfold Scope.isGlobal; rw [h.parent]

theorem listing (v : Value) : Native.listing σ₁ v = Native.listing σ₂ v := by
  cases v with
  | fn r => simp only [Native.listing, h.closure]
  | _ => rfl

theorem items (v : Value) : Math.items? σ₁ v = Math.items? σ₂ v := by
  cases v with
  | arr r => simp only [Math.items?, h.array]
  | obj r => simp only [Math.items?, h.object]
  | _ => rfl

/-! ## Scopes of agreeing stores -/

/-- The same change to a scope of both stores, one that does not look at limits. -/
theorem modifyScope (r : Nat) {f : Scope → Scope}
    (hvars : ∀ s s', s.vars = s'.vars → (f s).vars = (f s').vars)
    (hparent : ∀ s, (f s).parent = s.parent) (hdepth : ∀ s s', s.depth = s'.depth → (f s).depth =
      (f s').depth) :
    Agree (σ₁.modifyScope r f) (σ₂.modifyScope r f) :=
  { h with
    size := by simp [Store.modifyScope, h.size]
    vars := fun s => by
      rw [scope_modifyScope, scope_modifyScope, h.size]
      split
      · exact hvars _ _ (h.vars s)
      · exact h.vars s
    parent := fun s => by
      rw [scope_modifyScope, scope_modifyScope, h.size]
      split
      · rw [hparent, hparent, h.parent s]
      · exact h.parent s
    depth := fun s => by
      rw [scope_modifyScope, scope_modifyScope, h.size]
      split
      · exact hdepth _ _ (h.depth s)
      · exact h.depth s }

/-- The same new scope in both stores, but for its limit. -/
theorem newScope (s : Scope) (l l' : Option Rat) :
    Agree (σ₁.newScope { s with limit := l }).2 (σ₂.newScope { s with limit := l' }).2 :=
  { h with
    size := by simp [Store.newScope, h.size]
    vars := fun r => by
      rw [scope_newScope, scope_newScope, h.size]
      split
      · rfl
      · exact h.vars r
    parent := fun r => by
      rw [scope_newScope, scope_newScope, h.size]
      split
      · rfl
      · exact h.parent r
    depth := fun r => by
      rw [scope_newScope, scope_newScope, h.size]
      split
      · rfl
      · exact h.depth r }

end Agree

end Store

end LittleJ
