import LittleJ.Proofs.CoupledRun

/-!
# Kept trees side by side

A kept tree is run as a program is, except that its expressions stand in slots, where they are left
with their names replaced. A coupling under which slots may be set couples the runs of a tree as it
couples those of a program.
-/

namespace LittleJ

namespace Coupling

/-- Kept trees may be run in a scope: code may run there, slots may be set, and loops respect the
coupling. -/
structure Tends (c : Coupling) (scope : Nat) (ctx₁ ctx₂ : Context) : Prop where
  hosts : c.Hosts scope fun _ => True
  setSlot : ∀ slot ts, c.Together (modify (·.setSlot slot ts)) (modify (·.setSlot slot ts))
  echo : ctx₁.echo = ctx₂.echo
  loop : ∀ {m₁ m₂ : Eval Bool} {b₁ b₂ : Eval Unit}, c.Together m₁ m₂ → c.Together b₁ b₂ →
    c.Together (Statement.loop ctx₁.loopLimit ctx₁.rounds m₁ b₁)
      (Statement.loop ctx₂.loopLimit ctx₂.rounds m₂ b₂)

namespace Alongside

variable {c : Coupling} {scope : Nat} {l₁ l₂ : Layer} {ctx₁ ctx₂ : Context}

theorem slotValue (h : c.Alongside scope l₁ l₂) (hc : c.Tends scope ctx₁ ctx₂) (slot : Nat) :
    c.Together (l₁.slotValue scope slot) (l₂.slotValue scope slot) := by
  unfold Layer.slotValue
  refine Coupled.read fun σ₁ σ₂ hrel => ?_
  rw [(hc.hosts.agree hrel).slot]
  refine Coupled.bind (hc.hosts.resolveWith (hc.setSlot slot) _) (fun ts _ => ?_) _ _ hrel
  refine Together.bind ?_ fun v => Coupled.pure trivial
  exact hc.hosts.reduce (n := ts.length) (fun e _ => h.evaluate e) h.call ts (Nat.le_refl _)

mutual

theorem execKept (h : c.Alongside scope l₁ l₂) (hc : c.Tends scope ctx₁ ctx₂) (k : Kept) :
    c.Together (Layer.execKept ctx₁ l₁ scope k) (Layer.execKept ctx₂ l₂ scope k) := by
  cases k with
  | init name slot =>
    rw [Layer.execKept, Layer.execKept]
    exact Together.bind (h.slotValue hc slot) fun r => hc.hosts.initialise name r.2
  | assign target value =>
    rw [Layer.execKept, Layer.execKept]
    refine Together.bind (h.slotValue hc value) fun r => Coupled.read fun σ₁ σ₂ hrel => ?_
    rw [(hc.hosts.agree hrel).slot]
    have hwhole : c.Together (do return (← l₁.slotValue scope target).2)
        (do return (← l₂.slotValue scope target).2) :=
      Together.bind (h.slotValue hc target) fun _ => Coupled.pure trivial
    exact hc.hosts.assign (n := (σ₂.slot target).length + 1) (fun e _ => h.evaluate e)
      hwhole _ r.1 r.2 (Nat.lt_succ_self _) _ _ hrel
  | ladder arms =>
    rw [Layer.execKept, Layer.execKept]
    exact h.climbKept hc arms
  | loop condition code =>
    rw [Layer.execKept, Layer.execKept]
    refine Coupled.read fun σ₁ σ₂ hrel => ?_
    rw [(hc.hosts.agree hrel).slot]
    exact hc.loop (Together.bind (h.evaluate _) fun v => Coupled.truth) (h.runAll code) _ _ hrel
  | ret slot =>
    rw [Layer.execKept, Layer.execKept]
    exact Together.bind (h.slotValue hc slot) fun r => Coupled.throw (by simp)
  | brk =>
    rw [Layer.execKept, Layer.execKept]
    exact Coupled.throw (by simp)
  | exp slot =>
    rw [Layer.execKept, Layer.execKept, hc.echo]
    exact Together.bind (h.slotValue hc slot) fun r => hc.hosts.echo _ _ r.2

theorem execTree (h : c.Alongside scope l₁ l₂) (hc : c.Tends scope ctx₁ ctx₂) (ks : List Kept) :
    c.Together (Layer.execTree ctx₁ l₁ scope ks) (Layer.execTree ctx₂ l₂ scope ks) := by
  cases ks with
  | nil =>
    rw [Layer.execTree, Layer.execTree]
    exact Coupled.pure trivial
  | cons k rest =>
    rw [Layer.execTree, Layer.execTree]
    exact Together.bind (h.execKept hc k) fun _ => h.execTree hc rest

theorem climbKept (h : c.Alongside scope l₁ l₂) (hc : c.Tends scope ctx₁ ctx₂)
    (arms : List (Nat × List Kept)) :
    c.Together (Layer.climbKept ctx₁ l₁ scope arms) (Layer.climbKept ctx₂ l₂ scope arms) := by
  cases arms with
  | nil =>
    rw [Layer.climbKept, Layer.climbKept]
    exact Coupled.pure trivial
  | cons arm arms =>
    obtain ⟨slot, code⟩ := arm
    rw [Layer.climbKept, Layer.climbKept]
    refine Together.bind (h.slotValue hc slot) fun r => Together.bind Coupled.truth fun b => ?_
    exact Coupled.ite (fun _ => h.execTree hc code) fun _ => h.climbKept hc arms

end

end Alongside

end Coupling

end LittleJ
