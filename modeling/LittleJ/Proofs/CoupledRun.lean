import LittleJ.Proofs.CoupledStatement
import Mathlib.Algebra.Order.BigOperators.Group.List
import Mathlib.Algebra.Order.Group.Nat

/-!
# Whole runs side by side

When a coupling hosts code in every scope, and entering a call and repeating a loop respect it too,
then whole runs are coupled, the first with at most the fuel of the second. The induction is on the
fuel of the first run; one level of it was done in `LittleJ.Proofs.CoupledStatement`.

The first use is the plainest coupling, where the two stores are equal: a run that ends within some
budget ends in the same way within every larger one. What a program does is therefore a matter of
the program alone, and the budget only says how long we are willing to look.
-/

namespace LittleJ

open Statement

variable {fuel₁ fuel₂ : Nat}

namespace Coupling

variable {c : Coupling} {ctx₁ ctx₂ : Context}

/-- Every run is coupled: code may run in any scope, the first run may use up its budget, and calls
and loops respect the coupling. -/
structure Throughout (c : Coupling) (ctx₁ ctx₂ : Context) : Prop where
  hosts : ∀ scope, c.Hosts scope fun _ => True
  exhausted : c.excused .exhausted
  echo : ctx₁.echo = ctx₂.echo
  enter : ∀ caller home params args, c.Together (Statement.enter caller home params args)
    (Statement.enter caller home params args)
  loop : ∀ {m₁ m₂ : Eval Bool} {b₁ b₂ : Eval Unit}, c.Together m₁ m₂ → c.Together b₁ b₂ →
    c.Together (loop ctx₁.loopLimit ctx₁.rounds m₁ b₁)
      (loop ctx₂.loopLimit ctx₂.rounds m₂ b₂)

/-- A computation that has no budget at all is coupled with every other. -/
theorem Coupled.exhausted {α : Type} {P : α → Prop} (h : c.excused .exhausted) (m : Eval α) :
    c.Coupled P (MonadExcept.throw .exhausted) m :=
  fun _ _ _ => .excused h

/-- A loop that may have fewer rounds is coupled with one that may have more. -/
theorem Together.iterate (h : c.excused .exhausted) {step₁ step₂ : Eval Bool}
    (hstep : c.Together step₁ step₂) {n₁ n₂ : Nat} (hn : n₁ ≤ n₂) :
    c.Together (Statement.iterate step₁ n₁) (Statement.iterate step₂ n₂) := by
  induction n₁ generalizing n₂ with
  | zero => exact Coupled.exhausted h _
  | succ n₁ ih =>
    obtain ⟨n₂, rfl⟩ : ∃ m, n₂ = m + 1 := ⟨n₂ - 1, by omega⟩
    rw [Statement.iterate, Statement.iterate]
    refine Together.bind hstep fun b => ?_
    exact Coupled.ite (fun _ => ih (by omega)) fun _ => Coupled.pure trivial

/-- Two loops that may have the same rounds are coupled if both runs may stop for want of rounds. -/
theorem Together.iterate_of_shared (h : c.shared .exhausted) {step₁ step₂ : Eval Bool}
    (hstep : c.Together step₁ step₂) (n : Nat) :
    c.Together (Statement.iterate step₁ n) (Statement.iterate step₂ n) := by
  induction n with
  | zero => exact fun _ _ hrel => .stop h hrel
  | succ n ih =>
    rw [Statement.iterate, Statement.iterate]
    refine Together.bind hstep fun b => ?_
    exact Coupled.ite (fun _ => ih) fun _ => Coupled.pure trivial

/-- The rounds of a loop whose condition and code are coupled, if reading the clock is. -/
theorem Together.round (htick : c.Together (modifyGet Store.tick) (modifyGet Store.tick))
    (limit : Option Rat) (start : Nat) {m₁ m₂ : Eval Bool} {b₁ b₂ : Eval Unit}
    (hm : c.Together m₁ m₂) (hb : c.Together b₁ b₂) :
    c.Together (Statement.round limit start m₁ b₁) (Statement.round limit start m₂ b₂) := by
  unfold Statement.round
  refine Together.bind hm fun b => Coupled.ite (fun _ => ?_) fun _ => Coupled.pure trivial
  refine Together.bind (Hosts.body hb) fun b => Coupled.ite (fun _ => ?_) fun _ =>
    Coupled.pure trivial
  cases limit with
  | none => exact Coupled.pure trivial
  | some l =>
    refine Together.bind htick fun now => ?_
    exact Coupled.check fun _ => Coupled.pure trivial

theorem Together.loop (h : c.excused .exhausted)
    (htick : c.Together (modifyGet Store.tick) (modifyGet Store.tick)) (limit : Option Rat)
    {m₁ m₂ : Eval Bool} {b₁ b₂ : Eval Unit} (hm : c.Together m₁ m₂) (hb : c.Together b₁ b₂)
    {n₁ n₂ : Nat} (hn : n₁ ≤ n₂) :
    c.Together (Statement.loop limit n₁ m₁ b₁) (Statement.loop limit n₂ m₂ b₂) := by
  unfold Statement.loop
  exact Together.bind htick fun start =>
    Together.iterate h (Together.round htick limit start hm hb) hn

/-! ## Layer by layer -/

/-- Evaluations, calls and statements in a scope are coupled, those of one layer with those of
another. -/
structure Alongside (c : Coupling) (scope : Nat) (l₁ l₂ : Layer) : Prop where
  evaluate : ∀ e, c.Together (l₁.evaluate scope e) (l₂.evaluate scope e)
  call : ∀ r args, c.Together (l₁.call scope r args) (l₂.call scope r args)
  exec : ∀ s, c.Together (l₁.exec scope s) (l₂.exec scope s)

namespace Alongside

variable {scope : Nat} {l₁ l₂ : Layer}

theorem runAll (h : c.Alongside scope l₁ l₂) (p : Program) :
    c.Together (LittleJ.runAll (l₁.exec scope) p) (LittleJ.runAll (l₂.exec scope) p) :=
  Hosts.runAll p fun s _ => h.exec s

theorem above_evaluate (h : c.Alongside scope l₁ l₂) (hc : c.Hosts scope fun _ => True)
    (ctx₁ ctx₂ : Context) (e : Expr) :
    c.Together ((l₁.above ctx₁).evaluate scope e) ((l₂.above ctx₂).evaluate scope e) :=
  hc.above_evaluate (n := e.length) (fun e _ => h.evaluate e) h.call e (Nat.le_refl _)

theorem above_exec (h : c.Alongside scope l₁ l₂) (hc : c.Hosts scope fun _ => True)
    (hecho : ctx₁.echo = ctx₂.echo)
    (hloop : ∀ {m₁ m₂ : Eval Bool} {b₁ b₂ : Eval Unit}, c.Together m₁ m₂ → c.Together b₁ b₂ →
      c.Together (loop ctx₁.loopLimit ctx₁.rounds m₁ b₁)
        (loop ctx₂.loopLimit ctx₂.rounds m₂ b₂)) (s : Stmt) :
    c.Together ((l₁.above ctx₁).exec scope s) ((l₂.above ctx₂).exec scope s) := by
  by_cases hs : ∃ condition code, s = .loop condition code
  · obtain ⟨condition, code, rfl⟩ := hs
    refine Coupled.bind (hc.load condition fun _ _ => trivial) fun ts _ => ?_
    exact hloop (Together.bind (h.evaluate ts) fun v => Coupled.truth) (h.runAll code)
  · -- every expression of the statement is shorter than all of them together
    refine hc.above_exec (n := (s.exprs.map List.length).sum + 1) (fun e _ => h.evaluate e) h.call s
      (fun m b he => hs ⟨m, b, he⟩) hecho (fun e he => ?_) (fun _ _ _ _ => trivial) fun b _ =>
      h.runAll b
    exact Nat.lt_succ_of_le (List.le_sum_of_mem (List.mem_map_of_mem he))

end Alongside

namespace Throughout

/-- A call runs the body of the same function in both runs. -/
theorem above_call (h : c.Throughout ctx₁ ctx₂) {l₁ l₂ : Layer}
    (hl : ∀ scope, c.Alongside scope l₁ l₂) (caller r : Nat) (args : List Value) :
    c.Together ((l₁.above ctx₁).call caller r args) ((l₂.above ctx₂).call caller r args) := by
  -- the stores agree on closures, so both runs call the same function
  refine Coupled.read fun σ₁ σ₂ hrel => ?_
  rw [((h.hosts caller).agree hrel).closure]
  generalize σ₂.closure r = k
  refine (?_ : c.Together _ _) _ _ hrel
  refine Coupled.ite (fun _ => ?_) fun _ => ?_
  · refine Together.bind ((h.hosts caller).shownArguments args) fun s => ?_
    exact Coupled.throw_bind (by simp)
  · cases k.home with
    | none => exact Coupled.breakdown
    | some home =>
      refine Together.bind (h.enter caller home _ args) fun scope => ?_
      exact Hosts.returned ((hl scope).runAll _)

/-- **Evaluations, calls and statements are coupled at every level of nesting.** -/
theorem alongside (h : c.Throughout ctx₁ ctx₂) (hle : fuel₁ ≤ fuel₂) (scope : Nat) :
    c.Alongside scope (Layer.within ctx₁ fuel₁) (Layer.within ctx₂ fuel₂) := by
  induction fuel₁ generalizing fuel₂ scope with
  | zero =>
    -- the first run stops at once, and that is excused
    rw [Layer.within_zero]
    exact ⟨fun _ => Coupled.exhausted h.exhausted _, fun _ _ => Coupled.exhausted h.exhausted _,
      fun _ => Coupled.exhausted h.exhausted _⟩
  | succ fuel₁ ih =>
    obtain ⟨fuel₂, rfl⟩ : ∃ m, fuel₂ = m + 1 := ⟨fuel₂ - 1, by omega⟩
    have hl : ∀ scope, c.Alongside scope (Layer.within ctx₁ fuel₁) (Layer.within ctx₂ fuel₂) :=
      ih (by omega)
    rw [Layer.within_succ, Layer.within_succ]
    exact ⟨(hl scope).above_evaluate (h.hosts scope) ctx₁ ctx₂, h.above_call hl scope,
      (hl scope).above_exec (h.hosts scope) h.echo h.loop⟩

theorem runProgram (h : c.Throughout ctx₁ ctx₂) (hle : fuel₁ ≤ fuel₂) (scope : Nat) (p : Program) :
    c.Together (LittleJ.runProgram ctx₁ fuel₁ scope p) (LittleJ.runProgram ctx₂ fuel₂ scope p) :=
  (h.alongside hle scope).runAll p

end Throughout

end Coupling

/-! ## More budget changes nothing -/

namespace Budget

open Coupling

/-- The runs under a smaller and a larger budget have equal stores, and only the first may use up
what it has. -/
def coupling : Coupling where
  rel := Eq
  excused := (· = .exhausted)
  brk := by simp
  ret := by simp

theorem hosts (scope : Nat) : coupling.Hosts scope fun _ => True := by
  refine .alone (I := fun _ => True) (fun σ₁ σ₂ => ?_) ?_ ?_ ?_ ?_
  · exact (and_iff_left trivial).symm
  all_goals
    intros
    trivial

theorem enter (caller home : Nat) (params : List String) (args : List Value) :
    coupling.Together (Statement.enter caller home params args)
      (Statement.enter caller home params args) := by
  unfold Statement.enter makeChild deepen
  refine Together.bind ?_ fun scope => ?_
  · refine Coupled.read ?_
    rintro σ _ rfl
    refine Together.bind Coupled.ofFailure (fun inner => ?_) _ _ rfl
    exact Coupled.make (by rintro σ _ rfl; exact ⟨rfl, rfl⟩)
  · refine Coupled.read ?_
    rintro σ _ rfl
    refine Together.bind ?_ (fun _ => Coupled.pure trivial) _ _ rfl
    refine Together.bind (Coupled.modify (by rintro σ _ rfl; rfl)) fun _ => ?_
    refine Coupled.read ?_
    rintro σ _ rfl
    exact Coupled.ite (fun _ => Coupled.raise) (fun _ => Coupled.pure trivial) _ _ rfl

theorem tick : coupling.Together (modifyGet Store.tick) (modifyGet Store.tick) := by
  rintro σ _ rfl
  exact .ok trivial rfl

/-- A larger number of rounds and a larger budget of nesting respect equal stores. -/
theorem throughout {ctx₁ ctx₂ : Context} (hlimit : ctx₁.loopLimit = ctx₂.loopLimit)
    (hecho : ctx₁.echo = ctx₂.echo) (hrounds : ctx₁.rounds ≤ ctx₂.rounds) :
    coupling.Throughout ctx₁ ctx₂ where
  hosts := hosts
  exhausted := rfl
  echo := hecho
  enter := enter
  loop := by
    intro m₁ m₂ b₁ b₂ hm hb
    rw [hlimit]
    exact Together.loop rfl tick _ hm hb hrounds

/-- Only a first run that used up its budget lets the second one go its own way. -/
theorem eq_of_matches {α : Type} {P : α → Prop} {r₁ r₂ : EStateM.Result Stop Store α}
    (hm : coupling.Matches P r₁ r₂) (h : ∀ σ, r₁ ≠ .error .exhausted σ) : r₂ = r₁ := by
  cases hm with
  | ok _ hrel => rw [show _ = _ from hrel]
  | stop _ hrel => rw [show _ = _ from hrel]
  | @excused e σ₁ _ he => exact absurd (congrArg (EStateM.Result.error · σ₁) he) (h σ₁)

/-- **A run that ends within a budget ends in the same way within every larger one.** -/
theorem runProgram_mono {ctx₁ ctx₂ : Context} (hlimit : ctx₁.loopLimit = ctx₂.loopLimit)
    (hecho : ctx₁.echo = ctx₂.echo) (hrounds : ctx₁.rounds ≤ ctx₂.rounds)
    (hfuel : fuel₁ ≤ fuel₂) {scope : Nat} {p : Program} {σ : Store}
    (h : ∀ σ', runProgram ctx₁ fuel₁ scope p σ ≠ .error .exhausted σ') :
    runProgram ctx₂ fuel₂ scope p σ = runProgram ctx₁ fuel₁ scope p σ :=
  eq_of_matches ((throughout hlimit hecho hrounds).runProgram hfuel scope p σ σ rfl) h

/-- An expression that has a value within a budget has it within every larger one. -/
theorem evaluate_mono {ctx : Context} (hfuel : fuel₁ ≤ fuel₂) {scope : Nat} {e : Expr}
    {σ σ' : Store} {v : Value} (h : evaluate ctx fuel₁ scope e σ = .ok v σ') :
    evaluate ctx fuel₂ scope e σ = .ok v σ' := by
  have hall : coupling.Throughout ctx ctx := throughout rfl rfl (Nat.le_refl _)
  have hm : coupling.Matches _ (evaluate ctx fuel₁ scope e σ) (evaluate ctx fuel₂ scope e σ) :=
    (hall.alongside hfuel scope).evaluate e σ σ rfl
  exact (eq_of_matches hm (by simp [h])).trans h

end Budget

end LittleJ
