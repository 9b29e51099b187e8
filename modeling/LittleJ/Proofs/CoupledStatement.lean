import LittleJ.Proofs.CoupledExpression
import LittleJ.Proofs.Moments

/-!
# Statements side by side

Under a coupling that hosts a scope, statements that are run in it are coupled if their expressions
and blocks are. Loops are left out of `exec`: when a loop ends is a matter of the budget and the
clock, about which each coupling has its own to say.
-/

namespace LittleJ

open Statement List

/-- The expressions that a statement evaluates itself. -/
def Stmt.exprs : Stmt → List Expr
  | .init _ e => [e]
  | .assign target e => [target, e]
  | .ladder arms => arms.map Prod.fst
  | .loop condition _ => [condition]
  | .ret e => [e]
  | .brk => []
  | .exp e => [e]

/-- The blocks that a statement may run. -/
def Stmt.blocks : Stmt → List Program
  | .ladder arms => arms.map Prod.snd
  | .loop _ code => [code]
  | _ => []

theorem Store.has_of_ownerFrom {σ : Store} {name : String} {fuel r o : Nat}
    (h : σ.ownerFrom name fuel r = some o) : (σ.scope o).vars.has name = true := by
  induction fuel generalizing r with
  | zero => simp [Store.ownerFrom] at h
  | succ fuel ih =>
    rw [Store.ownerFrom] at h
    split at h
    · rename_i hhas
      simp only [Option.some.injEq] at h
      exact h ▸ hhas
    · split at h
      · exact ih h
      · simp at h

/-- The scope that owns a variable has it. -/
theorem Store.has_of_owner {σ : Store} {name : String} {r o : Nat}
    (h : σ.owner r name = .ok o) : (σ.scope o).vars.has name = true := by
  unfold Store.owner at h
  split at h
  · rename_i ho
    simp only [Except.ok.injEq] at h
    exact Store.has_of_ownerFrom (h ▸ ho)
  · simp at h

theorem Eval.get_apply (σ : Store) : (get : Eval Store) σ = .ok σ σ := rfl

theorem Eval.modify_apply (f : Store → Store) (σ : Store) :
    (modify f : Eval PUnit) σ = .ok .unit (f σ) := rfl

theorem Eval.modifyGet_apply {α : Type} (f : Store → α × Store) (σ : Store) :
    (modifyGet f : Eval α) σ = .ok (f σ).1 (f σ).2 := rfl

/-- What entering a call comes to: a new scope, its depth set, and the limit looked at. -/
theorem Statement.enter_eq (caller home : Nat) (params : List String)
    (args : List Value) (σ : Store) :
    enter caller home params args σ =
      match σ.childScope home params args with
      | .error x => .error (.failure x) σ
      | .ok inner =>
        let σ₁ := (σ.newScope inner).2
        let σ₂ := σ₁.setDepth σ.scopes.size ((σ₁.scope caller).depth + 1)
        if σ₂.atLimit σ.scopes.size then .error (.failure (.error .callDepth)) σ₂
        else .ok σ.scopes.size σ₂ := by
  cases hchild : σ.childScope home params args with
  | error x =>
    simp only [enter, makeChild, bind, EStateM.bind, Eval.get_apply, hchild]
    rfl
  | ok inner =>
    simp only [enter, makeChild, deepen, bind, EStateM.bind, hchild,
      Eval.ofFailure, pure, EStateM.pure, Eval.make, Eval.get_apply, Eval.modify_apply,
      Eval.modifyGet_apply]
    rw [show (σ.newScope inner).1 = σ.scopes.size from rfl]
    generalize (σ.newScope inner).2.setDepth σ.scopes.size
      (((σ.newScope inner).2.scope caller).depth + 1) = σ₂
    cases σ₂.atLimit σ.scopes.size with
    | true => rfl
    | false => rfl

namespace Coupling.Hosts

variable {c : Coupling} {scope : Nat} {admits : Function → Prop} (hc : c.Hosts scope admits)

/-! ## Functions and variables -/

section
include hc

theorem load (e : Expr) (hf : ∀ f, Token.func f ∈ e → admits f) :
    c.Coupled (fun out => out.length = e.length) (Statement.load e) (Statement.load e) := by
  induction e with
  | nil => exact Coupled.pure rfl
  | cons t ts ih =>
    have hts := ih fun f h => hf f (mem_cons_of_mem _ h)
    unfold Statement.load
    split
    · rename_i f
      refine Together.bind (hc.newClosure (hf f mem_cons_self)) fun r => ?_
      exact Coupled.bind hts fun out hout => Coupled.pure (by simp [hout])
    · exact Coupled.bind hts fun out hout => Coupled.pure (by simp [hout])

theorem initialise (name : String) (v : Value) :
    c.Together (Statement.initialise scope name v) (Statement.initialise scope name v) := by
  unfold Statement.initialise
  refine Coupled.read fun σ₁ σ₂ hrel => ?_
  rw [(hc.agree hrel).checkNew]
  cases hn : σ₂.checkNew scope name with
  | error e => exact Coupled.throw_bind (by simp) _ _ hrel
  | ok u =>
    have hhas : (σ₁.scope scope).vars.has name = false := by
      rw [(hc.agree hrel).vars]
      unfold Store.checkNew at hn
      split at hn
      · simp at hn
      · rename_i h; simpa using h
    exact .ok trivial (hc.makeVar hhas hrel)

theorem assignName (name : String) (v : Value) :
    c.Together (Statement.assignName scope name v) (Statement.assignName scope name v) := by
  unfold Statement.assignName
  refine Coupled.read fun σ₁ σ₂ hrel => ?_
  have howner := (hc.agree hrel).owner scope name
  cases ho : σ₁.owner scope name with
  | error e =>
    rw [← howner, ho]
    exact Coupled.throw_bind (by simp) _ _ hrel
  | ok o =>
    rw [← howner, ho]
    exact .ok trivial (hc.setVar (Store.has_of_owner ho) hrel)

omit hc in
theorem settingPosition (length : Nat) (x : Float) :
    c.Together (Eval.settingPosition length x) (Eval.settingPosition length x) := by
  unfold Eval.settingPosition
  split
  · exact Coupled.breakdown
  · split
    · exact Coupled.pure trivial
    · exact Coupled.breakdown

theorem assignPart (base key v : Value) {whole₁ whole₂ : Eval Value}
    (hwhole : c.Together whole₁ whole₂) (target source : Expr) :
    c.Together (Statement.assignPart base key v whole₁ target source)
      (Statement.assignPart base key v whole₂ target source) := by
  unfold Statement.assignPart
  split
  · exact hc.modifyObject _ _
  · refine Together.bind hwhole fun _ => ?_
    refine Coupled.read fun σ₁ σ₂ hrel => ?_
    rw [(hc.agree hrel).array]
    exact Together.bind (settingPosition _ _) (fun i => hc.modifyArray _ _) _ _ hrel
  · exact hc.raiseAt

theorem assign {eval₁ eval₂ : Expr → Eval Value} {n : Nat}
    (heval : ∀ e : Expr, e.length < n → c.Together (eval₁ e) (eval₂ e))
    {whole₁ whole₂ : Eval Value} (hwhole : c.Together whole₁ whole₂) (target source : Expr)
    (v : Value) (hn : target.length < n) :
    c.Together (Statement.assign eval₁ scope target whole₁ source v)
      (Statement.assign eval₂ scope target whole₂ source v) := by
  unfold Statement.assign
  split
  · exact hc.assignName _ _
  · split
    · exact Coupled.raise
    · rename_i k _
      refine Together.bind (heval _ ?_) fun base => ?_
      · simp only [length_take]; omega
      · refine Together.bind (heval _ ?_) fun key => hc.assignPart base key v hwhole _ _
        simp only [length_dropLast, length_drop]; omega

theorem echo (on : Bool) (s : Nat) (v : Value) :
    c.Together (Statement.echo on s v) (Statement.echo on s v) := by
  unfold Statement.echo
  refine Coupled.read fun σ₁ σ₂ hrel => ?_
  rw [(hc.agree hrel).isGlobal, (hc.agree hrel).print]
  refine Coupled.ite (fun _ => ?_) (fun _ => Coupled.pure trivial) _ _ hrel
  exact Together.bind Coupled.ofFault fun s => hc.write _

theorem shownArguments (args : List Value) :
    c.Together (Statement.shownArguments args) (Statement.shownArguments args) := by
  unfold Statement.shownArguments
  refine Coupled.read fun σ₁ σ₂ hrel => ?_
  rw [(hc.agree hrel).print]
  exact Together.bind Coupled.ofFault (fun _ => Coupled.pure trivial) _ _ hrel

end

/-! ## Blocks, ladders and the ends of bodies -/

theorem ladder {ε κ : Type} {holds₁ holds₂ : ε → Eval Bool} {run₁ run₂ : κ → Eval Unit}
    (arms : List (ε × κ)) (hholds : ∀ a ∈ arms, c.Together (holds₁ a.1) (holds₂ a.1))
    (hrun : ∀ a ∈ arms, c.Together (run₁ a.2) (run₂ a.2)) :
    c.Together (Statement.ladder holds₁ run₁ arms) (Statement.ladder holds₂ run₂ arms) := by
  induction arms with
  | nil => exact Coupled.pure trivial
  | cons arm arms ih =>
    rw [Statement.ladder, Statement.ladder]
    refine Together.bind (hholds arm mem_cons_self) fun b => ?_
    refine Coupled.ite (fun _ => hrun arm mem_cons_self) fun _ => ?_
    exact ih (fun a ha => hholds a (mem_cons_of_mem _ ha))
      fun a ha => hrun a (mem_cons_of_mem _ ha)

theorem runAll {exec₁ exec₂ : Stmt → Eval Unit} (p : Program)
    (h : ∀ s ∈ p, c.Together (exec₁ s) (exec₂ s)) :
    c.Together (LittleJ.runAll exec₁ p) (LittleJ.runAll exec₂ p) := by
  induction p with
  | nil => exact Coupled.pure trivial
  | cons s rest ih =>
    rw [LittleJ.runAll, LittleJ.runAll]
    refine Together.bind (h s mem_cons_self) fun _ => ?_
    exact ih fun t ht => h t (mem_cons_of_mem _ ht)

/-- A `break` is shared, so the code of a loop ends alike in both runs. -/
theorem body {code₁ code₂ : Eval Unit} (h : c.Together code₁ code₂) :
    c.Together (Statement.body code₁) (Statement.body code₂) := by
  intro σ₁ σ₂ hrel
  have hm := h σ₁ σ₂ hrel
  unfold Statement.body
  revert hm
  generalize code₁ σ₁ = r₁
  generalize code₂ σ₂ = r₂
  intro hm
  cases hm with
  | ok _ hrel' => exact .ok trivial hrel'
  | @stop e _ _ he hrel' =>
    cases e with
    | brk => exact .ok trivial hrel'
    | _ => exact .stop he hrel'
  | @excused e _ _ he =>
    cases e with
    | brk => exact absurd he c.brk
    | _ => exact .excused he

/-- A `return` is shared, so a body gives the same value in both runs. -/
theorem returned_of_matches {code₁ code₂ : Eval Unit} {σ₁ σ₂ : Store}
    (hm : c.Matches (fun _ => True) (code₁ σ₁) (code₂ σ₂)) :
    c.Matches (fun _ => True) (Statement.returned code₁ σ₁) (Statement.returned code₂ σ₂) := by
  unfold Statement.returned
  revert hm
  generalize code₁ σ₁ = r₁
  generalize code₂ σ₂ = r₂
  intro hm
  cases hm with
  | ok _ hrel' => exact Coupled.raise _ _ hrel'
  | @stop e _ _ he hrel' =>
    cases e with
    | ret v => exact .ok trivial hrel'
    | _ => exact .stop he hrel'
  | @excused e _ _ he =>
    cases e with
    | ret v => exact absurd he (c.ret v)
    | _ => exact .excused he

theorem returned {code₁ code₂ : Eval Unit} (h : c.Together code₁ code₂) :
    c.Together (Statement.returned code₁) (Statement.returned code₂) :=
  fun σ₁ σ₂ hrel => returned_of_matches (h σ₁ σ₂ hrel)

/-! ## One level of running -/

section

variable {ctx₁ ctx₂ : Context} {l₁ l₂ : Layer} {n : Nat}
  (heval : ∀ e : Expr, e.length < n → c.Together (l₁.evaluate scope e) (l₂.evaluate scope e))
  (hcall : ∀ r args, c.Together (l₁.call scope r args) (l₂.call scope r args))

include hc heval hcall in
/-- An expression is coupled if shorter ones and calls are, one level of nesting further in. -/
theorem above_evaluate (e : Expr) (hn : e.length ≤ n) :
    c.Together ((l₁.above ctx₁).evaluate scope e) ((l₂.above ctx₂).evaluate scope e) := by
  refine Coupled.bind (hc.resolve e) fun ts hts => ?_
  exact hc.reduce heval hcall ts (Nat.le_trans (Nat.le_of_eq hts) hn)

include hc heval in
/-- The value of an expression as a statement holds it. -/
theorem value (e : Expr) (hn : e.length < n) (hf : ∀ f, Token.func f ∈ e → admits f) :
    c.Together (do l₁.evaluate scope (← Statement.load e))
      (do l₂.evaluate scope (← Statement.load e)) :=
  Coupled.bind (hc.load e hf) fun ts hts => heval ts (Nat.lt_of_le_of_lt (Nat.le_of_eq hts) hn)

include hc heval hcall in
/-- A statement that is no loop is coupled if its expressions, calls and blocks are. -/
theorem above_exec (s : Stmt) (hs : ∀ condition code, s ≠ .loop condition code)
    (hecho : ctx₁.echo = ctx₂.echo) (hn : ∀ e ∈ s.exprs, e.length < n)
    (hf : ∀ e ∈ s.exprs, ∀ f, Token.func f ∈ e → admits f)
    (hrun : ∀ b ∈ s.blocks, c.Together (LittleJ.runAll (l₁.exec scope) b)
      (LittleJ.runAll (l₂.exec scope) b)) :
    c.Together ((l₁.above ctx₁).exec scope s) ((l₂.above ctx₂).exec scope s) := by
  have hvalue : ∀ e ∈ s.exprs, c.Together (do l₁.evaluate scope (← Statement.load e))
      (do l₂.evaluate scope (← Statement.load e)) :=
    fun e he => hc.value heval e (hn e he) (hf e he)
  cases s with
  | init name e =>
    exact Together.bind (hvalue e (by simp [Stmt.exprs])) fun v => hc.initialise name v
  | assign target e =>
    have ht : target ∈ (Stmt.assign target e).exprs := by simp [Stmt.exprs]
    have he : e ∈ (Stmt.assign target e).exprs := by simp [Stmt.exprs]
    refine Coupled.bind (hc.load e (hf e he)) fun ts hts => ?_
    refine Coupled.bind (hc.resolve ts) fun source hsource => ?_
    refine Together.bind (hc.reduce heval hcall source ?_) fun v => ?_
    · have := hn e he
      omega
    · refine Coupled.bind (hc.load target (hf target ht)) fun us hus => ?_
      have hlen : us.length < n := Nat.lt_of_le_of_lt (Nat.le_of_eq hus) (hn target ht)
      exact hc.assign heval (heval us hlen) us source v hlen
  | ladder arms =>
    refine ladder arms (fun a ha => ?_) fun a ha => ?_
    · refine Together.bind (hvalue a.1 ?_) fun v => Coupled.truth
      exact mem_map_of_mem ha
    · exact hrun a.2 (mem_map_of_mem ha)
  | loop condition code => exact absurd rfl (hs condition code)
  | ret e =>
    exact Together.bind (hvalue e (by simp [Stmt.exprs])) fun v => Coupled.throw (by simp)
  | brk => exact Coupled.throw (by simp)
  | exp e =>
    dsimp only [Layer.above]
    rw [hecho]
    exact Together.bind (hvalue e (by simp [Stmt.exprs])) fun v => hc.echo _ _ v

end

variable {ctx₁ ctx₂ : Context} {fuel₁ fuel₂ n : Nat}
  (heval : ∀ e : Expr, e.length < n →
    c.Together (LittleJ.evaluate ctx₁ fuel₁ scope e) (LittleJ.evaluate ctx₂ fuel₂ scope e))
  (hcall : ∀ r args, c.Together (LittleJ.call ctx₁ fuel₁ scope r args)
    (LittleJ.call ctx₂ fuel₂ scope r args))

include hc heval hcall in
theorem evaluate (e : Expr) (hn : e.length ≤ n) :
    c.Together (LittleJ.evaluate ctx₁ (fuel₁ + 1) scope e)
      (LittleJ.evaluate ctx₂ (fuel₂ + 1) scope e) := by
  have h : c.Together (((Layer.within ctx₁ fuel₁).above ctx₁).evaluate scope e)
      (((Layer.within ctx₂ fuel₂).above ctx₂).evaluate scope e) :=
      hc.above_evaluate heval hcall e hn
  rwa [← Layer.within_succ, ← Layer.within_succ] at h

include hc heval hcall in
theorem exec (s : Stmt) (hs : ∀ condition code, s ≠ .loop condition code)
    (hecho : ctx₁.echo = ctx₂.echo) (hn : ∀ e ∈ s.exprs, e.length < n)
    (hf : ∀ e ∈ s.exprs, ∀ f, Token.func f ∈ e → admits f)
    (hrun : ∀ b ∈ s.blocks, c.Together (LittleJ.runAll (LittleJ.exec ctx₁ fuel₁ scope) b)
      (LittleJ.runAll (LittleJ.exec ctx₂ fuel₂ scope) b)) :
      c.Together (LittleJ.exec ctx₁ (fuel₁ + 1) scope s)
      (LittleJ.exec ctx₂ (fuel₂ + 1) scope s) := by
  have h : c.Together (((Layer.within ctx₁ fuel₁).above ctx₁).exec scope s)
      (((Layer.within ctx₂ fuel₂).above ctx₂).exec scope s) :=
    hc.above_exec heval hcall s hs hecho hn hf hrun
  rwa [← Layer.within_succ, ← Layer.within_succ] at h

end Coupling.Hosts

end LittleJ
