import LittleJ.Interpreter

/-!
# Moments of a run

What a run did is seen from the store it left, but many facts are about the way there: about every
moment of a run, also of one that fails or never ends. The moments we speak of are those at which an
evaluation, a call or a statement is about to start.

To look at them a run is *watched*. Before each start an alarm is asked, which sees the store and
what is about to be done, and which may stop the run with a failure of its own. A property holds
*always* in a run if an alarm that rings only where the property fails never rings: the watched run
is then the run itself. For this the recursion of running is cut into layers, each a function of the
one below it.
-/

namespace LittleJ

open Expression Statement

/-- What running may be about to do. -/
inductive Task
  | evaluate (scope : Nat) (e : Expr)
  | call (caller r : Nat) (args : List Value)
  | exec (scope : Nat) (s : Stmt)

/-- Evaluations, calls and statements at one layer of nesting. -/
structure Layer where
  evaluate : Nat → Expr → Eval Value
  call : Nat → Nat → List Value → Eval Value
  exec : Nat → Stmt → Eval Unit

namespace Layer

/-- The layer at which the budget is used up. -/
def spent : Layer where
  evaluate _ _ := throw .exhausted
  call _ _ _ := throw .exhausted
  exec _ _ := throw .exhausted

/-- The layer above another one. -/
def above (ctx : Context) (l : Layer) : Layer where
  evaluate scope ts := do
    let ts ← resolve scope ts
    reduce (l.evaluate scope) (l.call scope) ts
  call caller r args := do
    let c := (← get).closure r
    if args.length != c.function.params.length then
      Eval.raise (.argumentCount (← shownArguments args))
    match c.home with
    | none => Eval.breakdown (.internal "")
    | some home =>
      let scope ← enter caller home c.function.params args
      returned (runAll (l.exec scope) c.function.body)
  exec scope s :=
    let value (e : Expr) : Eval Value := do l.evaluate scope (← load e)
    let holds (e : Expr) : Eval Bool := do Eval.truth (← value e)
    match s with
    | .init name e => do initialise scope name (← value e)
    | .assign target e => do
      let source ← resolve scope (← load e)
      let v ← reduce (l.evaluate scope) (l.call scope) source
      let target ← load target
      assign (l.evaluate scope) scope target (l.evaluate scope target) source v
    | .ladder arms => ladder holds (runAll (l.exec scope)) arms
    | .loop condition code => do
      let condition ← load condition
      loop ctx.loopLimit ctx.rounds
        (do Eval.truth (← l.evaluate scope condition))
        (runAll (l.exec scope) code)
    | .ret e => do throw (.ret (← value e))
    | .brk => throw .brk
    | .exp e => do echo ctx.echo scope (← value e)

/-- Running with a budget. -/
def within (ctx : Context) (fuel : Nat) : Layer :=
  ⟨LittleJ.evaluate ctx fuel, LittleJ.call ctx fuel, LittleJ.exec ctx fuel⟩

theorem within_zero (ctx : Context) : within ctx 0 = spent := by
  simp only [within, spent, Layer.mk.injEq]
  refine ⟨?_, ?_, ?_⟩
  · funext scope ts
    rw [LittleJ.evaluate]
  · funext caller r args
    rw [LittleJ.call]
  · funext scope s
    rw [LittleJ.exec]

/-- One more unit of the budget is one more layer. -/
theorem within_succ (ctx : Context) (fuel : Nat) :
    within ctx (fuel + 1) = (within ctx fuel).above ctx := by
  unfold within above
  congr 1
  · funext scope ts
    rw [LittleJ.evaluate]
  · funext caller r args
    exact LittleJ.call.eq_2 ..
  · funext scope s
    cases s <;> rw [LittleJ.exec]

/-! ## Kept trees

A kept tree is run by a layer as a program is: only its top is its own, and what lies deeper are
evaluations, calls and statements.
-/

/-- Evaluates the expression in a slot, which is left there with its names replaced. -/
def slotValue (l : Layer) (scope slot : Nat) : Eval (Expr × Value) := do
  let ts := (← get).slot slot
  let ts ← resolveWith (fun ts => modify (·.setSlot slot ts)) scope ts
  let v ← reduce (l.evaluate scope) (l.call scope) ts
  return (ts, v)

mutual

/-- Runs a kept statement. -/
def execKept (ctx : Context) (l : Layer) (scope : Nat) : Kept → Eval Unit
  | .init name slot => do
    let (_, v) ← l.slotValue scope slot
    initialise scope name v
  | .assign target value => do
    let (source, v) ← l.slotValue scope value
    let parts := (← get).slot target
    let whole := do return (← l.slotValue scope target).2
    assign (l.evaluate scope) scope parts whole source v
  | .ladder arms => climbKept ctx l scope arms
  | .loop condition code => do
    let ts := (← get).slot condition
    loop ctx.loopLimit ctx.rounds
      (do Eval.truth (← l.evaluate scope ts))
      (runAll (l.exec scope) code)
  | .ret slot => do throw (.ret (← l.slotValue scope slot).2)
  | .brk => throw .brk
  | .exp slot => do echo ctx.echo scope (← l.slotValue scope slot).2

/-- Runs kept statements in order. -/
def execTree (ctx : Context) (l : Layer) (scope : Nat) : List Kept → Eval Unit
  | [] => pure ()
  | k :: rest => do
    execKept ctx l scope k
    execTree ctx l scope rest

/-- Runs the code of the first arm whose condition holds. -/
def climbKept (ctx : Context) (l : Layer) (scope : Nat) : List (Nat × List Kept) → Eval Unit
  | [] => pure ()
  | (slot, code) :: arms => do
    let (_, v) ← l.slotValue scope slot
    if ← Eval.truth v then execTree ctx l scope code
    else climbKept ctx l scope arms

end

mutual

theorem execKept_within (ctx : Context) (fuel scope : Nat) (k : Kept) :
    execKept ctx (within ctx fuel) scope k = Kept.exec ctx fuel scope k := by
  cases k with
  | ladder arms =>
    rw [execKept, Kept.exec]
    exact climbKept_within ctx fuel scope arms
  | brk => rw [execKept, Kept.exec]
  | _ =>
    rw [execKept, Kept.exec]
    rfl

/-- Running a kept tree is running it by the layer of its budget. -/
theorem execTree_within (ctx : Context) (fuel scope : Nat) (ks : List Kept) :
    execTree ctx (within ctx fuel) scope ks = Kept.execAll ctx fuel scope ks := by
  cases ks with
  | nil => rw [execTree, Kept.execAll]
  | cons k rest =>
    rw [execTree, Kept.execAll, execKept_within ctx fuel scope k,
      execTree_within ctx fuel scope rest]

theorem climbKept_within (ctx : Context) (fuel scope : Nat) (arms : List (Nat × List Kept)) :
    climbKept ctx (within ctx fuel) scope arms = Kept.climb ctx fuel scope arms := by
  cases arms with
  | nil => rw [climbKept, Kept.climb]
  | cons arm arms =>
    obtain ⟨slot, code⟩ := arm
    rw [climbKept, Kept.climb, execTree_within ctx fuel scope code,
      climbKept_within ctx fuel scope arms]
    rfl

end

end Layer

/-! ## Alarms -/

/-- What is asked before each start: nothing, or a failure to stop the run with. -/
abbrev Alarm := Task → Store → Option Failure

namespace Layer

/-- Asks an alarm, and goes on if it is silent. -/
def heed {α : Type} (alarm : Alarm) (t : Task) (m : Eval α) : Eval α := fun σ =>
  match alarm t σ with
  | none => m σ
  | some f => .error (.failure f) σ

/-- A layer whose every start is watched. -/
def watched (alarm : Alarm) (l : Layer) : Layer where
  evaluate scope e := heed alarm (.evaluate scope e) (l.evaluate scope e)
  call caller r args := heed alarm (.call caller r args) (l.call caller r args)
  exec scope s := heed alarm (.exec scope s) (l.exec scope s)

/-- Running with a budget, every start at every layer watched. -/
def under (alarm : Alarm) (ctx : Context) : Nat → Layer
  | 0 => spent.watched alarm
  | fuel + 1 => ((under alarm ctx fuel).above ctx).watched alarm

end Layer

theorem Eval.bind_eq_ok {α β : Type} {m : Eval α} {f : α → Eval β} {b : β} {σ τ : Store} :
    (m >>= f) σ = .ok b τ ↔ ∃ a ρ, m σ = .ok a ρ ∧ f a ρ = .ok b τ := by
  simp only [bind, EStateM.bind]
  cases m σ with
  | ok a ρ =>
    refine ⟨fun h => ⟨a, ρ, rfl, h⟩, ?_⟩
    rintro ⟨_, _, hm, hf⟩
    cases hm
    exact hf
  | error e ρ => simp

/-- The store in which a computation ends, with a result or without. -/
def finish {α : Type} (m : Eval α) (σ : Store) : Store :=
  match m σ with
  | .ok _ τ => τ
  | .error _ τ => τ

/-- What an interpreter of its own writes when it runs a text. -/
def outputOf (budget : Budget) (text : String) : String :=
  (finish (do (← Interpreter.make none none true).run budget [] (.text text) false) Store.empty).out

end LittleJ
