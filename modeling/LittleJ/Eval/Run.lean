import LittleJ.Eval.Statement

/-!
# Running programs

Evaluating an expression may call a function, a call runs statements, and a statement evaluates
expressions. The three are one recursion on `fuel`, which bounds how deeply evaluations are nested;
the rounds of a loop are bounded apart from it. A computation that uses up its budget says so and
claims nothing else.

A body that is run — of a call or of a loop — is read afresh each time: its tokens are never
changed, and each run makes its functions anew.
-/

namespace LittleJ

/-- What running depends on beside the store. -/
structure Context where
  /-- How long a loop may take. -/
  loopLimit : Option Rat
  /-- Whether values of expression statements in the global scope are written. -/
  echo : Bool
  /-- How many rounds a loop may have at all. -/
  rounds : Nat

/-- Runs statements in order. -/
def runAll (exec : Stmt → Eval Unit) : Program → Eval Unit
  | [] => pure ()
  | s :: rest => do
    exec s
    runAll exec rest

mutual

/-- The value of an expression in a scope. -/
def evaluate (ctx : Context) : Nat → Nat → Expr → Eval Value
  | 0, _, _ => throw .exhausted
  | fuel + 1, scope, ts => do
    let ts ← Expression.resolve scope ts
    Expression.reduce (evaluate ctx fuel scope) (call ctx fuel scope) ts

/-- Calls a function of the language from a scope. -/
def call (ctx : Context) : Nat → Nat → Nat → List Value → Eval Value
  | 0, _, _, _ => throw .exhausted
  | fuel + 1, caller, r, args => do
    let c := (← get).closure r
    if args.length != c.function.params.length then
      Eval.raise (.argumentCount (← Statement.shownArguments args))
    match c.home with
    | none => Eval.breakdown (.internal "")
    | some home =>
      let scope ← Statement.enter caller home c.function.params args
      Statement.returned (runAll (exec ctx fuel scope) c.function.body)

/-- Runs a statement in a scope. -/
def exec (ctx : Context) : Nat → Nat → Stmt → Eval Unit
  | 0, _, _ => throw .exhausted
  | fuel + 1, scope, s =>
    let value (e : Expr) : Eval Value := do evaluate ctx fuel scope (← Statement.load e)
    let holds (e : Expr) : Eval Bool := do Eval.truth (← value e)
    match s with
    | .init name e => do Statement.initialise scope name (← value e)
    | .assign target e => do
      let source ← Expression.resolve scope (← Statement.load e)
      let v ← Expression.reduce (evaluate ctx fuel scope) (call ctx fuel scope) source
      let target ← Statement.load target
      Statement.assign (evaluate ctx fuel scope) scope target (evaluate ctx fuel scope target)
        source v
    | .ladder arms => Statement.ladder holds (runAll (exec ctx fuel scope)) arms
    | .loop condition code => do
      let condition ← Statement.load condition
      Statement.loop ctx.loopLimit ctx.rounds
        (do Eval.truth (← evaluate ctx fuel scope condition))
        (runAll (exec ctx fuel scope) code)
    | .ret e => do throw (.ret (← value e))
    | .brk => throw .brk
    | .exp e => do Statement.echo ctx.echo scope (← value e)

end

/-- Runs a program in a scope. -/
def runProgram (ctx : Context) (fuel scope : Nat) (p : Program) : Eval Unit :=
  runAll (exec ctx fuel scope) p

end LittleJ
