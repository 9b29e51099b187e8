import LittleJ.Eval.Run

/-!
# Running code in place

Here code is run as it lies in memory. An expression is evaluated in its own list: functions in it
learn the scope they are made in, and its names are replaced by their values, one after the other.
The later steps work on lists of their own. The body of a function is copied for each call and the
code of a loop for each round, and the copy is run; the condition of a loop is evaluated on a copy
of its list, which has the same functions in it.

An observer sees the store at every moment at which code in memory has just been changed, or at
which an evaluation, a call or a statement is about to start. It may stop the run with a failure of
its own.

The evaluator in `LittleJ.Eval.Run` reads all code off a tree that never changes. That both come to
the same is shown in `LittleJ.Proofs.InPlaceRun`.
-/

namespace LittleJ.Live

/-- What is asked at every moment of a run: nothing, or a failure to stop it with. -/
abbrev Observer := Store → Option Failure

/-- Lets an observer see the store. -/
def look (o : Observer) : Eval Unit := fun σ =>
  match o σ with
  | none => .ok () σ
  | some f => .error (.failure f) σ

/-- Changes the code in memory. -/
def change (o : Observer) (f : Code → Code) : Eval Unit := do
  modify fun σ => { σ with code := f σ.code }
  look o

/-- Copies code, so that the copy can be run. -/
def copy (o : Observer) (b : List Live) : Eval (List Live) := do
  let made := Code.copy b (← get).code
  change o fun _ => made.2
  return made.1

/-! ## Expressions in their lists -/

/-- Makes the function of a literal. -/
def makeFunction (o : Observer) (f : Literal) : Eval Nat := do
  let function := Function.mk f.params ((← get).code.read f.body) f.source
  let r ← Eval.make (·.newClosure ⟨function, none⟩)
  change o fun c => { c with bodies := c.bodies.push f.body }
  return r

/-- Makes the functions of all literals among some items. -/
def makeFunctions (o : Observer) : List Item → Eval Expr
  | [] => return []
  | .token t :: rest => return t :: (← makeFunctions o rest)
  | .literal f :: rest => do
    let r ← makeFunction o f
    return .val (.fn r) :: (← makeFunctions o rest)

/-- The tokens at a place. Literals in the list give way to their functions. -/
def tokensAt (o : Observer) (k : Nat) : Eval Expr := do
  let ts ← makeFunctions o ((← get).code.list k)
  change o (·.modifyList k fun _ => ts.map .token)
  return ts

/-- Replaces the names among the tokens from position `j` of a list on, where they are outside
braces. `depth` counts the braces that are open. -/
def replaceNames (o : Observer) (scope k : Nat) : Nat → Int → List Token → Eval Expr
  | _, _, [] => return []
  | j, depth, t :: ts =>
    match t with
    | .sym .lbrace => do return t :: (← replaceNames o scope k (j + 1) (depth + 1) ts)
    | .sym .rbrace => do return t :: (← replaceNames o scope k (j + 1) (depth - 1) ts)
    | .name s =>
      if depth == 0 then do
        let v ← Eval.ofError ((← get).lookup scope s)
        change o (·.modifyList k (·.set j (.token (.val v))))
        return .val v :: (← replaceNames o scope k (j + 1) depth ts)
      else do return t :: (← replaceNames o scope k (j + 1) depth ts)
    | _ => do return t :: (← replaceNames o scope k (j + 1) depth ts)

/-- The first step of evaluating the expression at a place, in its list. -/
def resolve (o : Observer) (scope k : Nat) : Eval Expr := do
  let ts ← tokensAt o k
  modify (Expression.adoptAll scope ts)
  look o
  replaceNames o scope k 0 0 ts

/-! ## Layers of nesting -/

/-- Evaluations, calls and statements at one layer of nesting. -/
structure Layer where
  evaluate : Nat → Expr → Eval Value
  /-- The value of the expression at a place. -/
  value : Nat → Nat → Eval Value
  call : Nat → Nat → List Value → Eval Value
  exec : Nat → Live → Eval Unit

def execAll (exec : Live → Eval Unit) : List Live → Eval Unit
  | [] => pure ()
  | s :: rest => do
    exec s
    execAll exec rest

/-- Runs code where it is, statement by statement. -/
def run (o : Observer) (exec : Live → Eval Unit) (b : List Live) : Eval Unit := do
  change o fun c => { c with begun := b :: c.begun }
  execAll exec b

namespace Layer

/-- The layer at which the budget is used up. -/
def spent (o : Observer) : Layer where
  evaluate _ _ := throw .exhausted
  value _ k := do
    let _ ← tokensAt o k
    throw .exhausted
  call _ _ _ := throw .exhausted
  exec _ _ := throw .exhausted

/-- The layer above another one. -/
def above (o : Observer) (ctx : Context) (l : Layer) : Layer where
  evaluate scope ts := do
    look o
    let ts ← Expression.resolve scope ts
    Expression.reduce (l.evaluate scope) (l.call scope) ts
  value scope k := do
    let ts ← resolve o scope k
    Expression.reduce (l.evaluate scope) (l.call scope) ts
  call caller r args := do
    look o
    let c := (← get).closure r
    if args.length != c.function.params.length then
      Eval.raise (.argumentCount (← Statement.shownArguments args))
    match c.home with
    | none => Eval.breakdown (.internal "")
    | some home =>
      let scope ← Statement.enter caller home c.function.params args
      let body ← copy o ((← get).code.body r)
      Statement.returned (run o (l.exec scope) body)
  exec scope s := do
    look o
    match s with
    | .init name k => Statement.initialise scope name (← l.value scope k)
    | .assign target k =>
      let source ← resolve o scope k
      let v ← Expression.reduce (l.evaluate scope) (l.call scope) source
      let parts ← tokensAt o target
      Statement.assign (l.evaluate scope) scope parts (l.value scope target) source v
    | .ladder arms =>
      Statement.ladder (fun k => do Eval.truth (← l.value scope k)) (run o (l.exec scope)) arms
    | .loop condition code =>
      let ts ← tokensAt o condition
      Statement.loop ctx.loopLimit ctx.rounds
        (do Eval.truth (← l.evaluate scope ts))
        (do run o (l.exec scope) (← copy o code))
    | .ret k => throw (.ret (← l.value scope k))
    | .brk => throw .brk
    | .exp k => Statement.echo ctx.echo scope (← l.value scope k)

/-- Running with a budget. -/
def within (o : Observer) (ctx : Context) : Nat → Layer
  | 0 => spent o
  | fuel + 1 => (within o ctx fuel).above o ctx

end Layer

/-- Runs a tree in memory in a scope. -/
def runTree (o : Observer) (ctx : Context) (fuel scope : Nat) (b : List Live) : Eval Unit :=
  run o ((Layer.within o ctx fuel).exec scope) b

end LittleJ.Live
