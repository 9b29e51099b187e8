import LittleJ.Eval.Run

/-!
# Kept trees

A host may keep a tree of statements and run it several times. Such a tree remembers: running it
replaces the names in its expressions by the values they had, and a function written in it is made
once and stays the same function. Each of its expressions lives in a slot of the store.

The code of a loop and the bodies of functions are read afresh whenever they run, so they stay as
they were written.
-/

namespace LittleJ

/-- A statement of a kept tree. Expressions are slots. -/
inductive Kept
  | init (name : String) (slot : Nat)
  | assign (target value : Nat)
  | ladder (arms : List (Nat × List Kept))
  | loop (condition : Nat) (code : Program)
  | ret (slot : Nat)
  | brk
  | exp (slot : Nat)

namespace Kept

/-- Puts an expression into a slot of its own, its functions made. -/
def keepExpr (e : Expr) : Eval Nat := do
  let e ← Statement.load e
  Eval.make (·.newSlot e)

mutual

/-- Keeps a statement. -/
def ofStmt : Stmt → Eval Kept
  | .init name e => do return .init name (← keepExpr e)
  | .assign target e => do
    let target ← keepExpr target
    return .assign target (← keepExpr e)
  | .ladder arms => do return .ladder (← ofArms arms)
  | .loop condition code => do return .loop (← keepExpr condition) code
  | .ret e => do return .ret (← keepExpr e)
  | .brk => return .brk
  | .exp e => do return .exp (← keepExpr e)

/-- Keeps statements in order. -/
def ofProgram : List Stmt → Eval (List Kept)
  | [] => return []
  | s :: rest => do
    let k ← ofStmt s
    return k :: (← ofProgram rest)

/-- Keeps the arms of a ladder. -/
def ofArms : List (List Token × List Stmt) → Eval (List (Nat × List Kept))
  | [] => return []
  | (condition, code) :: arms => do
    let slot ← keepExpr condition
    let code ← ofProgram code
    return (slot, code) :: (← ofArms arms)

end

/-- A copy of a value: arrays are copied with all they contain, functions lose the scope they were
made in, and everything else is shared. Arrays nested `fuel` deep have no copy. -/
def copyValue : Nat → Value → Eval Value
  | 0, _ => Eval.breakdown .endless
  | fuel + 1, v =>
    match v with
    | .arr r => do
      let copied ← ((← get).array r).toList.mapM (copyValue fuel)
      return .arr (← Eval.make (·.newArray copied.toArray))
    | .fn r => do
      let f := ((← get).closure r).function
      return .fn (← Eval.make (·.newClosure ⟨f, none⟩))
    | v => return v

/-- A copy of tokens, arrays nested less than `depth` deep. -/
def copyAllTokens (depth : Nat) : List Token → Eval (List Token)
  | [] => return []
  | .val v :: ts => do
    let v ← copyValue depth v
    return .val v :: (← copyAllTokens depth ts)
  | t :: ts => do return t :: (← copyAllTokens depth ts)

/-- A copy of tokens. -/
def copyTokens (ts : List Token) : Eval (List Token) := do
  copyAllTokens ((← get).arrays.size + 2) ts

/-- Whether a copy of a token is the token itself. -/
def isShared : Token → Bool
  | .val (.arr _) | .val (.fn _) | .func _ | .row _ => false
  | _ => true

/-- A slot with a copy of what another slot holds now. -/
def copySlot (slot : Nat) : Eval Nat := do
  let ts ← copyTokens ((← get).slot slot)
  Eval.make (·.newSlot ts)

mutual

/-- A copy of a kept statement, as it is now. -/
def copy : Kept → Eval Kept
  | .init name slot => do return .init name (← copySlot slot)
  | .assign target value => do
    let target ← copySlot target
    return .assign target (← copySlot value)
  | .ladder arms => do return .ladder (← copyArms arms)
  | .loop condition code => do return .loop (← copySlot condition) code
  | .ret slot => do return .ret (← copySlot slot)
  | .brk => return .brk
  | .exp slot => do return .exp (← copySlot slot)

/-- A copy of kept statements. -/
def copyAll : List Kept → Eval (List Kept)
  | [] => return []
  | k :: rest => do
    let k ← copy k
    return k :: (← copyAll rest)

/-- A copy of the arms of a ladder. -/
def copyArms : List (Nat × List Kept) → Eval (List (Nat × List Kept))
  | [] => return []
  | (slot, code) :: arms => do
    let slot ← copySlot slot
    let code ← copyAll code
    return (slot, code) :: (← copyArms arms)

end

/-- Evaluates the expression in a slot and leaves it there with its names replaced. The result is
that expression and its value. -/
def valueOf (ctx : Context) (fuel scope slot : Nat) : Eval (Expr × Value) := do
  let ts := (← get).slot slot
  let ts ← Expression.resolveWith (fun ts => modify (·.setSlot slot ts)) scope ts
  let v ← Expression.reduce (evaluate ctx fuel scope) (call ctx fuel scope) ts
  return (ts, v)

mutual

/-- Runs a kept statement. -/
def exec (ctx : Context) (fuel scope : Nat) : Kept → Eval Unit
  | .init name slot => do
    let (_, v) ← valueOf ctx fuel scope slot
    Statement.initialise scope name v
  | .assign target value => do
    let (source, v) ← valueOf ctx fuel scope value
    let parts := (← get).slot target
    let whole := do return (← valueOf ctx fuel scope target).2
    Statement.assign (evaluate ctx fuel scope) scope parts whole source v
  | .ladder arms => climb ctx fuel scope arms
  | .loop condition code => do
    let ts := (← get).slot condition
    Statement.loop ctx.loopLimit ctx.rounds
      (do Eval.truth (← evaluate ctx fuel scope ts))
      (runProgram ctx fuel scope code)
  | .ret slot => do throw (.ret (← valueOf ctx fuel scope slot).2)
  | .brk => throw .brk
  | .exp slot => do Statement.echo ctx.echo scope (← valueOf ctx fuel scope slot).2

/-- Runs kept statements in order. -/
def execAll (ctx : Context) (fuel scope : Nat) : List Kept → Eval Unit
  | [] => pure ()
  | k :: rest => do
    exec ctx fuel scope k
    execAll ctx fuel scope rest

/-- Runs the code of the first arm whose condition holds. -/
def climb (ctx : Context) (fuel scope : Nat) : List (Nat × List Kept) → Eval Unit
  | [] => pure ()
  | (slot, code) :: arms => do
    let (_, v) ← valueOf ctx fuel scope slot
    if ← Eval.truth v then execAll ctx fuel scope code
    else climb ctx fuel scope arms

end

end Kept

end LittleJ
