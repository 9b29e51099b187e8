import LittleJ.Eval.Expression

/-!
# Statements

What each kind of statement does, given what its expressions come to. How an expression is held —
as tokens that are read afresh, or in a slot that remembers what became of it — is not decided
here.
-/

namespace LittleJ.Statement

/-- Makes the functions of an expression that is about to be evaluated. -/
def load : Expr → Eval Expr
  | [] => pure []
  | t :: ts => do
    match t with
    | .func f =>
      let r ← Eval.make (·.newClosure ⟨f, none⟩)
      return .val (.fn r) :: (← load ts)
    | t => return t :: (← load ts)

/-- Makes a variable. -/
def initialise (scope : Nat) (name : String) (v : Value) : Eval Unit := do
  Eval.ofError ((← get).checkNew scope name)
  modify (·.putVar scope name v)

/-- Sets a variable. -/
def assignName (scope : Nat) (name : String) (v : Value) : Eval Unit := do
  let owner ← Eval.ofError ((← get).owner scope name)
  modify (·.putVar owner name v)

/-- Sets an element or a property. `base` and `key` are the parts of the target before and inside
its last pair of brackets. Before an element is set the whole target is evaluated once more, which
checks the index. -/
def assignPart (base key v : Value) (whole : Eval Value) (target source : Expr) : Eval Unit := do
  match base, key with
  | .obj r, .str k => modify (·.modifyObject r (·.put k v))
  | .arr r, .num x =>
    let _ ← whole
    let i ← Eval.settingPosition ((← get).array r).size x
    modify (·.modifyArray r (·.setIfInBounds i v))
  | _, _ => Eval.raiseAt .badTarget [.val (.str "assign"), .row target, .row source]

/-- Carries out an assignment whose value is known. `eval` evaluates parts of the target, and
`whole` all of it; `source` is the right side with its names replaced, for the report. -/
def assign (eval : Expr → Eval Value) (scope : Nat) (target : Expr) (whole : Eval Value)
    (source : Expr) (v : Value) : Eval Unit := do
  match target with
  | [.name s] => assignName scope s v
  | target =>
    match Bracket.opener? target with
    | none => Eval.raise (.unopened "]")
    | some k =>
      let base ← eval (target.take k)
      let key ← eval (target.drop (k + 1)).dropLast
      assignPart base key v whole target source

/-- Runs the code of the first arm whose condition holds. -/
def ladder {ε κ : Type} (holds : ε → Eval Bool) (run : κ → Eval Unit) : List (ε × κ) → Eval Unit
  | [] => pure ()
  | (condition, code) :: arms => do
    if ← holds condition then run code else ladder holds run arms

/-- Repeats a step until it says to stop, at most `rounds` times. -/
def iterate (step : Eval Bool) : Nat → Eval Unit
  | 0 => throw .exhausted
  | rounds + 1 => do
    if ← step then iterate step rounds else pure ()

/-- Runs the code of a loop. The result says whether it ran to its end; a `break` ends the loop. -/
def body (code : Eval Unit) : Eval Bool := fun σ =>
  match code σ with
  | .ok _ σ => .ok true σ
  | .error .brk σ => .ok false σ
  | .error stop σ => .error stop σ

/-- Whether more time has passed than a limit allows. -/
def overtime (limit : Rat) (start now : Nat) : Bool :=
  decide (limit < ((now : Rat) - (start : Rat)))

/-- One round of a loop that started at `start`. With a limit the clock is read after each round. -/
def round (limit : Option Rat) (start : Nat) (condition : Eval Bool) (code : Eval Unit) :
    Eval Bool := do
  if ← condition then
    if ← body code then
      match limit with
      | none => return true
      | some l =>
        let now ← modifyGet Store.tick
        if overtime l start now then Eval.raise .loopTime
        return true
    else return false
  else return false

/-- Repeats code as long as a condition holds. The clock is read once at the start. -/
def loop (limit : Option Rat) (rounds : Nat) (condition : Eval Bool) (code : Eval Unit) :
    Eval Unit := do
  let start ← modifyGet Store.tick
  iterate (round limit start condition code) rounds

/-- Writes the value of an expression that stands alone, where such values are echoed: in the global
scope, unless it is null. -/
def echo (on : Bool) (scope : Nat) (v : Value) : Eval Unit := do
  let σ ← get
  if on && v != .null && (σ.scope scope).isGlobal then
    let s ← Eval.ofFault (σ.print v)
    modify (·.write (s ++ "\n"))

/-- Takes the value that a body returns. A body that ends without one is an error. -/
def returned (code : Eval Unit) : Eval Value := fun σ =>
  match code σ with
  | .ok _ σ => Eval.raise .noReturn σ
  | .error (.ret v) σ => .ok v σ
  | .error stop σ => .error stop σ

/-- Makes a scope inside another one. -/
def makeChild (parent : Nat) (params : List String) (args : List Value) : Eval Nat := do
  let inner ← Eval.ofFailure ((← get).childScope parent params args)
  Eval.make (·.newScope inner)

/-- Sets the depth of a scope, and refuses it if the limit is reached. -/
def deepen (scope : Nat) (depth : Int) : Eval Unit := do
  modify (·.setDepth scope depth)
  if (← get).atLimit scope then Eval.raise .callDepth

/-- Makes the scope of a call: inside the scope where the function was made, and one deeper than
the caller. -/
def enter (caller home : Nat) (params : List String) (args : List Value) : Eval Nat := do
  let scope ← makeChild home params args
  deepen scope (((← get).scope caller).depth + 1)
  return scope

/-- The text of arguments in the report of a wrong number of them. -/
def shownArguments (args : List Value) : Eval String := do
  let σ ← get
  return ", ".intercalate (← Eval.ofFault (args.mapM σ.print))

end LittleJ.Statement
