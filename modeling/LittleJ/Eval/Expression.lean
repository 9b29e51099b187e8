import LittleJ.Eval.Native
import LittleJ.Eval.Operator

/-!
# Expressions

An expression is evaluated by reducing its tokens. Names give way to their values; literals of
objects and arrays to what they make; refinements, calls and groups to their results; and last the
operators to theirs. Inner expressions are evaluated by the evaluator that the steps take as an
argument.

The keys of an object literal are names too, so names between braces are left alone until the
literal itself is evaluated.
-/

namespace LittleJ.Expression

/-- Replaces names outside braces by their values, from left to right. `depth` counts the braces
that are open. When a name has no value the rest stays as it is. -/
def substitute (value : String → Except Error Value) : Int → List Token →
    List Token × Option Error
  | _, [] => ([], none)
  | depth, t :: ts =>
    match t with
    | .sym .lbrace => let r := substitute value (depth + 1) ts; (t :: r.1, r.2)
    | .sym .rbrace => let r := substitute value (depth - 1) ts; (t :: r.1, r.2)
    | .name s =>
      if depth == 0 then
        match value s with
        | .ok v => let r := substitute value depth ts; (.val v :: r.1, r.2)
        | .error e => (t :: ts, some e)
      else let r := substitute value depth ts; (t :: r.1, r.2)
    | _ => let r := substitute value depth ts; (t :: r.1, r.2)

/-- Tells the functions among the tokens the scope they are made in, unless they have one. -/
def adoptAll (scope : Nat) (ts : List Token) (σ : Store) : Store :=
  ts.foldl (fun σ t => match t with
    | .val (.fn r) => σ.adopt scope r
    | _ => σ) σ

/-- The first step: functions learn their scope and names are replaced. `keep` is told the tokens
as they are then, also when a name has no value. -/
def resolveWith (keep : Expr → Eval Unit) (scope : Nat) (ts : Expr) : Eval Expr := do
  modify (adoptAll scope ts)
  let σ ← get
  let (ts, e) := substitute (σ.lookup scope) 0 ts
  keep ts
  match e with
  | none => return ts
  | some e => Eval.raise e

/-- The first step for tokens that nobody keeps. -/
def resolve (scope : Nat) (ts : Expr) : Eval Expr :=
  resolveWith (fun _ => pure ()) scope ts

/-- Evaluates the elements of an array literal in order. -/
def elements (eval : Expr → Eval Value) : List (List Token) → Eval (List Value)
  | [] => pure []
  | part :: parts => do
    if part.isEmpty then Eval.raise .badArray
    let v ← eval part
    return v :: (← elements eval parts)

/-- The values of an array literal at the start of `ts`, and the position of its last bracket. -/
def arrayValues (eval : Expr → Eval Value) (ts : List Token) : Eval (List Value × Nat) := do
  let k ← Eval.partner ts
  let parts ← Eval.commaParts (Eval.inside k ts)
  return (← elements eval parts, k)

/-- The key of an entry of an object literal: a name or a string. -/
def key? : Token → Option String
  | .name s => some s
  | .val (.str s) => some s
  | _ => none

/-- Evaluates the entries of an object literal in order. `whole` is the expression, for the
report. -/
def entries (eval : Expr → Eval Value) (whole : List Token) :
    List (List Token) → Table Value → Eval (Table Value)
  | [], table => pure table
  | part :: parts, table =>
    match part with
    | key :: .sym .colon :: t :: ts =>
      match key? key with
      | some k => do
        let v ← eval (t :: ts)
        entries eval whole parts (table.put k v)
      | none => Eval.raiseAt .badObject whole
    | _ => Eval.raiseAt .badObject whole

/-- Whether square brackets after a token select a part of something. -/
def selects : Option Token → Bool
  | none => false
  | some (.val v) => v.isIndexable
  | some t => t.reads "]" || t.reads ")"

/-- The second step: literals are replaced by what they make. `done` is what stands on the left,
nearest first; `skip` tokens are passed over. -/
def literalsFrom (eval : Expr → Eval Value) : List Token → Nat → List Token → Eval (List Token)
  | done, _, [] => pure done.reverse
  | done, skip + 1, _ :: ts => literalsFrom eval done skip ts
  | done, 0, t :: ts => do
    if t.is .lbrace then
      let k ← Eval.partner (t :: ts)
      let parts ← Eval.commaParts (Eval.inside k (t :: ts))
      let table ← entries eval (done.reverse ++ t :: ts) parts []
      let r ← Eval.make (·.newObject table)
      literalsFrom eval (.val (.obj r) :: done) k ts
    else if t.is .lbracket && !selects done.head? then
      let (vs, k) ← arrayValues eval (t :: ts)
      let r ← Eval.make (·.newArray vs.toArray)
      literalsFrom eval (.val (.arr r) :: done) k ts
    else literalsFrom eval (t :: done) 0 ts

/-- The second step. -/
def literals (eval : Expr → Eval Value) (ts : List Token) : Eval (List Token) :=
  literalsFrom eval [] 0 ts

/-- The element at a position of an array or string of a given length; `what` names it in the
report. -/
def position (what : String) (length : Nat) (key : Value) : Eval Nat :=
  match key with
  | .num x =>
    if x < 0.0 || !Number.isWhole x then Eval.breakdown .unnamed
    else match Number.toInt? x with
      | none => Eval.breakdown .overflow
      | some n =>
        if n.natAbs < length then pure n.natAbs
        else Eval.raise (.outOfRange what (Number.integerText n))
  | _ => Eval.breakdown .unnamed

/-- The part of a value that a key selects. -/
def refine (base key : Value) : Eval Value := do
  let σ ← get
  match base with
  | .obj r =>
    match key with
    | .str k =>
      match (σ.object r).get? k with
      | some v => return v
      | none => Eval.raise (.missingKey k)
    | _ => Eval.raise .keyNotString
  | .arr r =>
    let i ← position "array" (σ.array r).size key
    return (σ.array r).getD i .null
  | .str s =>
    let i ← position "string" s.length key
    return .str (String.singleton (s.toList.getD i ' '))
  | _ => Eval.breakdown .broken

/-- Calls a value that can be called. -/
def apply (call : Nat → List Value → Eval Value) (f : Value) (args : List Value) : Eval Value :=
  match f with
  | .fn r => call r args
  | .native n => n.call args
  | _ => Eval.breakdown .broken

/-- The third step: refinements, calls and groups are replaced by their results, from left to right.
`done` is what stands on the left, nearest first; `skip` tokens are passed over. -/
def applyFrom (eval : Expr → Eval Value) (call : Nat → List Value → Eval Value) :
    List Token → Nat → List Token → Eval (List Token)
  | done, _, [] => pure done.reverse
  | done, skip + 1, _ :: ts => applyFrom eval call done skip ts
  | done, 0, t :: ts => do
    if t.is .lbracket then
      match done with
      | .val base :: before =>
        if !base.isIndexable then Eval.breakdown .broken
        let k ← Eval.partner (t :: ts)
        if k == 1 then Eval.raise .emptyRefinement
        let key ← eval (Eval.inside k (t :: ts))
        let v ← refine base key
        applyFrom eval call (.val v :: before) k ts
      | _ => Eval.breakdown .broken
    else if t.is .lparen then
      match done with
      | .val f :: before =>
        let k ← Eval.partner (t :: ts)
        let inner := Eval.inside k (t :: ts)
        if f.isCallable then
          let (args, _) ← arrayValues eval (.sym .lbracket :: inner ++ [.sym .rbracket])
          let v ← apply call f args
          applyFrom eval call (.val v :: before) k ts
        else
          let v ← eval inner
          applyFrom eval call (.val v :: done) k ts
      | _ =>
        let k ← Eval.partner (t :: ts)
        let v ← eval (Eval.inside k (t :: ts))
        applyFrom eval call (.val v :: done) k ts
    else applyFrom eval call (t :: done) 0 ts

/-- The third step. It walks through every array among the tokens first, so an array that contains
itself stops it. -/
def applications (eval : Expr → Eval Value) (call : Nat → List Value → Eval Value)
    (ts : List Token) : Eval (List Token) := do
  if (← get).anyEndless ts then Eval.breakdown .endless
  applyFrom eval call [] 0 ts

/-- The value of an expression whose names have been replaced. -/
def reduce (eval : Expr → Eval Value) (call : Nat → List Value → Eval Value) (ts : Expr) :
    Eval Value := do
  let ts ← literals eval ts
  let ts ← applications eval call ts
  match ← Operator.settle eval ts with
  | .val v => if v.isProper then return v else Eval.raise .noValue
  | _ => Eval.raise .noValue

end LittleJ.Expression
