import LittleJ.Proofs.CoupledStatement

/-!
# Gauges

A *gauge* is asked about the numbers that arithmetic makes: what `+`, `-`, `*` and `/` make of two
numbers, and what a plus sign makes of a text. It may stop the run with a failure of its own. What
these operators do depends on nothing but their neighbours, so a run with a gauge is the run itself
up to the first number that the gauge objects to.

The steps of evaluating an expression are repeated here with a gauge, and shown to be the steps
themselves if the gauge never objects. All the rest of running takes the evaluation of expressions
as an argument.
-/

namespace LittleJ

/-- What is asked about each number that arithmetic makes: nothing, or a failure to stop the run
with. -/
abbrev Gauge := Float → Option Failure

/-- The gauge that objects to no number. -/
def Gauge.silent : Gauge := fun _ => none

/-- Shows a number to a gauge, and goes on with it unless the gauge objects. -/
def Gauge.ask (gauge : Gauge) (x : Float) : Eval Float :=
  match gauge x with
  | none => pure x
  | some f => throw (.failure f)

namespace Operator

/-- The operators that can make numbers too large. -/
def arithmetic : List Symbol :=
  [.plus, .minus, .star, .slash]

/-- What a binary operator makes of its neighbours. -/
def combineUnder (gauge : Gauge) (op : Symbol) (a b : Token) (whole : List Token) : Eval Token := do
  match ← combine op a b whole with
  | .val (.num x) =>
    if arithmetic.contains op then return .val (.num (← gauge.ask x)) else return .val (.num x)
  | t => return t

/-- Does the operators of one level from left to right. -/
def levelFromUnder (gauge : Gauge) (level : List Symbol) :
    List Token → List Token → Eval (List Token)
  | done, [] => pure done.reverse
  | done, t :: ts =>
    match ofLevel level t with
    | none => levelFromUnder gauge level (t :: done) ts
    | some op =>
      match done, ts with
      | a :: before, b :: rest => do
        checkChaining op rest.head?
        let c ← combineUnder gauge op a b (done.reverse ++ t :: ts)
        levelFromUnder gauge level (c :: before) rest
      | _, _ => Eval.raise (.strayOperator op.text)

/-- Does the binary operators, level by level. -/
def binaryFromUnder (gauge : Gauge) : List (List Symbol) → List Token → Eval (List Token)
  | [], ts => pure ts
  | level :: rest, ts => do
    let ts ← levelFromUnder gauge level [] ts
    if ts.length == 1 then return ts else binaryFromUnder gauge rest ts

/-- Does the unary operators from right to left. -/
def unaryFromUnder (gauge : Gauge) (eval : Expr → Eval Value) :
    List Token → List Token → Eval (List Token)
  | [], after => pure after
  | t :: before, after =>
    match t with
    | .sym .bang => do
      let v ← operand eval after
      let b ← Eval.truth v
      unaryFromUnder gauge eval before (.val (.bool !b) :: after.tail)
    | .sym .minus =>
      if minusIsUnary before.head? then do
        match ← operand eval after with
        | .num x => unaryFromUnder gauge eval before (.val (.num (-x)) :: after.tail)
        | _ => Eval.raise (.badUnary "-")
      else unaryFromUnder gauge eval before (t :: after)
    | .sym .plus =>
      if plusIsUnary before.head? then do
        let v ← operand eval after
        let x ← toNumber v
        let x ← gauge.ask x
        unaryFromUnder gauge eval before (.val (.num x) :: after.tail)
      else unaryFromUnder gauge eval before (t :: after)
    | _ => unaryFromUnder gauge eval before (t :: after)

/-- Does unary, then binary operators. -/
def passUnder (gauge : Gauge) (eval : Expr → Eval Value) (ts : List Token) : Eval (List Token) := do
  binaryFromUnder gauge levels (← unaryFromUnder gauge eval ts.reverse [])

/-- Repeats passes until one token is left. -/
def settleFromUnder (gauge : Gauge) (eval : Expr → Eval Value) (old : Nat) (ts : List Token) :
    Eval Token :=
  match ts with
  | [t] => pure t
  | ts => do
    let next ← passUnder gauge eval ts
    if next.length < old then settleFromUnder gauge eval next.length next
    else Eval.raiseAt .noExpression next
termination_by old

/-- Does all operators of an expression without brackets. -/
def settleUnder (gauge : Gauge) (eval : Expr → Eval Value) (ts : List Token) : Eval Token := do
  let ts ← passUnder gauge eval ts
  settleFromUnder gauge eval ts.length ts

/-! ## A gauge that never objects -/

theorem combineUnder_silent (op : Symbol) (a b : Token) (whole : List Token) :
    combineUnder .silent op a b whole = combine op a b whole := by
  refine (bind_congr fun t => ?_).trans (bind_pure _)
  split
  · split <;> rfl
  · rfl

theorem levelFromUnder_silent (level : List Symbol) (done ts : List Token) :
    levelFromUnder .silent level done ts = levelFrom level done ts := by
  fun_induction levelFrom level done ts with
  | case1 done => rw [levelFromUnder]
  | case2 done t ts h ih =>
    rw [levelFromUnder.eq_def]
    simp only [h]
    exact ih
  | case3 t op h a before b rest ih =>
    rw [levelFromUnder.eq_def]
    simp only [h, combineUnder_silent, ih]
  | case4 done t ts op h hne =>
    rw [levelFromUnder.eq_def]
    simp only [h]

theorem binaryFromUnder_silent (levels : List (List Symbol)) (ts : List Token) :
    binaryFromUnder .silent levels ts = binaryFrom levels ts := by
  induction levels generalizing ts with
  | nil => rfl
  | cons level rest ih =>
    rw [binaryFromUnder, binaryFrom]
    simp only [levelFromUnder_silent, ih]

variable (eval : Expr → Eval Value)

theorem unaryFromUnder_silent (before after : List Token) :
    unaryFromUnder .silent eval before after = unaryFrom eval before after := by
  have hask (x : Float) : Gauge.silent.ask x = pure x := rfl
  induction before generalizing after with
  | nil => rw [unaryFromUnder, unaryFrom]
  | cons t before ih =>
    rw [unaryFromUnder.eq_def]
    simp only [ih, hask, pure_bind]
    rfl

theorem passUnder_silent (ts : List Token) : passUnder .silent eval ts = pass eval ts := by
  rw [passUnder, pass, unary, unaryFromUnder_silent]
  simp only [binaryFromUnder_silent]
  rfl

theorem settleFromUnder_silent (old : Nat) (ts : List Token) :
    settleFromUnder .silent eval old ts = settleFrom eval old ts := by
  fun_induction settleFrom eval old ts with
  | case1 old t => rw [settleFromUnder]
  | case2 old ts hts ih =>
    rw [settleFromUnder.eq_def]
    split
    · next t => exact (hts t rfl).elim
    · rw [passUnder_silent]
      refine bind_congr (m := Eval) fun next => ?_
      by_cases hlt : next.length < old
      · rw [if_pos hlt, if_pos hlt, ih next hlt]
      · rw [if_neg hlt, if_neg hlt]

theorem settleUnder_silent (ts : List Token) : settleUnder .silent eval ts = settle eval ts := by
  rw [settleUnder, settle, passUnder_silent]
  simp only [settleFromUnder_silent]

end Operator

namespace Expression

/-- The value of an expression whose names have been replaced. -/
def reduceUnder (gauge : Gauge) (eval : Expr → Eval Value) (call : Nat → List Value → Eval Value)
    (ts : Expr) :
    Eval Value := do
  let ts ← literals eval ts
  let ts ← applications eval call ts
  match ← Operator.settleUnder gauge eval ts with
  | .val v => if v.isProper then return v else Eval.raise .noValue
  | _ => Eval.raise .noValue

theorem reduceUnder_silent (eval : Expr → Eval Value) (call : Nat → List Value → Eval Value)
    (ts : Expr) :
    reduceUnder .silent eval call ts = reduce eval call ts := by
  rw [reduceUnder]
  simp only [Operator.settleUnder_silent]
  rfl

end Expression

/-! ## Layers -/

namespace Layer

/-- The layer above another one, with expressions reduced in a way of its own. -/
def aboveBy (reduce : (Expr → Eval Value) → (Nat → List Value → Eval Value) → Expr → Eval Value)
    (ctx : Context) (l : Layer) : Layer where
  evaluate scope ts := do
    let ts ← Expression.resolve scope ts
    reduce (l.evaluate scope) (l.call scope) ts
  call := (l.above ctx).call
  exec scope s :=
    match s with
    | .assign target e => do
      let source ← Expression.resolve scope (← Statement.load e)
      let v ← reduce (l.evaluate scope) (l.call scope) source
      let target ← Statement.load target
      Statement.assign (l.evaluate scope) scope target (l.evaluate scope target) source v
    | s => (l.above ctx).exec scope s

theorem aboveBy_reduce (ctx : Context) (l : Layer) :
    l.aboveBy Expression.reduce ctx = l.above ctx := by
  rw [aboveBy, above]
  congr 1
  funext scope s
  cases s <;> rfl

/-- A layer that an alarm oversees: it is asked before each start, and also about each value that an
evaluation or a call gives, as the expression of one token that it then is. -/
def overseen (alarm : Alarm) (l : Layer) : Layer where
  evaluate scope e := heed alarm (.evaluate scope e) do
    let v ← l.evaluate scope e
    heed alarm (.evaluate scope [.val v]) (pure v)
  call caller r args := heed alarm (.call caller r args) do
    let v ← l.call caller r args
    heed alarm (.evaluate caller [.val v]) (pure v)
  exec scope s := heed alarm (.exec scope s) (l.exec scope s)

/-- Running with a budget, arithmetic under a gauge and every layer overseen by an alarm. -/
def gauged (gauge : Gauge) (alarm : Alarm) (ctx : Context) : Nat → Layer
  | 0 => spent.overseen alarm
  | fuel + 1 =>
    ((gauged gauge alarm ctx fuel).aboveBy (Expression.reduceUnder gauge) ctx).overseen alarm

end Layer

end LittleJ
