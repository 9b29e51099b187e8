import LittleJ.Eval.Basic
import LittleJ.Number.Numeral

/-!
# Operators

Once brackets are gone an expression is a row of values and operators. Unary operators are done
first, from right to left; then the binary ones, one level of precedence after the other, each from
left to right. Nothing but the neighbours of an operator decides what it works on.
-/

namespace LittleJ.Operator

/-- The levels of precedence, tightest first. -/
def levels : List (List Symbol) :=
  [[.star, .slash, .percent], [.plus, .minus], [.ge, .le, .gt, .lt], [.same, .differs], [.both],
    [.either]]

/-- The comparisons, which cannot be chained. -/
def comparisons : List Symbol :=
  [.gt, .lt, .ge, .le, .same, .differs]

/-- Whether two tokens are identical. Two symbols, or two names, cannot be compared. -/
def identical (a b : Token) : Eval Bool :=
  match a, b with
  | .val v, .val w =>
    match v.identical? w with
    | some r => pure r
    | none => Eval.breakdown .broken
  | .sym _, .sym _ | .name _, .name _ | .func _, .func _ | .row _, .row _ =>
    Eval.breakdown .broken
  | _, _ => pure false

/-- Whether the left side of a logical operator counts as true. -/
def leftTruth : Token → Eval Bool
  | .val v => Eval.truth v
  | _ => Eval.breakdown .broken

/-- An operation on two strings. -/
def onStrings? (op : Symbol) (s t : String) : Option Value :=
  match op with
  | .ge => some (.bool (!(s < t)))
  | .le => some (.bool (!(t < s)))
  | .gt => some (.bool (t < s))
  | .lt => some (.bool (s < t))
  | .plus => some (.str (s ++ t))
  | _ => none

/-- An operation on two numbers. Division by zero fails. -/
def onNumbers? (op : Symbol) (x y : Float) : Option (Except Fault Value) :=
  match op with
  | .ge => some (.ok (.bool (x ≥ y)))
  | .le => some (.ok (.bool (x ≤ y)))
  | .gt => some (.ok (.bool (x > y)))
  | .lt => some (.ok (.bool (x < y)))
  | .plus => some (.ok (.num (x + y)))
  | .minus => some (.ok (.num (x - y)))
  | .star => some (.ok (.num (x * y)))
  | .slash => some (if y == 0.0 then .error .zeroDivision else .ok (.num (x / y)))
  | .percent =>
    some (if y == 0.0 then .error .zeroDivision else .ok (.num (Number.remainder x y)))
  | _ => none

/-- Refuses a comparison that another one follows. `next` is the token after the right operand. -/
def checkChaining (op : Symbol) (next : Option Token) : Eval Unit :=
  match next with
  | none => pure ()
  | some t =>
    match t.text? with
    | none => pure ()
    | some s =>
      if comparisons.contains op && comparisons.any (·.text == s) then
        Eval.raise (.chained op.text s)
      else pure ()

/-- What a binary operator makes of its neighbours. `whole` is the expression, for the report. -/
def combine (op : Symbol) (a b : Token) (whole : List Token) : Eval Token :=
  match op with
  | .same => do return .val (.bool (← identical a b))
  | .differs => do return .val (.bool (!(← identical a b)))
  | .both => do return if ← leftTruth a then b else a
  | .either => do return if ← leftTruth a then a else b
  | _ =>
    let failed : Eval Token := Eval.raiseAt (.badBinary op.text) whole
    match a, b with
    | .val (.str s), .val (.str t) =>
      match onStrings? op s t with
      | some v => pure (.val v)
      | none => failed
    | .val (.num x), .val (.num y) =>
      match onNumbers? op x y with
      | some r => do return .val (← Eval.ofFault r)
      | none => failed
    | _, _ => failed

/-- The operator a token is, if it is one of a level. -/
def ofLevel (level : List Symbol) : Token → Option Symbol
  | .sym y => if level.contains y then some y else none
  | _ => none

/-- Does the operators of one level from left to right. `done` is what stands on the left, nearest
first. -/
def levelFrom (level : List Symbol) : List Token → List Token → Eval (List Token)
  | done, [] => pure done.reverse
  | done, t :: ts =>
    match ofLevel level t with
    | none => levelFrom level (t :: done) ts
    | some op =>
      match done, ts with
      | a :: before, b :: rest => do
        checkChaining op rest.head?
        let c ← combine op a b (done.reverse ++ t :: ts)
        levelFrom level (c :: before) rest
      | _, _ => Eval.raise (.strayOperator op.text)

/-- Does the binary operators, level by level, until one token is left or no level. -/
def binaryFrom : List (List Symbol) → List Token → Eval (List Token)
  | [], ts => pure ts
  | level :: rest, ts => do
    let ts ← levelFrom level [] ts
    if ts.length == 1 then return ts else binaryFrom rest ts

/-- Does all binary operators. -/
def binary (ts : List Token) : Eval (List Token) :=
  binaryFrom levels ts

/-- The value of the token right of a unary operator. -/
def operand (eval : Expr → Eval Value) : List Token → Eval Value
  | [] => Eval.breakdown .position
  | t :: _ => eval [t]

/-- The number a value stands for after a plus sign. -/
def toNumber : Value → Eval Float
  | .num x => pure x
  | .str s =>
    match Number.read? s with
    | some x => pure x
    | none => Eval.raise (.badUnary "+")
  | _ => Eval.raise (.badUnary "+")

/-- Whether a minus sign after a token is unary: not after a number. -/
def minusIsUnary : Option Token → Bool
  | some (.val (.num _)) => false
  | _ => true

/-- Whether a plus sign after a token is unary: at the start or after a symbol. -/
def plusIsUnary : Option Token → Bool
  | none => true
  | some t => t.isSymbol

/-- Does the unary operators from right to left. `before` is what stands on the left, nearest
first; `after` is done. -/
def unaryFrom (eval : Expr → Eval Value) : List Token → List Token → Eval (List Token)
  | [], after => pure after
  | t :: before, after =>
    match t with
    | .sym .bang => do
      let v ← operand eval after
      let b ← Eval.truth v
      unaryFrom eval before (.val (.bool !b) :: after.tail)
    | .sym .minus =>
      if minusIsUnary before.head? then do
        match ← operand eval after with
        | .num x => unaryFrom eval before (.val (.num (-x)) :: after.tail)
        | _ => Eval.raise (.badUnary "-")
      else unaryFrom eval before (t :: after)
    | .sym .plus =>
      if plusIsUnary before.head? then do
        let v ← operand eval after
        let x ← toNumber v
        unaryFrom eval before (.val (.num x) :: after.tail)
      else unaryFrom eval before (t :: after)
    | _ => unaryFrom eval before (t :: after)

/-- Does all unary operators. -/
def unary (eval : Expr → Eval Value) (ts : List Token) : Eval (List Token) :=
  unaryFrom eval ts.reverse []

/-- Does unary, then binary operators. -/
def pass (eval : Expr → Eval Value) (ts : List Token) : Eval (List Token) := do
  binary (← unary eval ts)

/-- Repeats passes until one token is left. Each pass must leave fewer tokens than `old`, the number
before it. -/
def settleFrom (eval : Expr → Eval Value) (old : Nat) (ts : List Token) : Eval Token :=
  match ts with
  | [t] => pure t
  | ts => do
    let next ← pass eval ts
    if next.length < old then settleFrom eval next.length next
    else Eval.raiseAt .noExpression next
termination_by old

/-- Does all operators of an expression without brackets. -/
def settle (eval : Expr → Eval Value) (ts : List Token) : Eval Token := do
  let ts ← pass eval ts
  settleFrom eval ts.length ts

end LittleJ.Operator
