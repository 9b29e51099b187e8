import LittleJ.Eval.Basic

/-!
# The functions of `math`

Each function takes numbers and gives a number, or fails: outside its domain, or when the result is
too large. The extremes take an array of numbers instead.
-/

namespace LittleJ.Math

/-- Whether a number is neither infinite nor NaN. -/
def isFinite (x : Float) : Bool :=
  !x.isNaN && !x.isInf

/-- The base of the natural logarithm. -/
def e : Float := 2.718281828459045

/-- The ratio of a circle's circumference to its diameter. -/
def pi : Float := 3.141592653589793

/-- A function on the reals. A result that is no number means that `x` is outside the domain, and
an infinite one that it is too large, or outside the domain if the function is bounded. -/
def real (grows : Bool) (f : Float → Float) (x : Float) : Except Fault Float :=
  let y := f x
  if y.isNaN && !x.isNaN then .error .badOperand
  else if y.isInf && isFinite x then .error (if grows then .overflow else .badOperand)
  else .ok y

/-- A function of two reals. A result that is no number means that they are outside the domain, and
an infinite one that it is too large. -/
def real₂ (f : Float → Float → Float) (x y : Float) : Except Fault Float :=
  let z := f x y
  if z.isNaN && !x.isNaN && !y.isNaN then .error .badOperand
  else if z.isInf && isFinite x && isFinite y then .error .overflow
  else .ok z

/-- The natural logarithm of a positive number. -/
def ln (x : Float) : Except Fault Float :=
  if x.isNaN then .ok x
  else if x > 0.0 then real false Float.log x
  else .error .badOperand

/-- The logarithm of `x` to the base `b`, as a quotient of natural logarithms. -/
def logTo (b x : Float) : Except Fault Float := do
  let n ← ln x
  let d ← ln b
  if d == 0.0 then throw .zeroDivision
  real₂ (· / ·) n d

/-- Whether a number is whole and odd. -/
def isOdd (x : Float) : Bool :=
  Number.isWhole x && match Number.toInt? x with
    | some n => n % 2 == 1
    | none => false

/-- A power. A negative base with a fractional exponent has no real power; the result is then
`none`, unless its size is too large for a number. -/
def power (x y : Float) : Except Fault (Option Float) :=
  if y == 0.0 then .ok (some 1.0)
  else if x.isNaN then .ok (some x)
  else if y.isNaN then .ok (some (if x == 1.0 then 1.0 else y))
  else if y.isInf then
    let a := x.abs
    if a == 1.0 then .ok (some 1.0)
    else if (y > 0.0) == (a > 1.0) then .ok (some y.abs)
    else .ok (some 0.0)
  else if x.isInf then
    if y > 0.0 then .ok (some (if isOdd y then x else x.abs))
    else .ok (some (if isOdd y && x < 0.0 then -0.0 else 0.0))
  else if x == 0.0 then
    if y < 0.0 then .error .zeroDivision
    else .ok (some (if isOdd y then x else 0.0))
  else
    let a := x.abs
    let p := if a == 1.0 then 1.0 else Float.pow a y
    if p.isInf then .error .overflow
    else if p.isNaN then .error .badOperand
    else if x < 0.0 && !Number.isWhole y then .ok none
    else .ok (some (if x < 0.0 && isOdd y then -p else p))

/-- The extreme of numbers: the first one that no later one beats. -/
def extreme (beats : Float → Float → Bool) : List Float → Option Float
  | [] => none
  | x :: xs => some (xs.foldl (fun best y => if beats y best then y else best) x)

/-- The functions of one number. -/
def unary? : MathFunction → Option (Float → Except Fault Float)
  | .abs => some fun x => .ok x.abs
  | .acos => some (real false Float.acos)
  | .asin => some (real false Float.asin)
  | .atan => some (real false Float.atan)
  | .ceil => some fun x => .ok (Number.ceil x)
  | .cos => some (real false Float.cos)
  | .exp => some (real true Float.exp)
  | .floor => some fun x => .ok (Number.floor x)
  | .log => some (logTo e)
  | .round => some fun x => .ok (Number.round x)
  | .sin => some (real false Float.sin)
  | .sqrt => some (real false Float.sqrt)
  | .tan => some (real false Float.tan)
  | .atan2 | .max | .min | .pow | .random => none

/-- The numbers among values, if all of them are. -/
def numbers? : List Value → Option (List Float)
  | [] => some []
  | .num x :: vs => (numbers? vs).map (x :: ·)
  | _ :: _ => none

/-- The things that `max` and `min` look at, one by one: elements, characters or keys. `none` if
there are no such things. -/
def items? (σ : Store) : Value → Option (List Value)
  | .arr r => some (σ.array r).toList
  | .str s => some (s.toList.map fun c => .str (String.singleton c))
  | .obj r => some ((σ.object r).keys.map .str)
  | _ => none

/-- The extreme of what a value holds. -/
def extremeOf (beats : Float → Float → Bool) (v : Value) : Eval Value := do
  match items? (← get) v with
  | none => Eval.breakdown .wrongKind
  | some items =>
    match numbers? items with
    | none => Eval.raise .mathCall
    | some xs =>
      match extreme beats xs with
      | none => Eval.breakdown .badOperand
      | some x => return .num x

/-- A number from 0 to 1, the latter excluded. -/
def random : Eval Value := do
  let seed := ((← get).seed * 6364136223846793005 + 1442695040888963407) % Nat.pow 2 64
  modify fun σ => { σ with seed }
  return .num (Number.ofParts false (seed / Nat.pow 2 11) (-53))

/-- Calls a function of `math`. The number of arguments is right. -/
def call (f : MathFunction) (args : List Value) : Eval Value :=
  match f, args with
  | .random, _ => random
  | .max, [v] => extremeOf (fun y best => y > best) v
  | .min, [v] => extremeOf (fun y best => y < best) v
  | .pow, [.num x, .num y] => do
    match ← Eval.ofFault (power x y) with
    | some z => return .num z
    | none => Eval.breakdown (.internal "non-returning native function")
  | .atan2, [.num y, .num x] => do return .num (← Eval.ofFault (real₂ Float.atan2 y x))
  | f, [.num x] =>
    match unary? f with
    | some g => do return .num (← Eval.ofFault (g x))
    | none => Eval.raise .mathCall
  | _, _ => Eval.raise .mathCall

/-- The constants of `math`. -/
def constants : Table Value :=
  let quotient (b x : Float) : Value :=
    match logTo b x with
    | .ok y => .num y
    | .error _ => .null
  [("E", .num e), ("PI", .num pi), ("LN10", quotient e 10.0), ("LN2", quotient e 2.0),
    ("LOG2E", quotient 2.0 e), ("LOG10E", quotient 10.0 e), ("SQRT1_2", .num (Float.sqrt 0.5)),
    ("SQRT2", .num (Float.sqrt 2.0))]

/-- The functions of `math` by name. -/
def functions : List (String × MathFunction) :=
  [("abs", .abs), ("acos", .acos), ("asin", .asin), ("atan", .atan), ("atan2", .atan2),
    ("ceil", .ceil), ("cos", .cos), ("exp", .exp), ("floor", .floor), ("log", .log),
    ("max", .max), ("min", .min), ("pow", .pow), ("random", .random), ("round", .round),
    ("sin", .sin), ("sqrt", .sqrt), ("tan", .tan)]

/-- The properties of the `math` object. -/
def properties : Table Value :=
  constants ++ functions.map fun p => (p.1, .native (.math p.2))

end LittleJ.Math
