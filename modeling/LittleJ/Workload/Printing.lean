import LittleJ.Interpreter
import LittleJ.Name
import LittleJ.Workload.Programs

/-!
# A workload of printing

Values of every kind are printed, and a few small tests are made beside it. What is measured is the
number of characters printed and of tests that hold.
-/

namespace LittleJ.Workload

/-- An array with a value of every plain kind. -/
def sampleArray : Eval Value := do
  return .arr (← Eval.make (·.newArray #[.num 1.0, .num 2.5, .str "two", .bool true, .null]))

/-- An object with an array inside. -/
def sampleObject : Eval Value := do
  let a ← sampleArray
  return .obj (← Eval.make (·.newObject [("list", a), ("x", .num 7.0)]))

/-- The `i`-th value: numbers, arrays, objects, texts, truth and null take turns. -/
def sample (i : Nat) : Eval Value :=
  match i % 6 with
  | 0 => return .num (Float.ofNat i)
  | 1 => sampleArray
  | 2 => sampleObject
  | 3 => return .str ("item " ++ numeral i)
  | 4 => return .bool true
  | _ => return .null

/-- One for a test that holds. -/
def tally (holds : Bool) : Nat :=
  if holds then 1 else 0

/-- The length of a value's printed form. -/
def printedLength (v : Value) : Eval Nat := do
  return (← Eval.ofFault ((← get).print v)).length

/-- What the `i`-th value adds: its printed form, and tests on it and on its number. -/
def sampleCost (i : Nat) : Eval Nat := do
  let v ← sample i
  let length ← printedLength v
  let truth ← Eval.truth v
  return length + tally (truth || v.truth? != some true) + tally
    (isNameLike ("item" ++ numeral i)) +
    tally (Number.isDecimalText (numeral i))

/-- What the values below `n` add. -/
def sampleCosts : Nat → Eval Nat
  | 0 => return 0
  | n + 1 => do return (← sampleCosts n) + (← sampleCost n)

/-- The length of an excerpt of a program. -/
def excerptLength (s : String) : Eval Nat := do
  let tokens ← Eval.ofFailure (lex s)
  return (← Eval.ofFault ((← get).excerpt tokens)).length

/-- Numbers whose printed forms differ in kind: whole, fractional, long, and with an exponent. -/
def sampleNumbers : List Float :=
  [1e5, 1e22, 0.5, 0.1 + 0.2, 1e-7]

/-- What is printed whatever the size: excerpts of programs, and numbers. -/
def fixedCost : Eval Nat := do
  let excerpts ← [counters 1, functions 1, statements 1].mapM excerptLength
  let numbers ← sampleNumbers.mapM fun x => printedLength (.num x)
  return (excerpts ++ numbers).foldl (· + ·) 0

/-- The whole workload with `n` values. -/
def charactersPrinted (n : Nat) : Eval Nat := do
  return (← fixedCost) + (← sampleCosts n)

end LittleJ.Workload
