import LittleJ.Workload.Faulty
import LittleJ.Workload.Printing
import LittleJ.Workload.Sessions

/-!
# Workloads

Ten workloads that exercise the library from end to end, each of any size. A workload yields a count
or a number. It starts from an empty store every time, so it yields the same however often it is
measured.
-/

namespace LittleJ

/-- The workloads. -/
inductive Workload
  /-- Cuts statements into tokens and counts these. -/
  | lexing
  /-- Reads functions and counts the statements of the tree. -/
  | parsing
  | looping
  | recursion
  | collections
  | arithmetic
  | closures
  /-- Runs faulty programs in rounds and counts the errors. -/
  | errors
  /-- Counts the characters that sessions write. -/
  | sessions
  /-- Counts the characters of printed values. -/
  | printing
deriving DecidableEq, Repr

namespace Workload

/-- What a workload yields. -/
inductive Yield
  | count (n : Nat)
  | value (v : Value)
deriving DecidableEq, Repr

/-- Runs a program under a depth limit and gives what it leaves in `total`. -/
def totalOf (budget : Budget) (depthLimit : Option Rat) (text : String) : Eval Value := do
  let i ← Interpreter.make none depthLimit true
  Interpreter.runBare i.loopLimit budget i.global text
  Eval.ofError ((← get).lookup i.global "total")

/-- How deeply the calls of a recursion of depth `n` may be nested. -/
def recursionLimit (n : Nat) : Rat :=
  n + 20

/-- How long a loop of a faulty program may take. -/
def faultyLoopLimit : Rat :=
  mkRat 5 10000

/-- Whether a program fails with an error of the language. -/
def fails (budget : Budget) (text : String) : Bool :=
  match (do
      let i ← Interpreter.make (some faultyLoopLimit) (some 20) true
      Interpreter.runBare i.loopLimit budget i.global text : Eval Unit) .empty with
  | .error (.failure (.error _)) _ => true
  | _ => false

/-- A workload of a size, as a computation. -/
def run (budget : Budget) (n : Nat) : Workload → Eval Yield
  | .lexing => do return .count (← Eval.ofFailure (lex (statements n))).length
  | .parsing => do return .count (← Eval.ofFailure (parseText (functions n))).length
  | .looping => do return .value (← totalOf budget none (halfSteps n))
  | .recursion => do return .value (← totalOf budget (some (recursionLimit n)) (fibonacci n))
  | .collections => do return .value (← totalOf budget none (inventory n))
  | .arithmetic => do return .value (← totalOf budget none (builtinCalls n))
  | .closures => do return .value (← totalOf budget none (counters n))
  | .errors => return .count ((List.replicate n faulty).flatten.countP (fails budget))
  | .sessions => do return .count (← charactersWritten budget n)
  | .printing => do return .count (← charactersPrinted n)

/-- What a workload of a size yields, if it ends well. -/
def measure (budget : Budget) (n : Nat) (w : Workload) : Option Yield :=
  match w.run budget n .empty with
  | .ok y _ => some y
  | .error _ _ => none

end Workload

end LittleJ
