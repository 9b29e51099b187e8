import LittleJ.Program.Kept
import LittleJ.Program.Parser

/-!
# Interpreters

An interpreter is a global scope with the built-in functions in it, and limits. It runs programs one
after the other; each sees what the earlier ones left in the global scope. A program that fails with
an error of the language is reported in the output and harms nothing else. A fault is not caught.
-/

namespace LittleJ

/-- How much a computation may use. -/
structure Budget where
  /-- How deeply evaluations may be nested. -/
  depth : Nat
  /-- How many rounds one loop may have. -/
  rounds : Nat

/-- Enough for every program that ends by itself within reason. -/
def Budget.standard : Budget :=
  ⟨20000, 1000000000⟩

/-- A limit given as a number. Zero means no limit. -/
def limitOf (r : Rat) : Option Rat :=
  if r = 0 then none else some r

/-- An interpreter. -/
structure Interpreter where
  /-- The global scope. -/
  global : Nat
  /-- How long a loop may take. -/
  loopLimit : Option Rat
  /-- How deeply calls may be nested. -/
  depthLimit : Option Rat

namespace Interpreter

/-- Puts the built-in functions into a scope. -/
def addBuiltins (scope : Nat) : Eval Unit := do
  let math ← Eval.make (·.newObject Math.properties)
  modify fun σ => Native.builtins.foldl (fun σ p => σ.putVar scope p.1 (.native p.2)) σ
  modify (·.putVar scope "math" (.obj math))

/-- Makes a global scope with the built-in functions. Without a place to write to they cannot be
made. -/
def makeGlobal (depthLimit : Option Rat) (writes : Bool) : Eval Nat := do
  let scope ← Eval.ofError (Store.globalScope depthLimit)
  let global ← Eval.make (·.newScope scope)
  if !writes then Eval.breakdown .absentEntry
  addBuiltins global
  return global

/-- Makes an interpreter. -/
def make (loopLimit depthLimit : Option Rat) (writes : Bool) : Eval Interpreter := do
  let global ← makeGlobal depthLimit writes
  return ⟨global, loopLimit, depthLimit⟩

/-- What a program of this interpreter runs under. -/
def context (i : Interpreter) (budget : Budget) (console : Bool) : Context :=
  ⟨i.loopLimit, console, budget.rounds⟩

/-- Adds values of a host to the global scope, in order. A name that is taken is reported and set
all the same; only values of the language can be added. -/
def addNatives (i : Interpreter) : List (String × Token) → Eval Unit
  | [] => pure ()
  | (name, t) :: rest => do
    if ((← get).scope i.global).vars.has name then
      modify (·.write ("WARNING!! Conflicting native name " ++ name))
    match t with
    | .val v =>
      if v.isProper then modify (·.putVar i.global name v)
      else Eval.breakdown (.internal ("illegal native " ++ name))
    | _ => Eval.breakdown (.internal ("illegal native " ++ name))
    addNatives i rest

/-- Runs code and reports how it ended: errors, and jumps that nothing took, become lines of
output. -/
def reporting (code : Eval Unit) : Eval Unit := fun σ =>
  match code σ with
  | .error (.failure (.error e)) σ => .ok () (σ.write (e.report ++ "\n"))
  | .error (.ret _) σ => .ok () (σ.write "SyntaxError: unexpected return statement\n")
  | .error .brk σ => .ok () (σ.write "SyntaxError: unexpected break statement\n")
  | r => r

/-- A program for an interpreter. -/
inductive Source
  /-- Program text, or the name of a file if it ends in `.l.js`. -/
  | text (s : String)
  | tree (ks : List Kept)
  /-- Some value of a host. -/
  | value (v : Value)

/-- The text that a source text stands for: itself, or the content of the file it names. -/
def contentOf (files : Table String) (s : String) : Except Fault String :=
  if s.endsWith ".l.js" then
    match files.get? s with
    | some content => .ok content
    | none => .error .noFile
  else .ok s

/-- Runs program text in a scope. -/
def runText (ctx : Context) (budget : Budget) (files : Table String) (scope : Nat) (s : String) :
    Eval Unit := do
  let content ← Eval.ofFault (contentOf files s)
  let program ← Eval.ofFailure (parseText content)
  runProgram ctx budget.depth scope program

/-- Runs program text in a scope outside any interpreter: nothing is reported, and values of
expression statements are echoed if the scope is a global one. -/
def runBare (loopLimit : Option Rat) (budget : Budget) (scope : Nat) (s : String) : Eval Unit := do
  let program ← Eval.ofFailure (parseText s)
  runProgram ⟨loopLimit, true, budget.rounds⟩ budget.depth scope program

/-- Runs an element of a list as if it were a statement. Only a list that starts with the word of a
statement is one; a text is passed over unless it is empty. -/
def runElement (v : Value) : Eval Unit := do
  match v with
  | .str s => if s.isEmpty then Eval.breakdown .position
  | .arr r =>
    match ((← get).array r).toList with
    | [] => Eval.breakdown .position
    | .str "break" :: _ => throw .brk
    | .str "if-ladder" :: _ => pure ()
    | .str s :: _ =>
      if ["init", "while", "return", "assign", "exp-stmt"].contains s then
        Eval.breakdown .badOperand
    | _ => pure ()
  | .obj _ => Eval.breakdown .absentEntry
  | _ => Eval.breakdown .wrongKind

/-- Runs elements in order. -/
def runElements : List Value → Eval Unit
  | [] => pure ()
  | v :: vs => do
    runElement v
    runElements vs

/-- Runs a program in a scope and reports how it ended. -/
def runIn (i : Interpreter) (budget : Budget) (files : Table String) (scope : Nat) (p : Source)
    (console : Bool) : Eval Unit :=
  let ctx := i.context budget console
  reporting do
    match p with
    | .text s => runText ctx budget files scope s
    | .tree ks => Kept.execAll ctx budget.depth scope ks
    | .value (.str s) => runText ctx budget files scope s
    | .value (.arr r) => runElements ((← get).array r).toList
    | .value _ => Eval.breakdown .wrongKind

/-- Runs a program in the global scope. -/
def run (i : Interpreter) (budget : Budget) (files : Table String) (p : Source) (console : Bool) :
    Eval Unit :=
  i.runIn budget files i.global p console

/-- Runs a program in a new scope inside the global one. -/
def runChild (i : Interpreter) (budget : Budget) (files : Table String) (p : Source)
    (console : Bool) : Eval Unit := do
  let scope ← Statement.makeChild i.global [] []
  i.runIn budget files scope p console

/-- Runs a program in an interpreter of its own. The two limits change places. -/
def runApart (i : Interpreter) (budget : Budget) (files : Table String) (p : Source)
    (console : Bool) : Eval Unit := do
  let other ← make i.depthLimit i.loopLimit true
  other.run budget files p console

end Interpreter

end LittleJ
