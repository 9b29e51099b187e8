import LittleJ.Console
import LittleJ.Session
import LittleJ.StandardLibrary

/-!
# A workload of sessions

One interpreter takes natives whose names are taken, runs the standard library and a console, and
then programs, each in all three places. What is measured is the number of characters written.
-/

namespace LittleJ.Workload

/-- Values of a host under names that the interpreter has already. -/
def takenNames : List (String × Token) :=
  [("len", .val (.native .len)), ("keys", .val (.native .keys)),
    ("print", .val (.native .print))]

/-- A dialogue with a value, a continued line and two errors. -/
def dialogue : List String :=
  ["var a = [1, 2, 3]", "a", "a[0] +\t", "a[2]", "a[3]", "string.upper('all is done now')",
    "b", "a = 1 +"]

/-- A program that writes one line. -/
def announcement : String :=
  "print('each program of this workload writes one line of text');"

/-- Runs a program in each of the three places. -/
def everywhere (s : Session) (budget : Budget) (text : String) : Eval Unit := do
  for place in [Session.Place.global, .child, .apart] do
    let _ ← s.step budget (.run place (.text text) false)

/-- Runs a program a number of times. -/
def announceAll (s : Session) (budget : Budget) : Nat → Eval Unit
  | 0 => pure ()
  | n + 1 => do
    everywhere s budget announcement
    announceAll s budget n

/-- The whole workload with `n` programs. -/
def charactersWritten (budget : Budget) (n : Nat) : Eval Nat := do
  let i ← Interpreter.make none none true
  let s : Session := ⟨i, StandardLibrary.withLibrary [], []⟩
  i.addNatives takenNames
  i.run budget s.files (.text StandardLibrary.fileName) false
  Console.run ⟨i, budget, s.files, true, "> "⟩ dialogue
  announceAll s budget n
  return (← get).out.length

end LittleJ.Workload
