import LittleJ.Interpreter

/-!
# The console

The console reads lines and runs each as a program whose expression statements are echoed. A line
that ends in a tab is continued on the next one. On request a semicolon is put behind a program that
does not end in a semicolon or a brace.

`feed` takes one line, for a host that reads them one by one. `run` takes a list of lines; the
prompt is written before each is taken, and once more before the end is met.
-/

namespace LittleJ

/-- What a console is set up with. -/
structure Console where
  interpreter : Interpreter
  budget : Budget
  files : Table String
  /-- Whether semicolons are put behind programs. -/
  semify : Bool
  /-- The prompt for a new program. -/
  prompt : String

namespace Console

/-- Where a console stands between two lines. -/
structure State where
  /-- The prompt for the next line. -/
  prompt : String
  /-- What the lines before left unfinished. -/
  pending : String

/-- The state in which a new program is awaited. -/
def ready (c : Console) : State :=
  ⟨c.prompt, ""⟩

/-- The prompt for a continued line: as long as the prompt before it, and dotted. -/
def continued (prompt : String) : String :=
  String.ofList (List.replicate (prompt.length - 1) '.' ++ [' '])

/-- The program that a finished input stands for. -/
def finished (semify : Bool) (input : String) : String :=
  if semify && !(input.endsWith ";" || input.endsWith "\x7d") then input ++ ";" else input

/-- Takes one line. -/
def feed (c : Console) (s : State) (line : String) : Eval State := do
  let input := s.pending ++ "\n" ++ line
  if input.endsWith "\t" then return ⟨continued s.prompt, input⟩
  else
    c.interpreter.run c.budget c.files (.text (finished c.semify input)) true
    return c.ready

/-- Takes lines to the end of the input. -/
def feedAll (c : Console) : State → List String → Eval Unit
  | s, [] => modify (·.write (s.prompt ++ "\n"))
  | s, line :: lines => do
    modify (·.write s.prompt)
    feedAll c (← c.feed s line) lines

/-- Runs a console over lines. -/
def run (c : Console) (lines : List String) : Eval Unit :=
  c.feedAll c.ready lines

end Console

end LittleJ
