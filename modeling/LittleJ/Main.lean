import LittleJ.Console
import LittleJ.StandardLibrary

/-!
# The command line

A console on the standard streams, with the standard library at hand as a file. Lines are read and
answers written one by one; everything else is done by `Console.feed`.
-/

namespace LittleJ.Main

/-- Writes a text, one byte for each of its characters. -/
def writeBytes (out : IO.FS.Stream) (s : String) : IO Unit := do
  out.write (ByteArray.mk (s.toList.map fun c => UInt8.ofNat c.toNat).toArray)
  out.flush

/-- Writes what a store has got beyond its first `seen` characters. -/
def writeNew (out : IO.FS.Stream) (seen : Nat) (σ : Store) : IO Unit :=
  writeBytes out (σ.out.drop seen).toString

/-- A line without its ending. -/
def withoutEnding (line : String) : String :=
  if line.endsWith "\n" then (line.dropEnd 1).toString else line

/-- Reads lines to the end of the input. A failure below the language ends the console. -/
partial def loop (input output : IO.FS.Stream) (c : Console) (s : Console.State) (σ : Store) :
    IO Unit := do
  writeBytes output s.prompt
  let line ← input.getLine
  if line.isEmpty then writeBytes output "\n"
  else
    match c.feed s (Text.ofUtf8 (withoutEnding line)) σ with
    | .ok s' σ' =>
      writeNew output σ.out.length σ'
      loop input output c s' σ'
    | .error _ σ' =>
      writeNew output σ.out.length σ'
      throw (IO.userError "the interpreter cannot go on")

end LittleJ.Main

/-- Runs a console. -/
def main : IO Unit := do
  match LittleJ.Interpreter.make none none true LittleJ.Store.empty with
  | .ok i σ =>
    let c : LittleJ.Console :=
      ⟨i, LittleJ.Budget.standard, LittleJ.StandardLibrary.withLibrary [], false, "LJ> "⟩
    LittleJ.Main.loop (← IO.getStdin) (← IO.getStdout) c c.ready σ
  | .error _ _ => throw (IO.userError "no interpreter can be made")
