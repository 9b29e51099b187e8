import LittleJ.Json.Reader
import LittleJ.Text.Bytes

/-!
# The checkpoint file

Every round leaves one line, a JSON object. The next round counts the lines and reads from them when
the last round was and how many benches were below the target each time. If a line cannot be read,
nothing more is written to the file.
-/

namespace LittleJ.Measure

/-- What earlier rounds have left. -/
structure History where
  /-- The number of lines that are not blank. -/
  rounds : Nat
  /-- When the last round was. -/
  last : Option Float
  /-- The counts of benches below the target, as far as the lines can be read. -/
  counts : List Int
  /-- Whether all lines can be read. -/
  intact : Bool

namespace History

/-- The lines of a text that are not blank. -/
def linesOf (text : String) : List String :=
  ((text.split '\n').toList.map (·.toString)).filter fun l => !l.toList.all Text.isBlank

/-- The record on a line. -/
def record? (line : String) : Option Json :=
  match Json.read line with
  | .ok j => if j.isObject then some j else none
  | .error _ => none

/-- The records of lines up to the first that cannot be read. -/
def readable : List String → List Json
  | [] => []
  | l :: ls =>
    match record? l with
    | some j => j :: readable ls
    | none => []

/-- The count of a record, if it has one. -/
def count? (j : Json) : Option Int :=
  match j.get? "n_below_repo_time" with
  | some (.int n) => some n
  | _ => none

/-- The time of a record. Zero is no time. -/
def time? (j : Json) : Option Float := do
  let t ← (← j.get? "ts").number?
  if t == 0.0 then none else some t

/-- What the text of a checkpoint file holds. -/
def ofText (text : String) : History :=
  let lines := linesOf text
  let records := readable lines
  ⟨lines.length, lines.getLast?.bind fun l => (record? l).bind time?, records.filterMap count?,
    records.length == lines.length⟩

end History

end LittleJ.Measure
