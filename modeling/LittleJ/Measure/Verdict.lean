import LittleJ.Json

/-!
# Verdicts on benches

A bench is fit for use if it gives a result, the same one each time, and spends enough time in the
project's code to be measured.
-/

namespace LittleJ.Measure

/-- A verdict on a bench. -/
inductive Verdict
  | ok
  | error
  | unstable
  | tooFast
deriving DecidableEq, Repr

namespace Verdict

/-- The word for a verdict. -/
def word : Verdict → String
  | ok => "ok"
  | error => "error"
  | unstable => "unstable"
  | tooFast => "too-fast"

/-- The fewest milliseconds in the project's code that can be measured. -/
def leastTime : Float :=
  1.0

/-- Whether all texts of a list are the same. -/
def allSame : List Json → Bool
  | [] => true
  | x :: xs => xs.all fun y => y.text? == x.text?

/-- The verdict by the record of a bench. -/
def ofRecord (record : Json) : Verdict :=
  let type := ((record.get? "ret_type").bind Json.text?).getD "<"
  let stable := ((record.get? "fp_stable").map Json.items).getD []
  let times := ((record.get? "repo_tt_ms").map Json.members).getD []
  if type.startsWith "<" then .error
  else if !allSame stable then .unstable
  else if times.any fun t => (t.2.number?.getD 0.0) < leastTime then .tooFast
  else .ok

end Verdict

end LittleJ.Measure
