import LittleJ.Json.Printer
import LittleJ.Json.Reader
import LittleJ.Number.Fixed

/-!
# What a tool needs

A tool breaks off if a file is not there, if a text is no JSON, or if a member is missing. What it
has read it shows as it was written.
-/

namespace LittleJ.Measure

/-- Why a tool breaks off. -/
inductive Breakdown
  /-- A text is no JSON. -/
  | badJson
  /-- A member is missing. -/
  | missingMember
  | missingFile
deriving DecidableEq, Repr

/-- A member that has to be there. -/
def need (key : String) (j : Json) : Except Breakdown Json :=
  match j.get? key with
  | some v => .ok v
  | none => .error .missingMember

/-- A JSON text that has to be right. -/
def parsed (s : String) : Except Breakdown Json :=
  match Json.read s with
  | .ok j => .ok j
  | .error _ => .error .badJson

/-- A number with a fixed number of places. What is no number counts as zero. -/
def inPlaces (places : Nat) (j : Json) : String :=
  Number.fixed places (j.number?.getD 0.0)

end LittleJ.Measure
