import LittleJ.Json
import LittleJ.Measure.Bench
import LittleJ.Measure.Profile
import LittleJ.Number.Fixed

/-!
# The project's share of a bench's time

For each bench: how many percent of its time are spent in the project's own code, and the two
modules outside it that take most.
-/

namespace LittleJ.Measure.Share

/-- Percent of a whole to one place. An empty whole counts as a billionth of a second. -/
def percent (part total : Float) : Float :=
  Number.rounded 1 (100.0 * part / (if total == 0.0 then 1e-9 else total))

/-- Adds a time to that of a module. -/
def addTime (name : String) (t : Float) : List (String × Float) → List (String × Float)
  | [] => [(name, t)]
  | (n, s) :: rest => if n == name then (n, s + t) :: rest else (n, s) :: addTime name t rest

/-- The times of the modules outside the project. -/
def foreignTimes (project : Project) (p : Profile) : List (String × Float) :=
  (p.rows.filter fun r => !project.owns r.1).foldl
    (fun ts r => addTime (Profile.moduleName r.1) r.2 ts) []

/-- Whether one module goes before another: the larger share first, then the later name. -/
def goesBefore (a b : Float × String) : Bool :=
  b.1 < a.1 || (a.1 == b.1 && b.2 ≤ a.2)

/-- The two modules outside the project that take most time. -/
def hottest (project : Project) (p : Profile) : List (Float × String) :=
  let shares := ((foreignTimes project p).filter fun t => t.2 > 0.0).map fun t =>
    (percent t.2 p.total, t.1)
  (shares.mergeSort goesBefore).take 2

/-- What is found for one bench. -/
structure Finding where
  name : String
  /-- Percent in the project's code; -1 if the bench failed. -/
  own : Float
  hot : List (Float × String)

/-- What is found for each bench. One that fails uses up no profile. -/
def findAll (project : Project) : List Profile → List Bench → List Finding
  | _, [] => []
  | profiles, b :: bs =>
    match b.conduct.call 1 [] with
    | .ok _ =>
      let (p, rest) := Profile.next profiles
      ⟨b.name, percent (p.timeIn project.owns) p.total, hottest project p⟩ :: findAll
      project rest bs
    | .error t => ⟨b.name, -1.0, [(0.0, t.mark)]⟩ :: findAll project profiles bs

/-- The written form of a module and its share. -/
def pairJson (h : Float × String) : Json :=
  .arr [.float h.1, .str h.2]

/-- The report on a module. -/
def report (project : Project) (profiles : List Profile) : Suite → Json
  | .broken r => .obj [("_import_error", .str r.line)]
  | .loaded attributes =>
    let findings := findAll project profiles (benchesOf project.benchMark attributes)
    .obj [("repo_time_pct", .obj (findings.map fun f => (f.name, .float f.own))),
      ("hot_ext", .obj (findings.map fun f => (f.name, .arr (f.hot.map pairJson))))]

end LittleJ.Measure.Share
