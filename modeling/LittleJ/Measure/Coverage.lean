import LittleJ.Measure.Bench
import LittleJ.Measure.Breakdown
import LittleJ.Measure.Project

/-!
# Coverage runs

All benches are run once while the covered lines are recorded. The report of the recorder is
completed with the errors and the number of the benches, written to a file, and summed up in one
line.
-/

namespace LittleJ.Measure.Coverage

/-- What a coverage run is asked for. -/
structure Request where
  /-- The directory of the covered code. -/
  directory : String
  /-- The files that are left out, as JSON text. -/
  omitted : String

/-- What a coverage run leaves. -/
structure Outcome where
  source : String
  omitted : Json
  out : String
  file : String

/-- The number of benches, and the errors of those that fail. A module that cannot be loaded is one
error. -/
def runAll (project : Project) : Suite → Nat × List (String × Json)
  | .broken r => (0, [("<import>", .str r.line)])
  | .loaded attributes =>
    let benches := benchesOf project.benchMark attributes
    (benches.length, benches.filterMap fun b =>
      match b.conduct.call 1 [] with
      | .ok _ => none
      | .error t => some (b.name, .str t.line))

/-- A report with the errors and the number of the benches in its member `meta`. -/
def complete (project : Project) (benches : Nat) (errors : List (String × Json)) (report : Json) :
    Json :=
  let info := ((report.get? "meta").map Json.members).getD []
  let info := Json.setMember (project.toolMark ++ "bench_errors") (.obj errors) info
  let info := Json.setMember (project.toolMark ++ "n_benches") (.int benches) info
  .obj (Json.setMember "meta" (.obj info) report.members)

/-- Runs the benches under coverage. -/
def run (project : Project) (request : Request) (suite : Suite) (report : Json) :
    Except Breakdown Outcome := do
  let omitted ← parsed request.omitted
  let (benches, errors) := runAll project suite
  let totals ← need "totals" report
  let percent ← need "percent_covered" totals
  let covered ← need "covered_lines" totals
  let statements ← need "num_statements" totals
  let line := "coverage: " ++ inPlaces 1 percent ++ "% (" ++ covered.render ++ "/" ++
    statements.render ++ " stmts, " ++ Number.integerText benches ++ " benches, " ++
    Number.integerText errors.length ++ " errors)\n"
  return ⟨Path.resolve project.root request.directory, omitted, line,
    (complete project benches errors report).render⟩

end LittleJ.Measure.Coverage
