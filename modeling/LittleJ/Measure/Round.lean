import LittleJ.Measure.Breakdown
import LittleJ.Measure.History
import LittleJ.Measure.Plateau
import LittleJ.Measure.Project
import LittleJ.Measure.Verdict
import LittleJ.Table
import LittleJ.Text.Columns

/-!
# Rounds of measuring

A round runs the tools one after the other: coverage, which has to succeed, then the shares of time
and the checks of the benches, which may fail. It prints what was found, adds a line to the
checkpoint file, and says when further rounds are of no use.
-/

namespace LittleJ.Measure

/-- How a child process ended. -/
inductive Child
  | ended (code : Int) (out err : String)
  /-- It could not be run to its end. -/
  | failed (kind text : String)

/-- A tool: the file it is in, a name for messages, and the child that runs it. -/
structure Tool where
  file : String
  name : String
  child : Child

/-- What a round finds around it. -/
structure World where
  files : Table String
  coverage : Child
  shares : Tool
  checks : Tool
  /-- The clock before and after the coverage step. -/
  began : Float
  ended : Float
  /-- The time of day. -/
  now : Float

namespace Round

/-- What a round leaves. -/
structure Outcome where
  out : String
  err : String
  /-- The code with which the round breaks off, if it does. -/
  exit : Option Int
  files : Table String

/-- Percent of its time that a bench should spend in the project's code. -/
def target : Nat :=
  50

/-- Percent below which a bench misses the target. -/
def tolerated : Nat :=
  45

/-- Percent of coverage from which on the rounds may stop. -/
def enoughCoverage : Float :=
  60.0

/-! ### The tools -/

/-- The last line of a text without the blanks around it. -/
def lastLine (s : String) : Option String :=
  (History.linesOf s).getLast?

/-- What a tool reports, and what it writes to the error stream. A tool that is not there reports
nothing. -/
def consult (world : World) (t : Tool) : Json × String :=
  if !world.files.has t.file then (.obj [], "")
  else
    match t.child with
    | .failed kind text => (.obj [], "[" ++ t.name ++ " runner: " ++ kind ++ ": " ++ text ++ "]\n")
    | .ended _ out err =>
      match lastLine out with
      | none => (.obj [], err)
      | some line =>
        match Json.read line with
        | .ok j => (j, "")
        | .error f =>
          (.obj [], "[" ++ t.name ++ " runner: JSONDecodeError: " ++ f.message line.toList ++ "]\n")

/-! ### The table of coverage -/

/-- One row of the table. -/
structure Row where
  name : String
  statements : String
  missed : String
  percent : String
  lines : String

/-- A row in columns. -/
def Row.text (width : Nat) (r : Row) : String :=
  Text.padRight width r.name ++ "  " ++ Text.padLeft 5 r.statements ++ "  " ++
    Text.padLeft 4 r.missed ++ "  " ++ Text.padLeft 4 r.percent ++ "%" ++
    (if r.lines.isEmpty then "" else "  " ++ r.lines) ++ "\n"

/-- Groups of neighbouring numbers, each by its first and its last one, the last group first. -/
def groups : List Int → List (Int × Int) → List (Int × Int)
  | [], done => done
  | n :: ns, [] => groups ns [(n, n)]
  | n :: ns, (a, b) :: done =>
    if n = b + 1 then groups ns ((a, n) :: done) else groups ns ((n, n) :: (a, b) :: done)

/-- The numbers of an array. -/
def lineNumbers (j : Json) : List Int :=
  j.items.filterMap fun x => match x with
    | .int n => some n
    | _ => none

/-- Line numbers, neighbours taken together. -/
def linesText (ns : List Int) : String :=
  ", ".intercalate ((groups ns []).reverse.map fun g =>
    if g.1 = g.2 then Number.integerText g.1
    else Number.integerText g.1 ++ "-" ++ Number.integerText g.2)

/-- The row of a file. -/
def fileRow (name : String) (file : Json) : Row :=
  let summary := (file.get? "summary").getD .null
  let shown (key : String) : String := ((summary.get? key).map Json.render).getD "0"
  ⟨name, shown "num_statements", shown "missing_lines",
    inPlaces 0 ((summary.get? "percent_covered").getD .null),
    linesText (lineNumbers ((file.get? "missing_lines").getD .null))⟩

/-- The difference of two numbers. -/
def difference (a b : Json) : Json :=
  match a, b with
  | .int m, .int n => .int (m - n)
  | a, b => .float (a.number?.getD 0.0 - b.number?.getD 0.0)

/-- The sums of a coverage report. -/
structure Totals where
  percent : Json
  covered : Json
  statements : Json

/-- The sums of a report, which have to be there. -/
def Totals.of (report : Json) : Except Breakdown Totals := do
  let totals ← need "totals" report
  return ⟨← need "percent_covered" totals, ← need "covered_lines" totals,
    ← need "num_statements" totals⟩

/-- The coverage as a number. -/
def Totals.value (t : Totals) : Float :=
  t.percent.number?.getD 0.0

/-- The row below the line. -/
def Totals.row (t : Totals) : Row :=
  ⟨"TOTAL", t.statements.render, (difference t.statements t.covered).render,
    inPlaces 0 t.percent, ""⟩

/-- The width of the first column: that of the longest name. -/
def nameWidth (names : List String) : Nat :=
  if names.isEmpty then 4 else names.foldl (fun w n => max w n.length) 0

/-- The whole table. -/
def table (report : Json) (totals : Totals) : String :=
  let files := ((report.get? "files").map Json.members).getD []
  let width := nameWidth (files.map Prod.fst)
  let line := String.ofList (List.replicate (width + 42) '-') ++ "\n"
  Text.padRight width "Name" ++ "  Stmts  Miss  Cover  Missing\n" ++ line ++
    String.join (files.map fun f => (fileRow f.1 f.2).text width) ++ line ++
    totals.row.text width

/-! ### The shares of time -/

/-- What was found about the shares of time. -/
structure Shares where
  /-- Percent in the project's code by bench. -/
  percent : List (String × Json)
  /-- The modules that take most outside it. -/
  hot : Json

/-- The shares in the report of the tool. -/
def Shares.of (report : Json) : Shares :=
  ⟨((report.get? "repo_time_pct").map Json.members).getD [],
    (report.get? "hot_ext").getD .null⟩

/-- The share of an entry. -/
def shareOf (e : String × Json) : Float :=
  e.2.number?.getD 0.0

/-- The entries of benches that did not fail. -/
def Shares.valid (s : Shares) : List (String × Json) :=
  s.percent.filter fun e => shareOf e ≥ 0.0

/-- Whether an entry misses the target. -/
def isBelow (e : String × Json) : Bool :=
  shareOf e ≥ 0.0 && shareOf e < Float.ofNat tolerated

/-- The number of benches that miss the target. -/
def Shares.below (s : Shares) : Nat :=
  s.percent.countP isBelow

/-- A module that takes time outside the project. -/
def hotText (j : Json) : String :=
  match j.items with
  | [p, m] => (m.text?.getD "") ++ " " ++ inPlaces 0 p ++ "%"
  | _ => ""

/-- What is said behind the share of a bench. -/
def Shares.note (s : Shares) (e : String × Json) : String :=
  let hot := ((s.hot.get? e.1).map Json.items).getD []
  if shareOf e < 0.0 then
    "  " ++ ((hot.head?.bind fun h => h.items[1]?.bind Json.text?).getD "<error>")
  else if isBelow e && !hot.isEmpty then " (hot: " ++ " ".intercalate (hot.map hotText) ++ ")"
  else ""

/-- The line of a bench. -/
def Shares.line (s : Shares) (e : String × Json) : String :=
  let share := if shareOf e < 0.0 then 0.0 else shareOf e
  "  " ++ (if isBelow e then "* " else "  ") ++ Text.padRight 32 e.1 ++ " " ++
    Text.padLeft 5 (Number.fixed 1 share) ++ "%" ++ s.note e ++ "\n"

/-- The table of shares, the smallest first. Without entries there is none. -/
def Shares.text (s : Shares) : String :=
  if s.percent.isEmpty then ""
  else
    let sorted := s.percent.mergeSort fun a b => shareOf a ≤ shareOf b
    "\nrepo_time (target " ++ Number.integerText target ++ "%; * = below " ++
      Number.integerText tolerated ++ "%):\n" ++ String.join (sorted.map s.line)

/-! ### The round -/

/-- The number of benches that a text defines. -/
def benchCount (project : Project) (text : String) : Nat :=
  ((text.split '\n').toList.map (·.toString)).countP (·.startsWith ("def " ++ project.benchMark))

/-- The errors of benches that a report names. -/
def benchErrors (project : Project) (report : Json) : Nat :=
  (((report.get? "meta").bind (·.get? (project.toolMark ++ "bench_errors"))).map
    fun e => e.members.length).getD 0

/-- The verdicts in the report of the tool. -/
def verdicts (report : Json) : List (String × Verdict) :=
  (((report.get? "semcheck").map Json.members).getD []).map fun e => (e.1, Verdict.ofRecord e.2)

/-- Everything that a round has found. -/
structure Findings where
  report : Json
  totals : Totals
  shares : Shares
  verdicts : List (String × Verdict)
  benches : Nat
  errors : Nat
  history : History
  /-- How long the coverage step took. -/
  elapsed : Float
  now : Float

/-- The number of the round. -/
def Findings.round (f : Findings) : Nat :=
  f.history.rounds + 1

/-- The number of benches below the target, if any bench has a share. -/
def Findings.below? (f : Findings) : Option Nat :=
  if f.shares.valid.isEmpty then none else some f.shares.below

/-- The line for the checkpoint file. -/
def Findings.record (f : Findings) : Json :=
  let wait := (f.history.last.map fun t => Number.rounded 2 (f.now - t)).getD 0.0
  .obj [("round", .int f.round), ("ts", .float f.now), ("wall_since_prev_s", .float wait),
    ("coverage_pct", f.totals.percent), ("covered_lines", f.totals.covered),
    ("num_statements", f.totals.statements), ("n_bench_fns", .int f.benches),
    ("n_bench_errors", .int f.errors), ("cov_measure_s", .float (Number.rounded 3 f.elapsed)),
    ("repo_time_pct", .obj f.shares.percent),
    ("n_below_repo_time", (f.below?.map fun n => Json.int n).getD .null),
    ("semcheck", .obj (f.verdicts.map fun v => (v.1, .str v.2.word))),
    ("n_not_self_checking", .int (f.verdicts.countP fun v => v.2 != .ok))]

/-- The line that sums up the round. -/
def Findings.summary (f : Findings) : String :=
  let shares := if f.shares.percent.isEmpty then ""
    else Number.integerText f.shares.below ++ "/" ++ Number.integerText f.shares.valid.length ++
      " below repo_time " ++ Number.integerText tolerated ++ "%, "
  "\n[round " ++ Number.integerText f.round ++ ": " ++ Number.integerText f.benches ++
  " benches, " ++
    inPlaces 1 f.totals.percent ++ "% covered, " ++ shares ++ "measured in " ++
    Number.fixed 1 f.elapsed ++ "s]\n"

/-- What to do after the round. Without enough coverage, or without any share, it is to go on. -/
def Findings.advice (f : Findings) : Plateau.Advice :=
  match f.below? with
  | none => .goOn
  | some n => if f.totals.value ≥ enoughCoverage then Plateau.advise f.history.counts n else .goOn

/-- The line that says to stop. -/
def stopText (project : Project) (reason : String) : String :=
  "\n>>> STOP: repo_time converged (" ++ reason ++ "). Finalize " ++ project.benchFile ++
    " now. <<<\n"

/-- What is said about further rounds. -/
def adviceText (project : Project) : Plateau.Advice → String
  | .goOn => ""
  | .done => stopText project "0 below"
  | .stalled rounds best =>
    stopText project ("no improvement in " ++ Number.integerText rounds ++ " rounds; best " ++
      Number.integerText best ++ " below")

/-- The text of a file, which has to be there. -/
def fileText (world : World) (path : String) : Except Breakdown String :=
  match world.files.get? path with
  | some s => .ok s
  | none => .error .missingFile

/-- The files after the round: one more line in the checkpoint file if its lines can be read. -/
def Findings.filesAfter (f : Findings) (path : String) (files : Table String) : Table String :=
  if f.history.intact then
    files.put path ((files.get? path).getD "" ++ f.record.render ++ "\n")
  else files

/-- A round whose coverage step has succeeded. -/
def evaluate (project : Project) (world : World) : Except Breakdown Outcome := do
  let report ← parsed (← fileText world (project.path project.coverageFile))
  let totals ← Totals.of report
  let (shareReport, shareErrors) := consult world world.shares
  let (checkReport, checkErrors) := consult world world.checks
  let benchText ← fileText world (project.path project.benchFile)
  let checkpoint := project.path project.checkpointFile
  let findings : Findings :=
    ⟨report, totals, .of shareReport, verdicts checkReport, benchCount project benchText,
      benchErrors project report, .ofText ((world.files.get? checkpoint).getD ""),
      world.ended - world.began, world.now⟩
  return ⟨table report totals ++ findings.shares.text ++ findings.summary ++
    adviceText project findings.advice, shareErrors ++ checkErrors, none,
    findings.filesAfter checkpoint world.files⟩

/-- A round. If the coverage step fails, nothing else is done. -/
def run (project : Project) (world : World) : Except Breakdown Outcome :=
  match world.coverage with
  | .failed kind text => .ok ⟨"", kind ++ ": " ++ text ++ "\n", some 1, world.files⟩
  | .ended code _ err =>
    if code = 0 then evaluate project world else .ok ⟨"", err, some 1, world.files⟩

end Round

end LittleJ.Measure
