import LittleJ.Json
import LittleJ.Measure.Bench
import LittleJ.Measure.Fingerprint
import LittleJ.Measure.Profile

/-!
# Consistency of benches

A bench checks itself if its result is the same for the same parameters and depends on them, and if
its time is spent in the project. For each bench a record is kept of what it gave and where its time
went: without parameters, called twice, and once for each set of parameters.
-/

namespace LittleJ.Measure.Consistency

/-- The name of the call without parameters. -/
def defaultLabel : String :=
  "<default>"

/-- The name of a call: its parameters by name. -/
def label (args : Arguments) : String :=
  let shown := (args.mergeSort fun a b => decide (a.1 ≤ b.1)).map fun a => a.1 ++ "=" ++ a.2.shown
  if shown.isEmpty then "-" else ",".intercalate shown

/-- A share of a whole to three places. Of nothing there is no share. -/
def share (part total : Float) : Float :=
  if total > 0.0 then Number.rounded 3 (part / total) else 0.0

/-- Where the time of one call went. -/
structure Times where
  label : String
  /-- Milliseconds in the project's code. -/
  own : Float
  ownShare : Float
  /-- The share of compiled code outside the project. -/
  compiledShare : Float

/-- Where the time of a call went by its profile. -/
def Times.of (project : Project) (label : String) (p : Profile) : Times :=
  let own := p.timeIn project.owns
  ⟨label, Number.rounded 3 (own * 1000.0), share own p.total,
    share (p.timeIn (Profile.isCompiled project)) p.total⟩

/-- The record of a bench. -/
structure Record where
  resultType : String
  stable : List String
  byParams : List (String × String)
  times : List Times
  params : List String

/-- The record of a bench that gave no result. -/
def Record.failed (t : Trouble) : Record :=
  ⟨t.mark, [], [], [], []⟩

/-- Calls a bench with each set of parameters, the first being its `k`-th call. Every call uses up a
profile. -/
def callSets (project : Project) (c : Conduct) : Nat → List Profile → List Arguments →
    Except Trouble (List (String × String) × List Times × List Profile)
  | _, profiles, [] => .ok ([], [], profiles)
  | k, profiles, args :: sets => do
    let v ← c.call k args
    let (p, profiles) := Profile.next profiles
    let name := label args
    let (prints, times, profiles) ← callSets project c (k + 1) profiles sets
    return ((name, fingerprint v) :: prints, Times.of project name p :: times, profiles)

/-- The record of a bench, and the profiles that are left. -/
def recordOf (project : Project) (profiles : List Profile) (b : Bench) :
    Except Trouble (Record × List Profile) := do
  let first ← b.conduct.call 1 []
  let second ← b.conduct.call 2 []
  let (p, profiles) := Profile.next profiles
  let (prints, times, profiles) ← callSets project b.conduct 3 profiles b.params
  return (⟨first.typeName, [fingerprint first, fingerprint second], prints,
    Times.of project defaultLabel p :: times,
    b.params.flatten.map fun a => fingerprint a.2⟩, profiles)

/-- Members set one after the other. -/
def object (members : List (String × Json)) : Json :=
  .obj (members.foldl (fun ms m => Json.setMember m.1 m.2 ms) [])

/-- The written form of a record. -/
def Record.toJson (r : Record) : Json :=
  .obj [("ret_type", .str r.resultType), ("fp_stable", .arr (r.stable.map .str)),
    ("fp_by_param", object (r.byParams.map fun p => (p.1, .str p.2))),
    ("repo_tt_ms", object (r.times.map fun t => (t.label, .float t.own))),
    ("repo_frac", object (r.times.map fun t => (t.label, .float t.ownShare))),
    ("ext_frac", object (r.times.map fun t => (t.label, .float t.compiledShare))),
    ("param_fps", .arr (r.params.map .str))]

/-- The records of benches, in order. One that fails uses up no profile. -/
def recordAll (project : Project) : List Profile → List Bench → List (String × Record)
  | _, [] => []
  | profiles, b :: bs =>
    match recordOf project profiles b with
    | .ok (r, rest) => (b.name, r) :: recordAll project rest bs
    | .error t => (b.name, .failed t) :: recordAll project profiles bs

/-- The report on a module. -/
def report (project : Project) (profiles : List Profile) : Suite → Json
  | .broken r => .obj [("_import_error", .str r.line)]
  | .loaded attributes =>
    let records := recordAll project profiles (benchesOf project.benchMark attributes)
    .obj [("semcheck", .obj (records.map fun r => (r.1, r.2.toJson)))]

end LittleJ.Measure.Consistency
