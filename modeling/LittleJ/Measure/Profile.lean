import LittleJ.Measure.Project

/-!
# Profiles

A profile tells how long a call took in all and how much of it was spent in each file itself. Shares
are taken of the whole.
-/

namespace LittleJ.Measure

/-- What a profiler saw during one call. -/
structure Profile where
  total : Float
  /-- Files with the time spent in them. -/
  rows : List (String × Float)

namespace Profile

/-- A call of which nothing was seen. -/
def unseen : Profile :=
  ⟨0.0, []⟩

/-- The next profile, and those after it. -/
def next : List Profile → Profile × List Profile
  | [] => (unseen, [])
  | p :: rest => (p, rest)

/-- The time spent in the files that satisfy a test. -/
def timeIn (p : Profile) (test : String → Bool) : Float :=
  (p.rows.filter fun r => test r.1).foldl (fun t r => t + r.2) 0.0

/-- The file name that stands for everything built into the host. -/
def builtin : String :=
  "~"

/-- Whether a file is compiled code outside the project. -/
def isCompiled (project : Project) (file : String) : Bool :=
  file == builtin || (!project.owns file && (file.endsWith ".so" || file.endsWith ".pyd"))

/-- The name of the module that a file holds. -/
def moduleName (file : String) : String :=
  if file == builtin then "builtins"
  else
    let name := Path.stem (Path.base file)
    if name.isEmpty then file else name

end Profile

end LittleJ.Measure
