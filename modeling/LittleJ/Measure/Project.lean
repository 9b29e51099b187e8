/-!
# Measured projects

A project is a directory with code, a file of benches and the measuring tools themselves. Time
counts for the project only if it is spent in its own code: not in the benches, not in the tools,
and not in libraries that are installed below the directory.
-/

namespace LittleJ.Measure

namespace Path

/-- The parts of a path between its slashes. -/
def segments (path : String) : List String :=
  (path.split '/').toList.map (·.toString)

/-- The part behind the last slash. -/
def base (path : String) : String :=
  ((segments path).getLast?).getD ""

/-- A name without its extension: the last dot and what is behind it. A dot in front is part of the
name. -/
def stem (name : String) : String :=
  let tail := name.toList.reverse.takeWhile (· != '.')
  let front := (name.toList.reverse.drop (tail.length + 1)).reverse
  if front.all (· == '.') then name else String.ofList front

/-- One more segment of an absolute path, given from its end. -/
def enter (done : List String) (segment : String) : List String :=
  if segment == "" || segment == "." then done
  else if segment == ".." then done.drop 1
  else segment :: done

/-- The absolute path that a path names in a directory. -/
def resolve (directory path : String) : String :=
  let whole := if path.startsWith "/" then path else directory ++ "/" ++ path
  "/" ++ "/".intercalate ((segments whole).foldl enter []).reverse

end Path

/-- Where a project is and how its files are named. -/
structure Project where
  /-- The directory of the project. -/
  root : String
  /-- The name of the file that holds the benches. -/
  benchFile : String
  /-- The name of the file that the coverage of a round is written to. -/
  coverageFile : String
  /-- The name of the file that holds a line for each round. -/
  checkpointFile : String
  /-- What the names of the measuring tools and of their fields start with. -/
  toolMark : String
  /-- What the names of benches start with. -/
  benchMark : String

namespace Project

/-- The path of a file in the project's directory. -/
def path (p : Project) (name : String) : String :=
  p.root ++ "/" ++ name

/-- Directories that hold installed libraries. -/
def installed : List String :=
  ["venv", ".venv", "site-packages", "dist-packages"]

/-- Whether time spent in a file counts for the project. -/
def owns (p : Project) (file : String) : Bool :=
  let name := Path.base file
  file.startsWith (p.root ++ "/") && name != p.benchFile && !name.startsWith p.toolMark &&
    !(Path.segments file).any installed.contains

end Project

end LittleJ.Measure
