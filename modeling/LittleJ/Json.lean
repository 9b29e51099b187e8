/-!
# JSON values

A number keeps whether it was written as an integer, and an object keeps its members in order; both
show when the value is written again.
-/

namespace LittleJ

/-- A JSON value. -/
inductive Json
  | null
  | bool (b : Bool)
  | int (n : Int)
  | float (x : Float)
  | str (s : String)
  | arr (items : List Json)
  | obj (members : List (String × Json))
deriving Repr, Inhabited

namespace Json

/-- The members of an object. Anything else has none. -/
def members : Json → List (String × Json)
  | obj ms => ms
  | _ => []

/-- The items of an array. Anything else has none. -/
def items : Json → List Json
  | arr xs => xs
  | _ => []

/-- Whether a value is an object. -/
def isObject : Json → Bool
  | obj _ => true
  | _ => false

/-- The member of an object under a key. -/
def get? (key : String) (j : Json) : Option Json :=
  j.members.lookup key

/-- The text of a string. -/
def text? : Json → Option String
  | str s => some s
  | _ => none

/-- The value of a number. -/
def number? : Json → Option Float
  | int n => some (Float.ofInt n)
  | float x => some x
  | _ => none

/-- Sets a member: a new one goes to the end, one that is there keeps its place. -/
def setMember (key : String) (value : Json) : List (String × Json) → List (String × Json)
  | [] => [(key, value)]
  | (k, v) :: rest =>
    if k == key then (key, value) :: rest else (k, v) :: setMember key value rest

end Json

end LittleJ
