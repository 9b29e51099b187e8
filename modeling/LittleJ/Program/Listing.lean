import LittleJ.Number.Layout
import LittleJ.Text.Quoted
import LittleJ.Token

/-!
# Listings

One message shows a function in full: its parameters and the tree of its body, as nested lists.
Words and strings are quoted alike, numbers keep their point, and a function inside is listed in the
same way.
-/

namespace LittleJ.Listing

/-- Shown items as a list. -/
def bracketed (items : List String) : String :=
  "[" ++ ", ".intercalate items ++ "]"

/-- A value in a listing. References do not occur in the body of a function. -/
def value : Value → String
  | .null => "None"
  | .bool b => if b then "True" else "False"
  | .num x => Number.listed x
  | .str s => Text.quoted s
  | .arr _ => "[]"
  | .obj _ => "\x7b\x7d"
  | .fn _ | .native _ => "<function>"
  | .foreign n => Number.integerText n

mutual

/-- A token in a listing. -/
def token : Token → String
  | .name s => Text.quoted s
  | .sym y => Text.quoted y.text
  | .val v => value v
  | .func f => function f
  | .row ts => bracketed (tokens ts)

/-- Tokens in a listing. -/
def tokens : List Token → List String
  | [] => []
  | t :: ts => token t :: tokens ts

/-- A function in a listing. -/
def function : Function → String
  | .mk params body _ =>
    "...function " ++ bracketed (params.map Text.quoted) ++ " " ++ bracketed (statements body) ++
      "..."

/-- A statement in a listing. -/
def statement : Stmt → String
  | .init n e => bracketed ["'init'", Text.quoted n, bracketed (tokens e)]
  | .assign l r => bracketed ["'assign'", bracketed (tokens l), bracketed (tokens r)]
  | .ladder arms => bracketed ("'if-ladder'" :: ladder arms)
  | .loop c b => bracketed ["'while'", bracketed (tokens c), bracketed (statements b)]
  | .ret e => bracketed ["'return'", bracketed (tokens e)]
  | .brk => bracketed ["'break'"]
  | .exp e => bracketed ["'exp-stmt'", bracketed (tokens e)]

/-- Statements in a listing. -/
def statements : List Stmt → List String
  | [] => []
  | s :: ss => statement s :: statements ss

/-- The arms of a ladder in a listing: conditions and blocks by turns. -/
def ladder : List (List Token × List Stmt) → List String
  | [] => []
  | (c, b) :: arms => bracketed (tokens c) :: bracketed (statements b) :: ladder arms

end

end LittleJ.Listing
