import LittleJ.Error
import LittleJ.Number.Layout
import LittleJ.Token

/-!
# Printing tokens

Every token has a printed form: a name or symbol is its text, a string stands in double quotes, a
function is written with the tokens of its body. References need a store, so the printer takes the
printer of values as an argument; the one here knows plain values only and is enough for text that
was never run.

Printing fails for an infinity, which has no digits, and for a host integer.
-/

namespace LittleJ

/-- The words for null and the booleans. -/
def Value.wordOfBool (b : Bool) : String :=
  if b then "true" else "false"

/-- A string in double quotes. A double quote inside is escaped, and nothing else is. -/
def quote (s : String) : String :=
  String.ofList ('"' :: s.toList.flatMap (fun c => if c == '"' then ['\\', '"'] else [c]) ++ ['"'])

/-- The printed form of a number. -/
def printNumber (x : Float) : Except Fault String :=
  match Number.printed? x with
  | some s => .ok s
  | none => .error .overflow

/-- The printed form of a native function. -/
def nativeText : String :=
  "function () \x7b [native code] \x7d"

/-- The printed form of a value that is no reference. An array or object is taken as empty. -/
def Value.printPlain : Value → Except Fault String
  | null => .ok "null"
  | bool b => .ok (wordOfBool b)
  | num x => printNumber x
  | str s => .ok (quote s)
  | arr _ => .ok "[]"
  | obj _ => .ok "\x7b\x7d"
  | fn _ | native _ => .ok nativeText
  | foreign _ => .error .broken

mutual

/-- The printed form of a token, given that of values. -/
def Token.print (value : Value → Except Fault String) : Token → Except Fault String
  | .name s => .ok s
  | .sym y => .ok y.text
  | .val v => value v
  | .func (.mk params _ source) => do
    let body ← Token.printAll value source
    return "function (" ++ ", ".intercalate params ++ ") \x7b " ++ " ".intercalate body ++ " \x7d"
  | .row ts => do
    let shown ← Token.printAll value ts
    return "[" ++ ", ".intercalate shown ++ "]"

/-- The printed forms of tokens, in order. -/
def Token.printAll (value : Value → Except Fault String) : List Token → Except Fault (List String)
  | [] => .ok []
  | t :: ts => do
    let s ← Token.print value t
    return s :: (← Token.printAll value ts)

end

/-- A token as an excerpt shows it: the mark of a scope's start is left blank. -/
def Token.printInExcerpt (value : Value → Except Fault String) (t : Token) : Except Fault String :=
  if t.reads "var?" then .ok "" else t.print value

/-- The first twenty tokens of a list, as errors show them. -/
def excerpt (value : Value → Except Fault String) (ts : List Token) : Except Fault String := do
  let shown ← (ts.take 20).mapM (Token.printInExcerpt value)
  return " ... " ++ " ".intercalate shown

end LittleJ
