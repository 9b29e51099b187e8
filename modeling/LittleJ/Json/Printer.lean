import LittleJ.Json
import LittleJ.Number.Layout
import LittleJ.Text.Quoted

/-!
# Writing JSON

A value is written on one line, with a blank behind every comma and colon, and in ASCII: any other
character is escaped by its code units.
-/

namespace LittleJ.Json

/-- A code unit as an escape of four digits. -/
def unitEscape (n : Nat) : List Char :=
  ['\\', 'u', Text.hexDigit (n / 4096 % 16), Text.hexDigit (n / 256 % 16),
    Text.hexDigit (n / 16 % 16), Text.hexDigit (n % 16)]

/-- The escape of a character that has no short one. Beyond the first plane it takes two units. -/
def longEscape (c : Char) : List Char :=
  let n := c.toNat
  if n < 0x10000 then unitEscape n
  else unitEscape (0xD800 + (n - 0x10000) / 1024) ++ unitEscape (0xDC00 + (n - 0x10000) % 1024)

/-- How a character is written inside a string. -/
def escaped (c : Char) : List Char :=
  if c == '"' then ['\\', '"']
  else if c == '\\' then ['\\', '\\']
  else if c == '\n' then ['\\', 'n']
  else if c == '\r' then ['\\', 'r']
  else if c == '\t' then ['\\', 't']
  else if c == '\x08' then ['\\', 'b']
  else if c == '\x0c' then ['\\', 'f']
  else if ' ' ≤ c && c ≤ '~' then [c]
  else longEscape c

/-- A text between double quotes. -/
def quoteText (s : String) : String :=
  String.ofList ('"' :: s.toList.flatMap escaped ++ ['"'])

/-- A number that is no integer. -/
def floatText (x : Float) : String :=
  match Number.parts x with
  | .nan => "NaN"
  | .infinite negative => if negative then "-Infinity" else "Infinity"
  | .finite _ _ _ => Number.listed x

mutual

/-- The text of a value. -/
def render : Json → String
  | null => "null"
  | bool b => if b then "true" else "false"
  | int n => Number.integerText n
  | float x => floatText x
  | str s => quoteText s
  | arr xs => "[" ++ ", ".intercalate (renderItems xs) ++ "]"
  | obj ms => "\x7b" ++ ", ".intercalate (renderMembers ms) ++ "\x7d"

/-- The texts of items, in order. -/
def renderItems : List Json → List String
  | [] => []
  | x :: xs => render x :: renderItems xs

/-- The texts of members, in order. -/
def renderMembers : List (String × Json) → List String
  | [] => []
  | (k, v) :: ms => (quoteText k ++ ": " ++ render v) :: renderMembers ms

end

end LittleJ.Json
