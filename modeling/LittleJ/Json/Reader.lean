import LittleJ.Json
import LittleJ.Number.Layout
import LittleJ.Number.Numeral

/-!
# Reading JSON

The reader takes a list of characters from the left. What it cannot read is a flaw: what was
expected, and how many characters were left there. Of two members with one key the later value
counts, in the place of the earlier.
-/

namespace LittleJ.Json

/-- What is wrong with a text. -/
inductive Cause
  | value
  | propertyName
  | colon
  | comma
  | openString
  | control
  | escape
  | unitEscape
  | extra
deriving DecidableEq, Repr

/-- What is wrong, and how much of the text is left there. -/
structure Flaw where
  cause : Cause
  left : Nat
deriving DecidableEq, Repr

/-- The wording of a cause. -/
def Cause.wording : Cause → String
  | value => "Expecting value"
  | propertyName => "Expecting property name enclosed in double quotes"
  | colon => "Expecting ':' delimiter"
  | comma => "Expecting ',' delimiter"
  | openString => "Unterminated string starting at"
  | control => "Invalid control character at"
  | escape => "Invalid \\escape"
  | unitEscape => "Invalid \\uXXXX escape"
  | extra => "Extra data"

/-- The message for a flaw in a text: the cause, and its place by line and column. -/
def Flaw.message (text : List Char) (f : Flaw) : String :=
  let place := text.length - f.left
  let before := text.take place
  let line := before.count '\n' + 1
  let column := (before.reverse.takeWhile (· != '\n')).length + 1
  f.cause.wording ++ ": line " ++ Number.integerText line ++ " column " ++
    Number.integerText column ++ " (char " ++ Number.integerText place ++ ")"

/-- Whether a character may stand between tokens. -/
def isGap (c : Char) : Bool :=
  c == ' ' || c == '\t' || c == '\n' || c == '\r'

/-- The text behind its leading gap. -/
def skipGap (cs : List Char) : List Char :=
  cs.dropWhile isGap

/-- The value of a hexadecimal digit. -/
def hexValue? (c : Char) : Option Nat :=
  if '0' ≤ c && c ≤ '9' then some (c.toNat - '0'.toNat)
  else if 'a' ≤ c && c ≤ 'f' then some (c.toNat - 'a'.toNat + 10)
  else if 'A' ≤ c && c ≤ 'F' then some (c.toNat - 'A'.toNat + 10)
  else none

/-- The value of four hexadecimal digits. -/
def unit? (a b c d : Char) : Option Nat := do
  return 4096 * (← hexValue? a) + 256 * (← hexValue? b) + 16 * (← hexValue? c) + (← hexValue? d)

/-- The character of a short escape. -/
def shortEscape? (c : Char) : Option Char :=
  match c with
  | '"' => some '"'
  | '\\' => some '\\'
  | '/' => some '/'
  | 'b' => some '\x08'
  | 'f' => some '\x0c'
  | 'n' => some '\n'
  | 'r' => some '\r'
  | 't' => some '\t'
  | _ => none

/-- A character by its number. A unit that is half of a pair stands for nothing and is replaced. -/
def charOf (n : Nat) : Char :=
  if n.isValidChar then Char.ofNat n else '\uFFFD'

/-- The characters of code units: a high unit and a low one behind it are one character. -/
def joinUnits : List Nat → List Char
  | [] => []
  | [n] => [charOf n]
  | n :: m :: rest =>
    if 0xD800 ≤ n && n < 0xDC00 && 0xDC00 ≤ m && m < 0xE000 then
      charOf (0x10000 + 1024 * (n - 0xD800) + (m - 0xDC00)) :: joinUnits rest
    else charOf n :: joinUnits (m :: rest)

/-- The rest of a string behind its opening quote, at which `start` characters were left: its code
units, and the text behind the closing quote. -/
def readUnits (start : Nat) : List Char → Except Flaw (List Nat × List Char)
  | [] => .error ⟨.openString, start⟩
  | '"' :: rest => .ok ([], rest)
  | '\\' :: 'u' :: a :: b :: c :: d :: rest =>
    match unit? a b c d with
    | some n => do
      let (ns, after) ← readUnits start rest
      return (n :: ns, after)
    | none => .error ⟨.unitEscape, rest.length + 5⟩
  | '\\' :: c :: rest =>
    match shortEscape? c with
    | some e => do
      let (ns, after) ← readUnits start rest
      return (e.toNat :: ns, after)
    | none =>
      if c == 'u' then .error ⟨.unitEscape, rest.length + 1⟩ else .error ⟨.escape, rest.length + 2⟩
  | ['\\'] => .error ⟨.openString, start⟩
  | c :: rest =>
    if c.toNat < 32 then .error ⟨.control, rest.length + 1⟩
    else do
      let (ns, after) ← readUnits start rest
      return (c.toNat :: ns, after)

/-- A string behind its opening quote, and the text behind it. -/
def readString (start : Nat) (cs : List Char) : Except Flaw (String × List Char) := do
  let (ns, after) ← readUnits start cs
  return (String.ofList (joinUnits ns), after)

/-- The digits of a whole number: a zero stands alone. -/
def wholeDigits : List Char → List Char
  | '0' :: _ => ['0']
  | cs => cs.takeWhile Text.isDigit

/-- A point and the digits behind it, if both are there. -/
def fractionDigits : List Char → List Char
  | '.' :: cs => if Number.isDigit? cs.head? then '.' :: cs.takeWhile Text.isDigit else []
  | _ => []

/-- The sign of an exponent, if there is one. -/
def exponentSign : List Char → List Char
  | '+' :: _ => ['+']
  | '-' :: _ => ['-']
  | _ => []

/-- An exponent, if one is there. -/
def exponentDigits : List Char → List Char
  | c :: cs =>
    let sign := exponentSign cs
    let digits := (cs.drop sign.length).takeWhile Text.isDigit
    if (c == 'e' || c == 'E') && !digits.isEmpty then c :: sign ++ digits else []
  | [] => []

/-- A number without its sign, and the text behind it. It is an integer if it has neither a fraction
nor an exponent. -/
def readNumber? (negative : Bool) (cs : List Char) : Option (Json × List Char) :=
  let whole := wholeDigits cs
  if whole.isEmpty then none
  else
    let rest := cs.drop whole.length
    let fraction := fractionDigits rest
    let rest := rest.drop fraction.length
    let exponent := exponentDigits rest
    let rest := rest.drop exponent.length
    if fraction.isEmpty && exponent.isEmpty then
      let n : Int := Number.valueOf whole
      some (.int (if negative then -n else n), rest)
    else do
      let x ← Number.unsigned? (whole ++ fraction ++ exponent)
      some (.float (if negative then -x else x), rest)

/-- A value that is one word or one number. -/
def readScalar? : List Char → Option (Json × List Char)
  | 'n' :: 'u' :: 'l' :: 'l' :: rest => some (.null, rest)
  | 't' :: 'r' :: 'u' :: 'e' :: rest => some (.bool true, rest)
  | 'f' :: 'a' :: 'l' :: 's' :: 'e' :: rest => some (.bool false, rest)
  | 'N' :: 'a' :: 'N' :: rest => some (.float (0.0 / 0.0), rest)
  | 'I' :: 'n' :: 'f' :: 'i' :: 'n' :: 'i' :: 't' :: 'y' :: rest => some (.float (1.0 / 0.0), rest)
  | '-' :: 'I' :: 'n' :: 'f' :: 'i' :: 'n' :: 'i' :: 't' :: 'y' :: rest =>
    some (.float (-1.0 / 0.0), rest)
  | '-' :: rest => readNumber? true rest
  | cs => readNumber? false cs

mutual

/-- A value at the start of a text, and the text behind it. -/
def readValue : Nat → List Char → Except Flaw (Json × List Char)
  | 0, cs => .error ⟨.value, cs.length⟩
  | fuel + 1, cs =>
    match cs with
    | '"' :: rest => do
      let (s, after) ← readString cs.length rest
      return (.str s, after)
    | '[' :: rest =>
      match skipGap rest with
      | ']' :: after => .ok (.arr [], after)
      | body => do
        let (xs, after) ← readItems fuel body
        return (.arr xs, after)
    | '\x7b' :: rest =>
      match skipGap rest with
      | '\x7d' :: after => .ok (.obj [], after)
      | body => do
        let (ms, after) ← readMembers fuel [] body
        return (.obj ms, after)
    | _ =>
      match readScalar? cs with
      | some r => .ok r
      | none => .error ⟨.value, cs.length⟩

/-- Items up to the closing bracket, and the text behind it. -/
def readItems : Nat → List Char → Except Flaw (List Json × List Char)
  | 0, cs => .error ⟨.value, cs.length⟩
  | fuel + 1, cs => do
    let (x, after) ← readValue fuel cs
    match skipGap after with
    | ']' :: rest => return ([x], rest)
    | ',' :: rest =>
      let (xs, rest) ← readItems fuel (skipGap rest)
      return (x :: xs, rest)
    | rest => .error ⟨.comma, rest.length⟩

/-- Members up to the closing brace, set one after the other, and the text behind it. -/
def readMembers : Nat → List (String × Json) → List Char →
    Except Flaw (List (String × Json) × List Char)
  | 0, _, cs => .error ⟨.value, cs.length⟩
  | fuel + 1, ms, cs =>
    match cs with
    | '"' :: rest => do
      let (key, after) ← readString cs.length rest
      match skipGap after with
      | ':' :: rest =>
        let (v, after) ← readValue fuel (skipGap rest)
        let ms := setMember key v ms
        match skipGap after with
        | '\x7d' :: rest => return (ms, rest)
        | ',' :: rest => readMembers fuel ms (skipGap rest)
        | rest => .error ⟨.comma, rest.length⟩
      | rest => .error ⟨.colon, rest.length⟩
    | _ => .error ⟨.propertyName, cs.length⟩

end

/-- The value that a list of characters stands for. The fuel exceeds twice the length, and of three
nested calls at least one takes a character. -/
def readChars (cs : List Char) : Except Flaw Json := do
  let (v, after) ← readValue (3 * cs.length + 3) (skipGap cs)
  match skipGap after with
  | [] => return v
  | rest => .error ⟨.extra, rest.length⟩

/-- The value that a text stands for. -/
def read (s : String) : Except Flaw Json :=
  readChars s.toList

end LittleJ.Json
