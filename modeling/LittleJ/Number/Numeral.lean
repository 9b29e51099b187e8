import LittleJ.Number.Binary
import LittleJ.Text.Bytes

/-!
# Reading a number

A numeral is an optional sign and digits with an optional point and exponent; one underscore may
stand between two digits. The words `inf`, `infinity` and `nan` are numerals in any case. A number
too large is an infinity, and one too small is zero.
-/

namespace LittleJ.Number

/-- Whether a character may surround a numeral. Beside the blanks there are two of the upper
half. -/
def isMargin (c : Char) : Bool :=
  Text.isBlank c || c.toNat == 0x85 || c.toNat == 0xA0

/-- The text without its margins. -/
def stripMargins (cs : List Char) : List Char :=
  ((cs.dropWhile isMargin).reverse.dropWhile isMargin).reverse

/-- Whether a character is there and is a digit. -/
def isDigit? (c : Option Char) : Bool :=
  c.any Text.isDigit

/-- The text without its underscores, each of which must have a digit on both sides. -/
def dropUnderscores? (prev : Option Char) : List Char → Option (List Char)
  | [] => some []
  | c :: cs =>
    if c == '_' then
      if isDigit? prev && isDigit? cs.head? then dropUnderscores? (some c) cs else none
    else (dropUnderscores? (some c) cs).map (c :: ·)

/-- The value of decimal digits. -/
def valueOf (ds : List Char) : Nat :=
  ds.foldl (fun n c => 10 * n + (c.toNat - '0'.toNat)) 0

/-- The double nearest to `n · 10 ^ e`. Beyond four hundred places nothing but the size counts. -/
def ofDecimal (n : Nat) (e : Int) : Float :=
  if n == 0 then 0.0
  else
    let top := e + (Nat.toDigits 10 n).length
    if 400 < top then 1.0 / 0.0
    else if top < -400 then 0.0
    else if e < 0 then Float.ofScientific n true e.natAbs
    else Float.ofScientific n false e.natAbs

/-- An exponent after its letter: a sign if there is one, and digits to the end. -/
def exponent? (cs : List Char) : Option Int :=
  let (negative, ds) := match cs with
    | '-' :: r => (true, r)
    | '+' :: r => (false, r)
    | r => (false, r)
  if ds.isEmpty || !ds.all Text.isDigit then none
  else
    let n : Int := valueOf ds
    some (if negative then -n else n)

/-- Digits, perhaps a point and more digits, perhaps an exponent. -/
def unsigned? (cs : List Char) : Option Float := do
  let whole := cs.takeWhile Text.isDigit
  let rest := cs.dropWhile Text.isDigit
  let (places, rest) := match rest with
    | '.' :: r => (r.takeWhile Text.isDigit, r.dropWhile Text.isDigit)
    | r => ([], r)
  if whole.isEmpty && places.isEmpty then none
  else
    let n := valueOf (whole ++ places)
    match rest with
    | [] => some (ofDecimal n (-(places.length : Int)))
    | c :: r =>
      if c == 'e' || c == 'E' then do
        let e ← exponent? r
        some (ofDecimal n (e - places.length))
      else none

/-- A numeral without its sign. -/
def magnitude? (cs : List Char) : Option Float :=
  let word := String.ofList (cs.map Char.toLower)
  if word == "inf" || word == "infinity" then some (1.0 / 0.0)
  else if word == "nan" then some (0.0 / 0.0)
  else unsigned? cs

/-- The number a text stands for, if it is a numeral. -/
def read? (s : String) : Option Float := do
  let cs ← dropUnderscores? none (stripMargins s.toList)
  match cs with
  | '-' :: r => (magnitude? r).map (-·)
  | '+' :: r => magnitude? r
  | r => magnitude? r

/-- Whether a numeral is written in base ten as far as its first characters show: a leading zero
is alone, or before a point or an exponent. -/
def isDecimalText (s : String) : Bool :=
  match s.toList with
  | ['0'] => true
  | '0' :: c :: _ => c == 'e' || c == 'E' || c == '.'
  | _ => true

end LittleJ.Number
