import LittleJ.Number.Shortest

/-!
# How a number is written

A number has two written forms. In a listing and in a record it is the shortest decimal with a
point: `1.0`, `0.1`, `1e+22`. In the language's own output a whole number has no point and all its
digits: `1`, `10000000000000000000000`; any other number is written as in a listing.
-/

namespace LittleJ.Number

/-- The decisions of a written form that the digits leave open. -/
structure Layout where
  /-- The least power of ten of a number that is written without an exponent. -/
  leastPlain : Int
  /-- The first power of ten of a number that is written with an exponent again. -/
  firstLarge : Int
  /-- The fewest digits of an exponent. -/
  exponentWidth : Nat

/-- Exponents from -4 to 15 are written out; other exponents have a sign and two digits. -/
def layout : Layout :=
  ⟨-4, 16, 2⟩

/-- The decimal digits of a natural number. -/
def digitsOf (n : Nat) : List Char :=
  Nat.toDigits 10 n

/-- Digits with zeros in front up to a width. -/
def padded (width n : Nat) : List Char :=
  let ds := digitsOf n
  List.replicate (width - ds.length) '0' ++ ds

/-- A decimal with a point and at least one digit on either side of it. -/
def plainForm (d : Decimal) : List Char :=
  let ds := digitsOf d.digits
  if 0 ≤ d.exponent then
    ds ++ List.replicate d.exponent.natAbs '0' ++ ['.', '0']
  else
    let places := d.exponent.natAbs
    if places < ds.length then
      ds.take (ds.length - places) ++ '.' :: ds.drop (ds.length - places)
    else '0' :: '.' :: List.replicate (places - ds.length) '0' ++ ds

/-- A decimal with one digit before the point and an exponent. -/
def exponentForm (l : Layout) (d : Decimal) (top : Int) : List Char :=
  let mantissa := match digitsOf d.digits with
    | [] => []
    | [c] => [c]
    | c :: cs => c :: '.' :: cs
  let sign := if top < 0 then '-' else '+'
  mantissa ++ 'e' :: sign :: padded l.exponentWidth top.natAbs

/-- A positive decimal in the form its size asks for. -/
def Decimal.form (l : Layout) (d : Decimal) : List Char :=
  let top := d.exponent + (digitCount d.digits : Int) - 1
  if l.leastPlain ≤ top && top < l.firstLarge then plainForm d else exponentForm l d top

/-- The listed form of a number: the shortest decimal that reads back, always with a point or an
exponent. -/
def listed (x : Float) : String :=
  match parts x with
  | .nan => "nan"
  | .infinite negative => if negative then "-inf" else "inf"
  | .finite negative m q =>
    let body := if m == 0 then ['0', '.', '0'] else (shortest m q).form layout
    String.ofList (if negative then '-' :: body else body)

/-- An integer in decimal. -/
def integerText (n : Int) : String :=
  let body := String.ofList (digitsOf n.natAbs)
  if n < 0 then "-" ++ body else body

/-- The printed form of a number: whole numbers without a point. An infinity has none. -/
def printed? (x : Float) : Option String :=
  if isWhole x then (toInt? x).map integerText else some (listed x)

end LittleJ.Number
