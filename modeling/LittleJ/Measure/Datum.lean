import LittleJ.Number.Layout
import LittleJ.Text.Quoted

/-!
# Results of a measured function

What a measured function takes and gives is a value of its host: numbers, texts, collections and a
few values of the host's libraries. Each has the name of its type, a printed form that tells it from
values of other types, and a shown form for people.
-/

namespace LittleJ.Measure

/-- A value of the host. -/
inductive Datum
  | none
  | bool (b : Bool)
  | int (n : Int)
  | float (x : Float)
  | complex (re im : Float)
  | str (s : String)
  /-- Bytes, in a block that can be changed or not. -/
  | bytes (mutable : Bool) (bs : List UInt8)
  | list (xs : List Datum)
  | tuple (xs : List Datum)
  | set (xs : List Datum)
  | dict (entries : List (Datum × Datum))
  | date (year month day : Nat)
  | decimal (text : String)
  | fraction (num : Int) (den : Nat)
  | path (text : String)
  /-- A record with named fields. -/
  | record (fields : List (String × Datum))
  /-- A value with nothing in it. -/
  | bare
deriving Repr, Inhabited

namespace Datum

/-- The name of a value's type. -/
def typeName : Datum → String
  | none => "NoneType"
  | bool _ => "bool"
  | int _ => "int"
  | float _ => "float"
  | complex _ _ => "complex"
  | str _ => "str"
  | bytes mutable _ => if mutable then "bytearray" else "bytes"
  | list _ => "list"
  | tuple _ => "tuple"
  | set _ => "set"
  | dict _ => "dict"
  | date _ _ _ => "date"
  | decimal _ => "Decimal"
  | fraction _ _ => "Fraction"
  | path _ => "PurePosixPath"
  | record _ => "Data"
  | bare => "object"

/-- A part of a complex number: a whole number has no point. -/
def partText (x : Float) : String :=
  let s := Number.listed x
  if s.endsWith ".0" then (s.dropEnd 2).toString else s

/-- A complex number. A real part of zero is left out. -/
def complexText (re im : Float) : String :=
  if re == 0.0 && !Number.isNegative re then partText im ++ "j"
  else
    let sign := if Number.isNegative im then "" else "+"
    "(" ++ partText re ++ sign ++ partText im ++ "j)"

/-- How a byte is shown between quotes `q`. -/
def shownByte (q : Char) (b : UInt8) : List Char :=
  let c := Char.ofNat b.toNat
  if b.toNat < 127 then Text.shownIn q c
  else ['\\', 'x', Text.hexDigit (b.toNat / 16), Text.hexDigit (b.toNat % 16)]

/-- Bytes between quotes. -/
def bytesText (bs : List UInt8) : String :=
  let q := if bs.contains 39 && !bs.contains 34 then '"' else '\x27'
  String.ofList ('b' :: q :: bs.flatMap (shownByte q) ++ [q])

/-- A numeral of at least `width` digits. -/
def padText (width n : Nat) : String :=
  String.ofList (Number.padded width n)

/-- A number in decimal. -/
def natText (n : Nat) : String :=
  Number.integerText n

mutual

/-- The printed form of a value. -/
def print : Datum → String
  | none => "None"
  | bool b => if b then "True" else "False"
  | int n => Number.integerText n
  | float x => Number.listed x
  | complex re im => complexText re im
  | str s => Text.quoted s
  | bytes mutable bs => if mutable then "bytearray(" ++ bytesText bs ++ ")" else bytesText bs
  | list xs => "[" ++ ", ".intercalate (printAll xs) ++ "]"
  | tuple [x] => "(" ++ print x ++ ",)"
  | tuple xs => "(" ++ ", ".intercalate (printAll xs) ++ ")"
  | set [] => "set()"
  | set xs => "\x7b" ++ ", ".intercalate (printAll xs) ++ "\x7d"
  | dict es => "\x7b" ++ ", ".intercalate (printEntries es) ++ "\x7d"
  | date y m d => "datetime.date(" ++ natText y ++ ", " ++ natText m ++ ", " ++ natText d ++ ")"
  | decimal s => "Decimal(" ++ Text.quoted s ++ ")"
  | fraction n d => "Fraction(" ++ Number.integerText n ++ ", " ++ natText d ++ ")"
  | path s => "PurePosixPath(" ++ Text.quoted s ++ ")"
  | record fs => "Data(" ++ ", ".intercalate (printFields fs) ++ ")"
  | bare => "<object object>"

/-- The printed forms of values, in order. -/
def printAll : List Datum → List String
  | [] => []
  | x :: xs => print x :: printAll xs

/-- The printed forms of entries, in order. -/
def printEntries : List (Datum × Datum) → List String
  | [] => []
  | (k, v) :: es => (print k ++ ": " ++ print v) :: printEntries es

/-- The printed forms of fields, in order. -/
def printFields : List (String × Datum) → List String
  | [] => []
  | (k, v) :: fs => (k ++ "=" ++ print v) :: printFields fs

end

/-- The form of a value for people: texts and library values as they are, all else as printed. -/
def shown : Datum → String
  | str s => s
  | date y m d => padText 4 y ++ "-" ++ padText 2 m ++ "-" ++ padText 2 d
  | decimal s => s
  | fraction n d =>
    if d == 1 then Number.integerText n else Number.integerText n ++ "/" ++ natText d
  | path s => s
  | v => print v

end Datum

end LittleJ.Measure
