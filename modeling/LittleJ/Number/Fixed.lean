import LittleJ.Number.Layout
import LittleJ.Number.Numeral

/-!
# Rounding to decimal places

A number is rounded to a power of ten by its exact value, and a value in the middle goes to the even
neighbour. So `2.25` has the one place `2.2`, and `87.5` the whole number `88`.
-/

namespace LittleJ.Number

/-- The whole number nearest to `num / den`. A half goes to the even neighbour. -/
def nearestWhole (num den : Nat) : Nat :=
  let down := num / den
  let left := num % den
  if 2 * left < den || (2 * left == den && down % 2 == 0) then down else down + 1

/-- The number `m · 2 ^ q` in units of `10 ^ -places`. -/
def unitsOf (m : Nat) (q places : Int) : Nat :=
  nearestWhole (m * Nat.pow 2 q.toNat * Nat.pow 10 places.toNat)
    (Nat.pow 2 (-q).toNat * Nat.pow 10 (-places).toNat)

/-- The text of `units` of `10 ^ -places`, with a point if there are places. -/
def placed (units places : Nat) : List Char :=
  let ds := padded (places + 1) units
  if places == 0 then ds else ds.take (ds.length - places) ++ '.' :: ds.drop (ds.length - places)

/-- A number written with a fixed number of places. -/
def fixed (places : Nat) (x : Float) : String :=
  match parts x with
  | .nan => "nan"
  | .infinite negative => if negative then "-inf" else "inf"
  | .finite negative m q =>
    let body := placed (unitsOf m q places) places
    String.ofList (if negative then '-' :: body else body)

/-- The double nearest to a number rounded to `places`, which may be negative. -/
def rounded (places : Int) (x : Float) : Float :=
  match parts x with
  | .finite negative m q =>
    let y := ofDecimal (unitsOf m q places) (-places)
    if negative then -y else y
  | _ => x

/-- The double nearest to a number rounded to `digits` significant digits. -/
def significant (digits : Nat) (x : Float) : Float :=
  match parts x with
  | .finite _ m q =>
    if m == 0 then x
    else
      let top := decimalExponent (m * Nat.pow 2 q.toNat) (Nat.pow 2 (-q).toNat)
      rounded ((digits : Int) - 1 - top) x
  | _ => x

end LittleJ.Number
