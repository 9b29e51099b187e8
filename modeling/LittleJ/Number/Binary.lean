/-!
# The parts of a double

A finite double is a sign, a whole number and a power of two: `± m · 2 ^ q`. Everything the
library says exactly about a number — whether it is whole, its remainder, its digits — is computed
from these parts in integer arithmetic.
-/

namespace LittleJ.Number

/-- The parts of a double. -/
inductive Parts
  | nan
  | infinite (negative : Bool)
  /-- The number `m · 2 ^ q`, negated if `negative`. -/
  | finite (negative : Bool) (m : Nat) (q : Int)
deriving DecidableEq, Repr

/-- Takes a double apart. -/
def parts (x : Float) : Parts :=
  let bits := x.toBits.toNat
  let negative := bits / Nat.pow 2 63 == 1
  let exponent : Nat := bits / Nat.pow 2 52 % 2048
  let fraction := bits % Nat.pow 2 52
  if exponent == 2047 then
    if fraction == 0 then .infinite negative else .nan
  else if exponent == 0 then .finite negative fraction (-1074)
  else .finite negative (fraction + Nat.pow 2 52) ((exponent : Int) - 1075)

/-- Whether a number equals its rounding. The infinities do, and NaN does not. -/
def isWhole (x : Float) : Bool :=
  match parts x with
  | .nan => false
  | .infinite _ => true
  | .finite _ m q => if q < 0 then m % Nat.pow 2 q.natAbs == 0 else true

/-- The number without its fraction. `none` for NaN and the infinities. -/
def toInt? (x : Float) : Option Int :=
  match parts x with
  | .nan | .infinite _ => none
  | .finite negative m q =>
    let n : Nat := if q < 0 then m / Nat.pow 2 q.natAbs else m * Nat.pow 2 q.natAbs
    some (if negative then -(n : Int) else n)

/-- The double `m · 2 ^ q`, negated if `negative`. The number `m` has at most 53 bits, and `q` is at
least `-1074`. -/
def ofParts (negative : Bool) (m : Nat) (q : Int) : Float :=
  -- a number that has 53 bits is stored without the first one
  let shift := min (52 - m.log2) (q + 1074).toNat
  let m := m * Nat.pow 2 shift
  let bits :=
    if m < Nat.pow 2 52 then m
    else (q - shift + 1075).toNat * Nat.pow 2 52 + (m - Nat.pow 2 52)
  Float.ofBits (UInt64.ofNat (if negative then Nat.pow 2 63 + bits else bits))

/-- A number rounded to a whole one, with its sign. `away` says whether to round away from zero,
from the sign and from the fraction, which is given by its numerator and denominator. The infinities
and NaN stay as they are. -/
def roundBy (away : Bool → Nat → Nat → Bool) (x : Float) : Float :=
  match parts x with
  | .nan | .infinite _ => x
  | .finite negative m q =>
    if 0 ≤ q then x
    else
      let d := Nat.pow 2 q.natAbs
      let y := Float.ofNat (if away negative (m % d) d then m / d + 1 else m / d)
      if negative then -y else y

/-- The least whole number that is not below a number. -/
def ceil (x : Float) : Float :=
  roundBy (fun negative n _ => !negative && n != 0) x

/-- The greatest whole number that is not above a number. -/
def floor (x : Float) : Float :=
  roundBy (fun negative n _ => negative && n != 0) x

/-- The nearest whole number, a half being rounded away from zero. -/
def round (x : Float) : Float :=
  roundBy (fun _ n d => d ≤ 2 * n) x

/-- The remainder of a division that truncates, with the sign of `x`. -/
def truncatedRemainder (x y : Float) : Float :=
  match parts x, parts y with
  | .finite negative m q, .finite _ n r =>
    let base := min q r
    let a := m * Nat.pow 2 (q - base).natAbs
    let b := n * Nat.pow 2 (r - base).natAbs
    ofParts negative (a % b) base
  | .finite _ _ _, .infinite _ => x
  | _, _ => 0.0 / 0.0

/-- Whether the sign of a number is negative, that of zero included. -/
def isNegative (x : Float) : Bool :=
  match parts x with
  | .nan => false
  | .infinite negative => negative
  | .finite negative _ _ => negative

/-- The remainder of a division that rounds down: it has the sign of `y`. -/
def remainder (x y : Float) : Float :=
  let r := truncatedRemainder x y
  if r == 0.0 then
    if isNegative y then -0.0 else 0.0
  else if (y < 0.0) != (r < 0.0) then r + y
  else r

end LittleJ.Number
