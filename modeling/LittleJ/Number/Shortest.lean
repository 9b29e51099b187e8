import LittleJ.Number.Binary

/-!
# The shortest decimal of a double

Many decimals lie nearer to a given double than to any other. `shortest` finds, among those with the
fewest digits, the one nearest to the double. The search runs over grids: with `n` digits the
candidates are the two neighbours of the double on the grid of its first `n` decimal places, and
`n` grows until one of them reads back. Seventeen digits always do.
-/

namespace LittleJ.Number

/-- A positive decimal `digits · 10 ^ exponent`. -/
structure Decimal where
  digits : Nat
  exponent : Int
deriving DecidableEq, Repr

/-- The number of decimal digits of a natural number. -/
def digitCount (n : Nat) : Nat :=
  (Nat.toDigits 10 n).length

/-- The same decimal without zeros at the end of its digits. At most `fuel` zeros are dropped. -/
def Decimal.trim : Nat → Decimal → Decimal
  | 0, d => d
  | fuel + 1, d =>
    if d.digits != 0 && d.digits % 10 == 0 then trim fuel ⟨d.digits / 10, d.exponent + 1⟩ else d

/-- The power of ten at or below the positive fraction `num / den`, as an exponent. -/
def decimalExponent (num den : Nat) : Int :=
  if den ≤ num then (digitCount (num / den) : Int) - 1
  else
    let k := digitCount den - digitCount num
    if den ≤ num * Nat.pow 10 k then -(k : Int) else -(k : Int) - 1

/-- The reals that round to a positive double `m · 2 ^ q`, all over one denominator: the double
itself, the lower end and the upper end. -/
structure Interval where
  value : Nat
  low : Nat
  high : Nat
  den : Nat
  /-- Whether the two ends belong to it. -/
  closed : Bool

/-- The interval of `m · 2 ^ q`. Below a power of two the neighbour is half as far. -/
def Interval.ofParts (m : Nat) (q : Int) : Interval :=
  let narrow := m == Nat.pow 2 52 && q != -1074
  let low := if narrow then 4 * m - 1 else 4 * m - 2
  let scale := Nat.pow 2 q.natAbs
  if q < 0 then ⟨4 * m, low, 4 * m + 2, 4 * scale, m % 2 == 0⟩
  else ⟨4 * m * scale, low * scale, (4 * m + 2) * scale, 4, m % 2 == 0⟩

/-- Whether `n` units of `unit / den` lie in the interval. -/
def Interval.holds (i : Interval) (n unit : Nat) : Bool :=
  if i.closed then i.low ≤ n * unit && n * unit ≤ i.high
  else i.low < n * unit && n * unit < i.high

/-- The nearer of the double's two neighbours on the grid of `10 ^ t` that reads back, if one
does. A double in the middle goes to the even neighbour. -/
def Interval.nearest? (i : Interval) (t : Int) : Option Nat :=
  let scale := Nat.pow 10 t.natAbs
  let j : Interval :=
    if t < 0 then ⟨i.value * scale, i.low * scale, i.high * scale, i.den, i.closed⟩
    else ⟨i.value, i.low, i.high, i.den * scale, i.closed⟩
  let down := j.value / j.den
  let left := j.value - down * j.den
  let right := j.den - left
  match j.holds down j.den, j.holds (down + 1) j.den with
  | true, true =>
    if left < right || (left == right && down % 2 == 0) then some down else some (down + 1)
  | true, false => some down
  | false, true => some (down + 1)
  | false, false => none

/-- Tries `n` digits, then more, at most `fuel` times. -/
def Interval.search (i : Interval) (top : Int) : Nat → Nat → Decimal
  | 0, _ => ⟨i.value / i.den, 0⟩
  | fuel + 1, n =>
    let t := top - (n : Int) + 1
    match i.nearest? t with
    | some d => Decimal.trim 400 ⟨d, t⟩
    | none => i.search top fuel (n + 1)

/-- The shortest decimal that reads back as the positive double `m · 2 ^ q`. -/
def shortest (m : Nat) (q : Int) : Decimal :=
  let i := Interval.ofParts m q
  i.search (decimalExponent i.value i.den) 17 1

end LittleJ.Number
