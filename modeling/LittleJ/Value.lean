/-!
# Values

What an expression of the language can come to. Null, booleans, numbers and strings are plain;
arrays, objects and functions are references into a store, so two names can hold the same one and
a change through either is seen through both. Natives are functions the language does not define
itself.
-/

namespace LittleJ

/-- The functions of the built-in `math` object. -/
inductive MathFunction
  | abs
  | acos
  | asin
  | atan
  | atan2
  | ceil
  | cos
  | exp
  | floor
  | log
  | max
  | min
  | pow
  | random
  | round
  | sin
  | sqrt
  | tan
deriving DecidableEq, Repr, Inhabited

/-- How many arguments a function of `math` takes. The extremes take one array. -/
def MathFunction.arity : MathFunction → Nat
  | random => 0
  | atan2 | pow => 2
  | _ => 1

/-- Functions a host may lend to an interpreter beside the built-in ones. -/
inductive Guest
  /-- Gives its argument back. -/
  | identity
  /-- Makes an array of its two arguments. -/
  | pair
  /-- Gives the number seven. -/
  | seven
  /-- Gives a host integer, which is no value of the language. -/
  | integer
  /-- Gives the function `identity`. -/
  | lender
deriving DecidableEq, Repr, Inhabited

/-- A function that is not written in the language. -/
inductive Native
  | str
  | print
  | type
  | len
  | keys
  | del
  | append
  | assert
  | ord
  | chr
  | math (f : MathFunction)
  | guest (g : Guest)
deriving DecidableEq, Repr, Inhabited

/-- How many arguments a native takes. -/
def Native.arity : Native → Nat
  | str | print | type | len | keys | ord | chr => 1
  | del | append | assert => 2
  | math f => f.arity
  | guest .identity => 1
  | guest .pair => 2
  | guest .seven | guest .integer | guest .lender => 0

/-- A value. References are positions in the store's tables. -/
inductive Value
  | null
  | bool (b : Bool)
  | num (x : Float)
  | str (s : String)
  | arr (r : Nat)
  | obj (r : Nat)
  | fn (r : Nat)
  | native (n : Native)
  /-- A host integer. The language can hold one and can do nothing with it. -/
  | foreign (n : Int)
deriving DecidableEq, Repr, Inhabited

namespace Value

/-- Whether a value belongs to the language. -/
def isProper : Value → Bool
  | foreign _ => false
  | _ => true

/-- Whether a value can be called. -/
def isCallable : Value → Bool
  | fn _ | native _ => true
  | _ => false

/-- Whether square brackets after a value select a part of it. -/
def isIndexable : Value → Bool
  | str _ | arr _ | obj _ => true
  | _ => false

/-- Whether a value counts as true: all but `false`, zero, the empty string and null do. A host
integer has no truth. -/
def truth? : Value → Option Bool
  | null => some false
  | bool b => some b
  | num x => some !(x == 0.0)
  | str s => some !s.isEmpty
  | arr _ | obj _ | fn _ | native _ => some true
  | foreign _ => none

/-- Whether two values are identical. Plain values are compared by content, references by place,
and values of different kinds are never identical. Two host integers cannot be compared. -/
def identical? : Value → Value → Option Bool
  | null, null => some true
  | bool a, bool b => some (a == b)
  | num x, num y => some (x == y)
  | str s, str t => some (s == t)
  | arr r, arr s => some (r == s)
  | obj r, obj s => some (r == s)
  | fn r, fn s => some (r == s)
  | native m, native n => some (m == n)
  | foreign _, foreign _ => none
  | _, _ => some false

end Value

end LittleJ
