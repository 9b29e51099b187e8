import LittleJ.Eval.Math
import LittleJ.Program.Listing

/-!
# Built-in functions

The functions every interpreter starts with, beside those of `math`, and the few that a host may
lend it. Their arguments have been counted before they are called.
-/

namespace LittleJ.Native

/-- The word for the kind of a value. -/
def typeName : Value → Except Fault String
  | .null => .ok "null"
  | .bool _ => .ok "boolean"
  | .num _ => .ok "number"
  | .str _ => .ok "string"
  | .arr _ => .ok "array"
  | .obj _ => .ok "object"
  | .fn _ | .native _ => .ok "function"
  | .foreign _ => .error .absentEntry

/-- A value in a listing, functions in full. -/
def listing (σ : Store) : Value → String
  | .fn r => Listing.function (σ.closure r).function
  | v => Listing.value v

/-- A count as a number, if it is not too large for one. -/
def count (n : Nat) : Except Fault Float :=
  let x := Float.ofNat n
  if Math.isFinite x then .ok x else .error .overflow

/-- The number of characters, elements or properties. -/
def length (v : Value) : Eval Value := do
  let σ ← get
  match v with
  | .str s => return .num (← Eval.ofFault (count s.length))
  | .arr r => return .num (← Eval.ofFault (count (σ.array r).size))
  | .obj r => return .num (← Eval.ofFault (count (σ.object r).length))
  | v =>
    let t ← Eval.ofFault (typeName v)
    Eval.raise (.noLength t (listing σ v))

/-- The keys of an object, as a new array. -/
def keyArray (v : Value) : Eval Value := do
  match v with
  | .obj r =>
    let keys := (← get).object r |>.keys
    return .arr (← Eval.make (·.newArray (keys.map Value.str).toArray))
  | v => Eval.raise (.noKeys (← Eval.ofFault (typeName v)))

/-- Whether a number is the position of an element. -/
def isPosition (length : Nat) (x : Float) : Bool :=
  Number.isWhole x && 0.0 ≤ x && x < Float.ofNat length

/-- Takes a property out of an object, or an element out of an array. -/
def delete (v key : Value) : Eval Value := do
  match v, key with
  | .obj r, .str k =>
    if ((← get).object r).has k then
      modify (·.modifyObject r (·.erase k))
      return .bool true
    else Eval.raise .deleteKey
  | .arr r, .num x =>
    if isPosition ((← get).array r).size x then
      modify (·.modifyArray r (·.eraseIdxIfInBounds ((Number.toInt? x).getD 0).natAbs))
      return .bool true
    else Eval.raise .deleteIndex
  | _, _ => Eval.raise .deleteCall

/-- Puts a value at the end of an array and gives its new length. -/
def push (v element : Value) : Eval Value := do
  match v with
  | .arr r =>
    modify (·.modifyArray r (·.push element))
    return .num (← Eval.ofFault (count ((← get).array r).size))
  | _ => Eval.raise .appendCall

/-- Stops with a text unless a value counts as true. -/
def check (v text : Value) : Eval Value := do
  if ← Eval.truth v then return .null
  else Eval.raise (.assertion (← Eval.ofFault ((← get).text text)))

/-- The number of a character. -/
def ordinal : Value → Eval Value
  | .str s =>
    match s.toList with
    | [c] => return .num (Float.ofNat c.toNat)
    | _ => Eval.raise .ordCall
  | _ => Eval.raise .ordCall

/-- The character with a number. -/
def character : Value → Eval Value
  | .num x =>
    if !Number.isWhole x then Eval.raise .chrCall
    else if !(x < 256.0) then Eval.raise .chrRange
    else match Number.toInt? x with
      | none => Eval.breakdown .overflow
      | some n =>
        if n < 0 then Eval.breakdown .badOperand
        else return .str (String.singleton (Char.ofNat n.natAbs))
  | _ => Eval.raise .chrCall

/-- What a native does with the right number of arguments. -/
def perform (n : Native) (args : List Value) : Eval Value :=
  match n, args with
  | .str, [v] => do return .str (← Eval.ofFault ((← get).text v))
  | .print, [v] => do
    let s ← Eval.ofFault ((← get).text v)
    modify (·.write (s ++ "\n"))
    return .null
  | .type, [v] => do return .str (← Eval.ofFault (typeName v))
  | .len, [v] => length v
  | .keys, [v] => keyArray v
  | .del, [v, key] => delete v key
  | .append, [v, element] => push v element
  | .assert, [v, text] => check v text
  | .ord, [v] => ordinal v
  | .chr, [v] => character v
  | .math f, args => Math.call f args
  | .guest .identity, [v] => return v
  | .guest .pair, [v, w] => do return .arr (← Eval.make (·.newArray #[v, w]))
  | .guest .seven, _ => return .num 7.0
  | .guest .integer, _ => return .foreign 7
  | .guest .lender, _ => return .native (.guest .identity)
  | _, _ => Eval.raise .nativeArgumentCount

/-- Calls a native. The arguments are counted first, and what it gives must be a value of the
language. -/
def call (n : Native) (args : List Value) : Eval Value := do
  if args.length != n.arity then Eval.raise .nativeArgumentCount
  let v ← n.perform args
  if v.isProper then return v
  else Eval.breakdown (.internal "non-returning native function")

/-- The names of the built-in functions. -/
def builtins : List (String × Native) :=
  [("print", .print), ("len", .len), ("keys", .keys), ("del", .del), ("append", .append),
    ("assert", .assert), ("ord", .ord), ("chr", .chr), ("str", .str), ("type", .type)]

end LittleJ.Native
