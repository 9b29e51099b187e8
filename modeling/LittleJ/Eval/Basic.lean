import LittleJ.Bracket
import LittleJ.Store.Printer
import LittleJ.Store.Scopes

/-!
# Computations

A computation works on the store and either gives a result or stops. Whatever happens, the store as
it then is stays: an error undoes nothing that was written or changed before it.

There are four ways to stop. A failure ends the program. A `return` and a `break` travel outwards to
the call or loop that takes them. And a computation may use up its budget; that is kept apart from
failures, for a larger budget could have gone on.
-/

namespace LittleJ

/-- Why a computation stops before its end. -/
inductive Stop
  | failure (f : Failure)
  | ret (v : Value)
  | brk
  /-- The budget of nested evaluations or of rounds of a loop is used up. -/
  | exhausted
deriving DecidableEq, Repr, Inhabited

/-- A computation on the store. -/
abbrev Eval := EStateM Stop Store

namespace Eval

variable {α : Type}

/-- Stops with an error. -/
def raise (e : Error) : Eval α :=
  throw (.failure (.error e))

/-- Stops with a fault. -/
def breakdown (f : Fault) : Eval α :=
  throw (.failure (.fault f))

/-- Goes on with a result, or stops with the error. -/
def ofError : Except Error α → Eval α
  | .ok a => pure a
  | .error e => raise e

/-- Goes on with a result, or stops with the fault. -/
def ofFault : Except Fault α → Eval α
  | .ok a => pure a
  | .error f => breakdown f

/-- Goes on with a result, or stops with the failure. -/
def ofFailure : Except Failure α → Eval α
  | .ok a => pure a
  | .error f => throw (.failure f)

/-- Puts something new into the store. -/
def make (f : Store → Nat × Store) : Eval Nat :=
  modifyGet f

/-- Stops with an error that shows an excerpt of tokens. -/
def raiseAt (e : String → Error) (ts : List Token) : Eval α := do
  let σ ← get
  let s ← ofFault (σ.excerpt ts)
  raise (e s)

/-- The position of the bracket that closes the first token. -/
def partner (ts : List Token) : Eval Nat :=
  match Bracket.partner? ts with
  | some k => pure k
  | none => raiseAt .unclosed ts

/-- The parts of a list between its commas at the top level. -/
def commaParts (ts : List Token) : Eval (List (List Token)) :=
  match TopLevel.split (·.is .comma) ts with
  | .ok parts => pure parts
  | .error rest => raiseAt .unclosed rest

/-- The tokens strictly between the first one and position `k`. -/
def inside (k : Nat) (ts : List Token) : List Token :=
  (ts.take k).drop 1

/-- Whether a value counts as true. -/
def truth (v : Value) : Eval Bool :=
  match v.truth? with
  | some b => pure b
  | none => breakdown .broken

/-- The position in a list of `length` elements that a number means when an element is set: the
fraction is dropped, and negative numbers count from the end. -/
def settingPosition (length : Nat) (x : Float) : Eval Nat :=
  match Number.toInt? x with
  | none => breakdown (if x.isNaN then .badOperand else .overflow)
  | some i =>
    match Bracket.position? length i with
    | some k => pure k
    | none => breakdown .position

end Eval

/-- The position of the first token at the top level that `sep` is, from position `i` on. A bracket
cannot be searched for, and only a symbol can be named in the report. -/
def TopLevel.indexAt (ts : List Token) (i : Int) (sep : Token) : Eval Int := do
  if Bracket.opens sep then Eval.breakdown (.internal "")
  let isSep (t : Token) : Bool :=
    match sep, t with
    | .sym y, t => t.is y
    | .val v, .val w => v == w
    | _, _ => false
  let found :=
    if i < 0 then
      match Bracket.position? ts.length i with
      | none => .ok none
      | some k => TopLevel.index? isSep (ts.drop k ++ ts)
    else TopLevel.index? isSep (ts.drop i.natAbs)
  match found with
  | .error rest => Eval.raiseAt .unclosed rest
  | .ok (some k) => return i + k
  | .ok none =>
    match sep.text? with
    | some s => Eval.raiseAt (.expected s) ts
    | none => Eval.breakdown .wrongKind

end LittleJ
