import LittleJ.Token.Printer

/-!
# Brackets and the top level

Brackets are matched by text, one kind at a time: the partner of `(` is the first `)` with as many
closing as opening parentheses before it, whatever stands between. A token is at the *top level* of
a list if no bracket pair encloses it, and lists are searched and split there.

Positions count from the start of the list that is searched. A search that meets a bracket without a
partner gives the rest of the list from that bracket on.
-/

namespace LittleJ

namespace Bracket

/-- The closing text for an opening one. -/
def closerOf? : String → Option String
  | "(" => some ")"
  | "[" => some "]"
  | "\x7b" => some "\x7d"
  | _ => none

/-- The opening text for a closing one. -/
def openerOf? : String → Option String
  | ")" => some "("
  | "]" => some "["
  | "\x7d" => some "\x7b"
  | _ => none

/-- Whether a token is an opening bracket by its text. -/
def opens (t : Token) : Bool :=
  t.reads "(" || t.reads "\x7b" || t.reads "["

/-- The first position up to which `left` and `right` occur equally often, `depth` occurrences of
`left` being open at the start. -/
def balanceFrom (left right : String) : Nat → List Token → Option Nat
  | _, [] => none
  | depth, t :: ts =>
    let depth :=
      if t.reads left then depth + 1 else if t.reads right then depth - 1 else depth
    if depth == 0 then some 0 else (balanceFrom left right depth ts).map (· + 1)

/-- The position of the bracket that closes the first token of a list. `none` if the token opens
nothing or is not closed. -/
def partner? : List Token → Option Nat
  | [] => none
  | t :: ts =>
    match t.text? with
    | none => none
    | some left =>
      match closerOf? left with
      | none => none
      | some right => balanceFrom left right 0 (t :: ts)

/-- The position of the bracket that opens the last token of a list. -/
def opener? (ts : List Token) : Option Nat :=
  match ts.getLast?.bind Token.text? with
  | none => none
  | some right =>
    match openerOf? right with
    | none => none
    | some left => (balanceFrom right left 0 ts.reverse).map (ts.length - 1 - ·)

/-- A position counted from the start, or from the end if negative. -/
def position? (length : Nat) (i : Int) : Option Nat :=
  if 0 ≤ i then
    if i.natAbs < length then some i.natAbs else none
  else if i.natAbs ≤ length then some (length - i.natAbs) else none

/-- The failure for an opening bracket without a partner, shown from the bracket on. -/
def unclosed (value : Value → Except Fault String) (rest : List Token) : Failure :=
  match excerpt value rest with
  | .ok s => .error (.unclosed s)
  | .error f => .fault f

/-- The text of the bracket at a position and of its partner by the table `partnerOf`. -/
def pairAt (partnerOf : String → Option String) (ts : List Token) (i : Int) :
    Except Failure (Nat × String × String) :=
  match position? ts.length i with
  | none => .error (.fault .position)
  | some k =>
    match ts[k]? with
    | some (.val (.arr _)) | some (.val (.obj _)) | some (.row _) => .error (.fault .wrongKind)
    | some t =>
      match t.text? with
      | none => .error (.fault .absentEntry)
      | some s =>
        match partnerOf s with
        | none => .error (.fault .absentEntry)
        | some r => .ok (k, s, r)
    | none => .error (.fault .position)

/-- The position of the bracket that closes the one at `i`. Counted from the end, the search runs
to the end of the list and then through it once more from the start. -/
def closerAt (value : Value → Except Fault String) (ts : List Token) (i : Int) :
    Except Failure Int := do
  let (k, left, right) ← pairAt closerOf? ts i
  let view := if i < 0 then ts.drop k ++ ts else ts.drop k
  match balanceFrom left right 0 view with
  | some j => return i + j
  | none => throw (unclosed value (ts.drop k))

/-- The position of the bracket that opens the one at `i`, which may be counted from the end. -/
def openerAt (ts : List Token) (i : Int) : Except Failure Nat := do
  let i := if i < 0 then (ts.length : Int) + i else i
  let (k, right, left) ← pairAt openerOf? ts i
  if i < 0 then throw (.error (.unopened right))
  match balanceFrom right left 0 (ts.take (k + 1)).reverse with
  | some j => return k - j
  | none => throw (.error (.unopened right))

end Bracket

namespace TopLevel

/-- The position of the first token at the top level with property `p`; `skip` tokens are passed
over first. The token that closes a pair is itself at the top level. -/
def indexFrom (p : Token → Bool) : Nat → List Token → Except (List Token) (Option Nat)
  | _, [] => .ok none
  | skip + 1, _ :: ts => do
    return (← indexFrom p skip ts).map (· + 1)
  | 0, t :: ts =>
    if Bracket.opens t then
      match Bracket.partner? (t :: ts) with
      | none => .error (t :: ts)
      | some k => do return (← indexFrom p (k - 1) ts).map (· + 1)
    else if p t then .ok (some 0)
    else do return (← indexFrom p 0 ts).map (· + 1)

/-- The position of the first token at the top level with property `p`. -/
def index? (p : Token → Bool) (ts : List Token) : Except (List Token) (Option Nat) :=
  indexFrom p 0 ts

/-- The parts of a list between the tokens at the top level with property `p`. `part` is the part
begun, in reverse order; `skip` tokens are taken into it unseen. -/
def splitFrom (p : Token → Bool) : List Token → Nat → List Token →
    Except (List Token) (List (List Token))
  | part, _, [] => .ok (if part.isEmpty then [] else [part.reverse])
  | part, skip + 1, t :: ts => splitFrom p (t :: part) skip ts
  | part, 0, t :: ts =>
    if Bracket.opens t then
      match Bracket.partner? (t :: ts) with
      | none => .error (t :: ts)
      | some k => splitFrom p (t :: part) (k - 1) ts
    else if p t then do return part.reverse :: (← splitFrom p [] 0 ts)
    else splitFrom p (t :: part) 0 ts

/-- The parts of a list between the tokens at the top level with property `p`. A token at the very
end closes the last part and opens no new one. -/
def split (p : Token → Bool) (ts : List Token) : Except (List Token) (List (List Token)) :=
  splitFrom p [] 0 ts

/-- Whether a list is parted by tokens at the top level with property `p`. The empty list, which
has no part at all, counts as parted. -/
def isParted (p : Token → Bool) (ts : List Token) : Except (List Token) Bool := do
  return (← split p ts).length != 1

end TopLevel

end LittleJ
