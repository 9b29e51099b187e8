import LittleJ.Store
import LittleJ.Token.Printer

/-!
# Printing values

Arrays and objects are printed with all they contain. A value that contains itself has no printed
form: along any path that passes no container twice there are at most as many containers as the
store has, so a longer path never ends.
-/

namespace LittleJ.Store

/-- The entries of an object, printed. -/
def entryText (key value : String) : String :=
  quote key ++ ": " ++ value

/-- The printed form of a value, containers nested less than `fuel` deep. -/
def printWithin (σ : Store) : Nat → Value → Except Fault String
  | 0, _ => .error .endless
  | fuel + 1, v =>
    match v with
    | .arr r => do
      let shown ← (σ.array r).toList.mapM (printWithin σ fuel)
      return "[" ++ ", ".intercalate shown ++ "]"
    | .obj r => do
      let shown ← (σ.object r).mapM fun e => do return entryText e.1 (← printWithin σ fuel e.2)
      return "\x7b" ++ ", ".intercalate shown ++ "\x7d"
    | .fn r => Token.print (printWithin σ fuel) (.func (σ.closure r).function)
    | v => v.printPlain

/-- More steps than any path through different containers takes. -/
def nesting (σ : Store) : Nat :=
  σ.arrays.size + σ.objects.size + 3

/-- The printed form of a value. -/
def print (σ : Store) (v : Value) : Except Fault String :=
  σ.printWithin σ.nesting v

/-- The printed form of a token. -/
def printToken (σ : Store) (t : Token) : Except Fault String :=
  t.print σ.print

/-- The excerpt that errors show. -/
def excerpt (σ : Store) (ts : List Token) : Except Fault String :=
  LittleJ.excerpt σ.print ts

/-- The text of a value where text is wanted: a string is itself. -/
def text (σ : Store) : Value → Except Fault String
  | .str s => .ok s
  | v => σ.print v

/-- Whether a value contains itself through arrays alone, looking `fuel` arrays deep. -/
def endlessWithin (σ : Store) : Nat → Value → Bool
  | 0, _ => true
  | fuel + 1, v =>
    match v with
    | .arr r => (σ.array r).any (endlessWithin σ fuel)
    | _ => false

/-- Whether a value contains itself through arrays alone. -/
def isEndless (σ : Store) (v : Value) : Bool :=
  σ.endlessWithin (σ.arrays.size + 2) v

/-- Whether some value among the tokens contains itself through arrays alone. -/
def anyEndless (σ : Store) (ts : List Token) : Bool :=
  ts.any fun t => match t with
    | .val v => σ.isEndless v
    | _ => false

end LittleJ.Store
