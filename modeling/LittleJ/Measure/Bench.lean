import LittleJ.Measure.Datum
import LittleJ.Table

/-!
# Benches

A bench is a function of named parameters. A call gives a result or fails; it may also never end,
and is then stopped by an alarm. Whether the function does its work when it is called or hands back
another one that does makes no difference here.
-/

namespace LittleJ.Measure

/-- An error of the host: its kind and its text. -/
structure Raised where
  kind : String
  text : String
deriving DecidableEq, Repr

/-- An error as one line. -/
def Raised.line (r : Raised) : String :=
  r.kind ++ ": " ++ r.text

/-- Why a call gives no result. -/
inductive Trouble
  | raised (r : Raised)
  | timeout
deriving DecidableEq, Repr

/-- A trouble where a name is expected. -/
def Trouble.mark : Trouble → String
  | raised r => "<" ++ r.kind ++ ">"
  | timeout => "<timeout>"

/-- A trouble as one line. -/
def Trouble.line : Trouble → String
  | raised r => r.line
  | timeout => "timeout"

/-- What a call does. -/
inductive Conduct
  | fail (r : Raised)
  | hang
  /-- Gives the number of the call. -/
  | count
  /-- Gives a parameter back if it is there. -/
  | echo (parameter : String) (otherwise : Datum)
  | give (v : Datum)

/-- The parameters of one call. -/
abbrev Arguments := List (String × Datum)

/-- What the `k`-th call does, counted from one. -/
def Conduct.call (k : Nat) (args : Arguments) : Conduct → Except Trouble Datum
  | fail r => .error (.raised r)
  | hang => .error .timeout
  | count => .ok (.int k)
  | echo parameter otherwise => .ok ((Table.get? parameter args).getD otherwise)
  | give v => .ok v

/-- A bench. -/
structure Bench where
  name : String
  conduct : Conduct
  /-- The sets of parameters that it is measured with beside none. -/
  params : List Arguments

/-- What a name of the measured module stands for. -/
inductive Attribute
  | constant
  | function (conduct : Conduct) (params : List Arguments)

/-- The measured module: it can be loaded or not. -/
inductive Suite
  | broken (r : Raised)
  | loaded (attributes : Table Attribute)

/-- The bench of an attribute, if it is one: a function whose name starts with the mark. -/
def benchOf? (mark : String) : String × Attribute → Option Bench
  | (name, .function conduct params) =>
    if name.startsWith mark then some ⟨name, conduct, params⟩ else none
  | (_, .constant) => none

/-- The benches of a module by name. -/
def benchesOf (mark : String) (attributes : Table Attribute) : List Bench :=
  (attributes.filterMap (benchOf? mark)).mergeSort fun a b => decide (a.name ≤ b.name)

end LittleJ.Measure
