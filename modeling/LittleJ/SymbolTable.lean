import LittleJ.Program.Listing
import LittleJ.Table

/-!
# Symbol tables

A symbol table gives every text one symbol and remembers which it has given. It may start with the
three literal words, which stand for values and not for symbols.
-/

namespace LittleJ

/-- What a table gives for a text. -/
inductive Interned
  | symbol (text : String)
  | literal (v : Value)
deriving DecidableEq, Repr

/-- The symbols given so far, oldest first. -/
abbrev SymbolTable := Table Interned

namespace SymbolTable

/-- A new table, with or without the literal words. -/
def make (literals : Bool) : SymbolTable :=
  if literals then
    [("true", .literal (.bool true)), ("false", .literal (.bool false)), ("null", .literal .null)]
  else []

/-- The symbol of a text, made if it is asked for the first time. -/
def intern (t : SymbolTable) (s : String) : Interned × SymbolTable :=
  match Table.get? s t with
  | some a => (a, t)
  | none => (.symbol s, Table.put s (.symbol s) t)

/-- What a table holds, in a listing. -/
def shown : Interned → String
  | .symbol s => Text.quoted s
  | .literal v => Listing.value v

/-- The listing of a table. -/
def listing (t : SymbolTable) : String :=
  "\x7b" ++ ", ".intercalate (t.map fun e => Text.quoted e.1 ++ ": " ++ shown e.2) ++ "\x7d"

end SymbolTable

end LittleJ
