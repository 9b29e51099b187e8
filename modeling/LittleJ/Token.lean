import LittleJ.Symbol
import LittleJ.Value

/-!
# Tokens, function literals and statements

A program is a list of statements. Expressions in it stay lists of tokens: operators, names and
values side by side, in the order in which they were written. Only function literals are read
completely, so a function is a token with its parameters, its body, and the tokens the body was
read from.

A token can be compared in two ways. By *text*, a string equals the symbol or name with the same
characters. By *kind*, a symbol is only itself. The language uses both, and programs can tell them
apart.
-/

namespace LittleJ

mutual

/-- One word of an expression. -/
inductive Token
  | name (s : String)
  | sym (y : Symbol)
  | val (v : Value)
  | func (f : Function)
  /-- Tokens in a row that are shown as one. No program holds such a token; reports do. -/
  | row (ts : List Token)

/-- A function as written: parameters, body, and the tokens of the body. -/
inductive Function
  | mk (params : List String) (body : List Stmt) (source : List Token)

/-- A statement. -/
inductive Stmt
  /-- Makes a variable in the current scope. -/
  | init (name : String) (value : List Token)
  /-- Sets a variable, an element or a property. -/
  | assign (target value : List Token)
  /-- Runs the code after the first condition that holds. -/
  | ladder (arms : List (List Token × List Stmt))
  /-- Runs its code as long as the condition holds. -/
  | loop (condition : List Token) (code : List Stmt)
  | ret (value : List Token)
  | brk
  /-- An expression for its effect. -/
  | exp (value : List Token)

end

instance : Inhabited Token := ⟨.val .null⟩
instance : Inhabited Stmt := ⟨.brk⟩
instance : Inhabited Function := ⟨.mk [] [] []⟩

/-- A list of tokens standing for a value. -/
abbrev Expr := List Token

/-- The statements of a program or a block. -/
abbrev Program := List Stmt

namespace Function

/-- The names of the parameters, in order. -/
def params : Function → List String
  | mk ps _ _ => ps

/-- The statements that a call runs. -/
def body : Function → List Stmt
  | mk _ b _ => b

/-- The tokens between the braces. -/
def source : Function → List Token
  | mk _ _ ts => ts

end Function

namespace Token

/-- The text of a token that has one: a name, a symbol or a string. -/
def text? : Token → Option String
  | name s => some s
  | sym y => some y.text
  | val (.str s) => some s
  | _ => none

/-- Whether a token has the text `s`. -/
def reads (t : Token) (s : String) : Bool :=
  match t with
  | name n => n == s
  | sym y => y.text == s
  | val (.str x) => x == s
  | _ => false

/-- Whether a token is the symbol `y`. -/
def is (t : Token) (y : Symbol) : Bool :=
  match t with
  | sym z => z == y
  | _ => false

/-- Whether a token is a symbol. -/
def isSymbol : Token → Bool
  | sym _ => true
  | _ => false

/-- Whether a token is a name. -/
def isName : Token → Bool
  | name _ => true
  | _ => false

end Token

end LittleJ
