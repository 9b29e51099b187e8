import LittleJ.Token

/-!
# Code in memory

While a program runs, its code lies in memory. Each expression is a list at a place of its own, and
running an expression changes its list: names give way to their values there. A function literal is
an object in such a list, with its statements elsewhere in memory; once it has been evaluated the
list holds a reference to the function in its stead.

Code that is to be run again is copied first. A copy is what the code reads as at that moment, put
into new lists.
-/

namespace LittleJ

/-- A statement in memory. Its expressions are places of lists. -/
inductive Live
  | init (name : String) (value : Nat)
  | assign (target value : Nat)
  | ladder (arms : List (Nat × List Live))
  | loop (condition : Nat) (code : List Live)
  | ret (value : Nat)
  | brk
  | exp (value : Nat)

/-- A function literal in memory that has not been evaluated. -/
structure Live.Literal where
  params : List String
  body : List Live
  source : List Token

/-- An element of a list. -/
inductive Live.Item
  | token (t : Token)
  | literal (f : Live.Literal)

/-- The code in memory. -/
structure Code where
  lists : Array (List Live.Item)
  /-- The statements of each function that was made. -/
  bodies : Array (List Live)
  /-- The code that was begun to be run where it is, the latest first. -/
  begun : List (List Live)

namespace Code

def empty : Code :=
  ⟨#[], #[], []⟩

/-- The list at a place. -/
def list (c : Code) (k : Nat) : List Live.Item :=
  c.lists.getD k []

/-- The statements of a function. -/
def body (c : Code) (r : Nat) : List Live :=
  c.bodies.getD r []

/-- Puts a list at a new place. -/
def newList (ws : List Live.Item) (c : Code) : Nat × Code :=
  (c.lists.size, { c with lists := c.lists.push ws })

/-- Changes the list at a place. -/
def modifyList (c : Code) (k : Nat) (f : List Live.Item → List Live.Item) : Code :=
  { c with lists := c.lists.modify k f }

/-! ## Putting code into memory -/

mutual

def loadToken : Token → StateM Code Live.Item
  | .func f => do return .literal (← loadFunction f)
  | t => return .token t

def loadFunction : Function → StateM Code Live.Literal
  | .mk params body source => do return ⟨params, ← load body, source⟩

def loadTokens : List Token → StateM Code (List Live.Item)
  | [] => return []
  | t :: ts => do
    let w ← loadToken t
    return w :: (← loadTokens ts)

/-- Puts a statement into memory, each of its expressions at a new place. -/
def loadStmt : Stmt → StateM Code Live
  | .init name e => do return .init name (← newList (← loadTokens e))
  | .assign target e => do
    let target ← newList (← loadTokens target)
    return .assign target (← newList (← loadTokens e))
  | .ladder arms => do return .ladder (← loadArms arms)
  | .loop condition code => do
    let condition ← newList (← loadTokens condition)
    return .loop condition (← load code)
  | .ret e => do return .ret (← newList (← loadTokens e))
  | .brk => return .brk
  | .exp e => do return .exp (← newList (← loadTokens e))

/-- Puts statements into memory. -/
def load : List Stmt → StateM Code (List Live)
  | [] => return []
  | s :: rest => do
    let s ← loadStmt s
    return s :: (← load rest)

def loadArms : List (List Token × List Stmt) → StateM Code (List (Nat × List Live))
  | [] => return []
  | (condition, code) :: arms => do
    let condition ← newList (← loadTokens condition)
    let code ← load code
    return (condition, code) :: (← loadArms arms)

end

end Code

/-! ## Reading code off memory -/

namespace Live

mutual

/-- The statement that lies in memory, if `read` tells what its lists hold. -/
def stmt (read : Nat → Expr) : Live → Stmt
  | .init name k => .init name (read k)
  | .assign target k => .assign (read target) (read k)
  | .ladder arms => .ladder (armsOf read arms)
  | .loop k code => .loop (read k) (program read code)
  | .ret k => .ret (read k)
  | .brk => .brk
  | .exp k => .exp (read k)

/-- The statements that lie in memory. -/
def program (read : Nat → Expr) : List Live → Program
  | [] => []
  | s :: rest => stmt read s :: program read rest

def armsOf (read : Nat → Expr) : List (Nat × List Live) → List (Expr × Program)
  | [] => []
  | (k, code) :: arms => (read k, program read code) :: armsOf read arms

end

end Live

/-- The token that an element of a list is read as. -/
def Live.Item.read (read : Nat → Expr) : Live.Item → Token
  | .token t => t
  | .literal f => .func (.mk f.params (Live.program read f.body) f.source)

namespace Code

/-- The expression at a place. Function literals nested `depth` deep are not read. -/
def expr (c : Code) : Nat → Nat → Expr
  | 0, _ => []
  | depth + 1, k => (c.list k).map (Live.Item.read (c.expr depth))

/-- What statements in memory are read as. The lists of a literal lie below the list it is in, so
the number of lists bounds how deeply literals are nested. -/
def read (c : Code) (b : List Live) : Program :=
  Live.program (c.expr c.lists.size) b

/-- A copy of statements as they are now, in lists of its own. -/
def copy (b : List Live) (c : Code) : List Live × Code :=
  (load (c.read b)).run c

end Code

end LittleJ
