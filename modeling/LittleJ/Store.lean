import LittleJ.Code
import LittleJ.Error
import LittleJ.Table

/-!
# The store

Everything a running program can change lives in one store: its arrays, objects, functions and
scopes, the expressions of trees that are kept, code in memory, the clock, and what has been written
so far.
References are positions in these tables. Nothing is ever taken out, so a reference once given stays
good.
-/

namespace LittleJ

/-- A function made by evaluating a literal. -/
structure Closure where
  function : Function
  /-- The scope in which it was made, once that is known. -/
  home : Option Nat

instance : Inhabited Closure := ⟨⟨default, none⟩⟩

/-- The variables of one call or program. -/
structure Scope where
  vars : Table Value
  /-- The scope around it; the global scope has none. -/
  parent : Option Nat
  depth : Int
  /-- The depth that no scope of its family may reach. -/
  limit : Option Rat

instance : Inhabited Scope := ⟨⟨[], none, 0, none⟩⟩

/-- Whether a scope is the outermost one of its family. -/
def Scope.isGlobal (s : Scope) : Bool :=
  s.parent.isNone

/-- The state of a running program. -/
structure Store where
  arrays : Array (Array Value)
  objects : Array (Table Value)
  closures : Array Closure
  scopes : Array Scope
  /-- The expressions of kept trees, as they are now. -/
  slots : Array Expr
  /-- Code that is run in place. -/
  code : Code
  /-- What the clock answers when it is read next. -/
  clock : Nat
  /-- The state of the source of random numbers. -/
  seed : Nat
  /-- Everything written so far. -/
  out : String

namespace Store

/-- Nothing made, nothing written, and the clock at zero. -/
def empty : Store :=
  ⟨#[], #[], #[], #[], #[], .empty, 0, 1, ""⟩

instance : Inhabited Store := ⟨empty⟩

/-- The elements of an array. -/
def array (σ : Store) (r : Nat) : Array Value :=
  σ.arrays.getD r #[]

/-- The properties of an object. -/
def object (σ : Store) (r : Nat) : Table Value :=
  σ.objects.getD r []

/-- A function. -/
def closure (σ : Store) (r : Nat) : Closure :=
  σ.closures.getD r default

/-- A scope. -/
def scope (σ : Store) (r : Nat) : Scope :=
  σ.scopes.getD r default

/-- The expression in a slot. -/
def slot (σ : Store) (r : Nat) : Expr :=
  σ.slots.getD r []

/-- Makes an array. -/
def newArray (σ : Store) (xs : Array Value) : Nat × Store :=
  (σ.arrays.size, { σ with arrays := σ.arrays.push xs })

/-- Makes an object. -/
def newObject (σ : Store) (t : Table Value) : Nat × Store :=
  (σ.objects.size, { σ with objects := σ.objects.push t })

/-- Makes a function. -/
def newClosure (σ : Store) (c : Closure) : Nat × Store :=
  (σ.closures.size, { σ with closures := σ.closures.push c })

/-- Makes a scope. -/
def newScope (σ : Store) (s : Scope) : Nat × Store :=
  (σ.scopes.size, { σ with scopes := σ.scopes.push s })

/-- Makes a slot. -/
def newSlot (σ : Store) (e : Expr) : Nat × Store :=
  (σ.slots.size, { σ with slots := σ.slots.push e })

/-- Changes an array. -/
def modifyArray (σ : Store) (r : Nat) (f : Array Value → Array Value) : Store :=
  { σ with arrays := σ.arrays.modify r f }

/-- Changes an object. -/
def modifyObject (σ : Store) (r : Nat) (f : Table Value → Table Value) : Store :=
  { σ with objects := σ.objects.modify r f }

/-- Changes a scope. -/
def modifyScope (σ : Store) (r : Nat) (f : Scope → Scope) : Store :=
  { σ with scopes := σ.scopes.modify r f }

/-- Changes the expression in a slot. -/
def setSlot (σ : Store) (r : Nat) (e : Expr) : Store :=
  { σ with slots := σ.slots.modify r fun _ => e }

/-- Tells a function the scope it was made in, unless it has one. -/
def adopt (σ : Store) (home : Nat) (r : Nat) : Store :=
  { σ with closures := σ.closures.modify r fun c =>
      if c.home.isNone then { c with home := some home } else c }

/-- Writes a text. -/
def write (σ : Store) (s : String) : Store :=
  { σ with out := σ.out ++ s }

/-- Reads the clock, which counts its readings. -/
def tick (σ : Store) : Nat × Store :=
  (σ.clock, { σ with clock := σ.clock + 1 })

end Store

end LittleJ
