import LittleJ.Store

/-!
# Scopes

A variable belongs to the nearest scope, going outwards, that has it. A scope made inside another
is one deeper; a call then sets the depth of its scope to that of the caller plus one. When a
family of scopes has a limit, no scope of it may reach the limit.

Every scope is made after the one around it, so its number bounds the way to the outermost one.
-/

namespace LittleJ.Store

/-- The number of the nearest scope that has a variable, looking through at most `fuel` scopes. -/
def ownerFrom (σ : Store) (name : String) : Nat → Nat → Option Nat
  | 0, _ => none
  | fuel + 1, r =>
    let s := σ.scope r
    if s.vars.has name then some r
    else match s.parent with
      | some p => ownerFrom σ name fuel p
      | none => none

/-- The number of the nearest scope that has a variable. -/
def owner (σ : Store) (r : Nat) (name : String) : Except Error Nat :=
  match σ.ownerFrom name (r + 1) r with
  | some o => .ok o
  | none => .error (.undefined name)

/-- The value of a variable as seen from a scope. -/
def lookup (σ : Store) (r : Nat) (name : String) : Except Error Value := do
  let o ← σ.owner r name
  return ((σ.scope o).vars.get? name).getD .null

/-- Refuses a variable that a scope already has. -/
def checkNew (σ : Store) (r : Nat) (name : String) : Except Error Unit :=
  if (σ.scope r).vars.has name then .error (.redefined name) else .ok ()

/-- Sets a variable in a scope, whether or not it is there. -/
def putVar (σ : Store) (r : Nat) (name : String) (v : Value) : Store :=
  σ.modifyScope r fun s => { s with vars := s.vars.put name v }

/-- Whether a depth is one that a limit forbids. -/
def tooDeep (limit : Option Rat) (depth : Int) : Bool :=
  match limit with
  | none => false
  | some l => decide (l ≤ (depth : Rat))

/-- An outermost scope with a limit of its own. -/
def globalScope (limit : Option Rat) : Except Error Scope :=
  if tooDeep limit 0 then .error .scopeDepth else .ok ⟨[], none, 0, limit⟩

/-- A scope inside another, with values for its parameters. -/
def childScope (σ : Store) (parent : Nat) (params : List String) (args : List Value) :
    Except Failure Scope :=
  if params.length != args.length then .error (.fault (.internal ""))
  else
    let outer := σ.scope parent
    let depth := outer.depth + 1
    if tooDeep outer.limit depth then .error (.error .scopeDepth)
    else .ok ⟨Table.putAll (params.zip args) [], some parent, depth, outer.limit⟩

/-- Sets the depth of a scope. It is set even if the limit forbids it. -/
def setDepth (σ : Store) (r : Nat) (depth : Int) : Store :=
  σ.modifyScope r fun s => { s with depth }

/-- Whether a scope has reached its limit. -/
def atLimit (σ : Store) (r : Nat) : Bool :=
  tooDeep (σ.scope r).limit (σ.scope r).depth

end LittleJ.Store
