import LittleJ.Interpreter

/-!
# Sessions

A session is one interpreter and a number of kept trees, each under a name. It takes steps one after
the other; a step that fails ends, and the next one goes on with the store as it was left.
-/

namespace LittleJ

namespace Session

/-- Where a program runs. -/
inductive Place
  | global
  | child
  /-- In an interpreter of its own. -/
  | apart
deriving DecidableEq, Repr

/-- What a step runs. -/
inductive Subject
  | text (s : String)
  /-- A kept tree. -/
  | tree (name : String)
  /-- A value of the host. -/
  | value (v : Value)

/-- One step. -/
inductive Step
  | run (place : Place) (subject : Subject) (console : Bool)
  /-- Reads a text and keeps its tree. -/
  | parse (text name : String)
  /-- Keeps a copy of a kept tree as it is now. -/
  | copy (tree name : String)
  /-- Shows a kept tree as it is now. -/
  | show (tree : String)
  | natives (values : List (String × Token))
  /-- Looks up a name in the global scope. -/
  | get (name : String)

/-- What a step gives beside its output. -/
inductive Reply
  | nothing
  | tree (ks : List Kept)
  | value (v : Value)

end Session

/-- An interpreter, the files it can read, and the kept trees. -/
structure Session where
  interpreter : Interpreter
  files : Table String
  trees : Table (List Kept)

namespace Session

/-- A kept tree. -/
def tree (s : Session) (name : String) : Eval (List Kept) :=
  match s.trees.get? name with
  | some ks => pure ks
  | none => Eval.breakdown .absentEntry

/-- The program a subject stands for. -/
def source (s : Session) : Subject → Eval Interpreter.Source
  | .text t => return .text t
  | .tree name => return .tree (← s.tree name)
  | .value v => return .value v

/-- Takes a step. -/
def step (s : Session) (budget : Budget) : Step → Eval (Session × Reply)
  | .run place subject console => do
    let p ← s.source subject
    match place with
    | .global => s.interpreter.run budget s.files p console
    | .child => s.interpreter.runChild budget s.files p console
    | .apart => s.interpreter.runApart budget s.files p console
    return (s, .nothing)
  | .parse text name => do
    let program ← Eval.ofFailure (parseText text)
    let ks ← Kept.ofProgram program
    return ({ s with trees := s.trees.put name ks }, .nothing)
  | .copy name other => do
    let ks ← Kept.copyAll (← s.tree name)
    return ({ s with trees := s.trees.put other ks }, .nothing)
  | .show name => do return (s, .tree (← s.tree name))
  | .natives values => do
    s.interpreter.addNatives values
    return (s, .nothing)
  | .get name => do
    let v ← Eval.ofError ((← get).lookup s.interpreter.global name)
    return (s, .value v)

end Session

end LittleJ
