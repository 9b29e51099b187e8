import LittleJ.Interpreter
import LittleJ.Proofs.Concatenation
import LittleJ.Proofs.OnePass
import LittleJ.Proofs.RoundTrip
import LittleJ.StandardLibrary

/-!
# The library in place

Running the text of the standard library leaves three objects whose properties are functions. This
module gives the bodies of some of these functions as statements, says what a store is like in which
the library is in place, and shows that a new interpreter that runs the library ends in such a
store.
-/

namespace LittleJ

mutual

/-- Whether two tokens are the same word. -/
def Token.same : Token → Token → Bool
  | .name s, .name t => s == t
  | .sym y, .sym z => y == z
  | .val v, .val w => v == w
  | .func (.mk ps b ts), .func (.mk qs c us) => ps == qs && sameStmts b c && sameTokens ts us
  | _, _ => false

def sameTokens : List Token → List Token → Bool
  | [], [] => true
  | t :: ts, u :: us => t.same u && sameTokens ts us
  | _, _ => false

def Stmt.same : Stmt → Stmt → Bool
  | .init x e, .init y d => x == y && sameTokens e d
  | .assign t e, .assign u d => sameTokens t u && sameTokens e d
  | .ladder as, .ladder bs => sameArms as bs
  | .loop e b, .loop d c => sameTokens e d && sameStmts b c
  | .ret e, .ret d | .exp e, .exp d => sameTokens e d
  | .brk, .brk => true
  | _, _ => false

def sameStmts : List Stmt → List Stmt → Bool
  | [], [] => true
  | s :: b, t :: c => s.same t && sameStmts b c
  | _, _ => false

def sameArms : List (List Token × List Stmt) → List (List Token × List Stmt) → Bool
  | [], [] => true
  | (e, b) :: as, (d, c) :: bs => sameTokens e d && sameStmts b c && sameArms as bs
  | _, _ => false

end

theorem eq_of_same : (∀ t u : Token, t.same u = true → t = u) ∧
    (∀ ts us, sameTokens ts us = true → ts = us) ∧ (∀ b c, sameStmts b c = true → b = c) ∧
    (∀ s t : Stmt, s.same t = true → s = t) ∧ (∀ as bs, sameArms as bs = true → as = bs) := by
  apply Token.same.mutual_induct <;> intros <;> simp_all [Token.same, sameTokens, Stmt.same,
    sameStmts, sameArms]

namespace StandardLibrary

open Workload (numberToken)

/-- Where the library is: the global scope, the scope that its functions were made in, and its
objects. -/
structure Place where
  global : Nat
  home : Nat
  string : Nat
  array : Nat
  object : Nat

/-- A function of the library: the object and the property it is, its parameters and its body. -/
structure Routine where
  object : Place → Nat
  property : String
  params : List String
  body : Program

/-- A call of a function of the library. -/
def invoke (object property : String) (args : List Expr) : Expr :=
  .name object :: .sym .lbracket :: .val (.str property) :: .sym .rbracket :: .sym .lparen ::
    (Parser.joined args ++ [.sym .rparen])

/-- What one `slice` has of its own: the object it belongs to, the names of what it cuts and of its
length, how the answer begins, and how a part is added to it. -/
structure Slicing where
  object : Place → Nat
  subject : String
  length : String
  start : Expr
  step : Stmt

/-- The first bound becomes a position. -/
def Slicing.lower (f : Slicing) : Stmt :=
  .ladder [([.name "p1", .sym .same, .val .null], [.assign [.name "p1"] [numberToken 0]]),
    ([.name "p1", .sym .lt, numberToken 0],
      [.assign [.name "p1"] [.name f.length, .sym .plus, .name "p1"]])]

/-- And so does the second, which is also kept from going past the end. -/
def Slicing.upper (f : Slicing) : Stmt :=
  .ladder [([.name "p2", .sym .same, .val .null], [.assign [.name "p2"] [.name f.length]]),
    ([.name "p2", .sym .gt, .name f.length], [.assign [.name "p2"] [.name f.length]]),
    ([.name "p2", .sym .lt, numberToken 0],
      [.assign [.name "p2"] [.name f.length, .sym .plus, .name "p2"]])]

/-- The code of the loop. -/
def Slicing.code (f : Slicing) : Program :=
  [f.step, .assign [.name "i"] [.name "i", .sym .plus, numberToken 1]]

/-- The loop between the two positions. -/
def Slicing.loop (f : Slicing) : Stmt :=
  .loop [.name "i", .sym .lt, .name "p2"] f.code

def Slicing.routine (f : Slicing) : Routine :=
  ⟨f.object, "slice", [f.subject, "p1", "p2"],
    [.init "ans" f.start, .init "i" [.val .null],
      .init f.length [.name "len", .sym .lparen, .name f.subject, .sym .rparen],
      f.lower, f.upper, .assign [.name "i"] [.name "p1"], f.loop, .ret [.name "ans"]]⟩

def stringSlicing : Slicing :=
  ⟨(·.string), "s", "ls", [.val (.str "")],
    .assign [.name "ans"] [.name "ans", .sym .plus, .name "s", .sym .lbracket, .name "i",
      .sym .rbracket]⟩

def arraySlicing : Slicing :=
  ⟨(·.array), "a", "la", [.sym .lbracket, .sym .rbracket],
    .exp [.name "append", .sym .lparen, .name "ans", .sym .comma, .name "a",
      .sym .lbracket, .name "i", .sym .rbracket, .sym .rparen]⟩

def arrayIndexRoutine : Routine :=
  ⟨(·.array), "index", ["a", "elt"],
    [.ret (invoke "array" "indexOf" [[.name "a"], [.name "elt"], [.val .null]])]⟩

def hasOwnPropertyRoutine : Routine :=
  ⟨(·.object), "hasOwnProperty", ["o", "s"],
    [.ret (invoke "array" "index" [[.name "keys", .sym .lparen, .name "o", .sym .rparen],
      [.name "s"], [.val .null]] ++ [.sym .differs, .sym .minus, numberToken 1])]⟩

/-- The functions that are given here. -/
def routines : List Routine :=
  [stringSlicing.routine, arraySlicing.routine, arrayIndexRoutine, hasOwnPropertyRoutine]

/-- The names of the global scope that the functions use. -/
def Place.names (p : Place) : Table Value :=
  [("len", .native .len), ("keys", .native .keys), ("append", .native .append),
    ("string", .obj p.string), ("array", .obj p.array)]

/-- Whether a store has a function of the library. -/
def Place.has (p : Place) (σ : Store) (f : Routine) : Bool :=
  match (σ.object (f.object p)).get? f.property with
  | some (.fn r) =>
    (σ.closure r).home == some p.home && (σ.closure r).function.params == f.params &&
      sameStmts (σ.closure r).function.body f.body
  | _ => false

/-- The library is in place in a store, and calls are not limited. -/
structure Loaded (p : Place) (σ : Store) : Prop where
  outer : p.global < p.home
  made : p.home < σ.scopes.size
  vars : (σ.scope p.home).vars = []
  parent : (σ.scope p.home).parent = some p.global
  limit : (σ.scope p.home).limit = none
  names : ∀ e ∈ p.names, (σ.scope p.global).vars.get? e.1 = some e.2
  routines : ∀ f ∈ routines, p.has σ f = true

instance (p : Place) (σ : Store) : Decidable (Loaded p σ) :=
  decidable_of_iff (p.global < p.home ∧ p.home < σ.scopes.size ∧ (σ.scope p.home).vars = [] ∧
      (σ.scope p.home).parent = some p.global ∧ (σ.scope p.home).limit = none ∧
      (∀ e ∈ p.names, (σ.scope p.global).vars.get? e.1 = some e.2) ∧
      ∀ f ∈ routines, p.has σ f = true)
    ⟨fun ⟨h1, h2, h3, h4, h5, h6, h7⟩ => ⟨h1, h2, h3, h4, h5, h6, h7⟩, fun h =>
      ⟨h.1, h.2, h.3, h.4, h.5, h.6, h.7⟩⟩

/-! ## Reading the library

The library is read entry by entry, and the statements of the entries are put together. -/

/-- An entry by its characters: the object, the property and the text. -/
abbrev Piece := List Char × List Char × List Char

/-- A brace for an angle bracket. -/
def brace (c : Char) : Char :=
  if c == '⟨' then '\x7b' else if c == '⟩' then '\x7d' else c

namespace Piece

variable {e : Piece}

def entry (e : Piece) : Entry :=
  ⟨String.ofList e.1, String.ofList e.2.1, Text.braces (String.ofList e.2.2)⟩

def line (e : Piece) : List Char :=
  e.1 ++ '.' :: (e.2.1 ++ ' ' :: '=' :: ' ' :: (e.2.2.map brace ++ [';']))

theorem toList_statement (e : Piece) : e.entry.statement.toList = e.line ++ ['\n'] := by
  have hbrace : brace = fun c => if c == '⟨' then '\x7b' else if c == '⟩' then '\x7d' else c := rfl
  simp [Entry.statement, entry, line, Text.toList_braces, hbrace]

/-- What the entry assigns to. -/
def target (e : Piece) : Expr :=
  .name (String.ofList e.1) :: Lexer.bracketed (String.ofList e.2.1)

/-- Whether the text is a function and not the name of one. -/
def isFunction (e : Piece) : Bool :=
  e.2.2.take 8 == ['f', 'u', 'n', 'c', 't', 'i', 'o', 'n']

def functionOf : Expr → Function
  | [.func f] => f
  | _ => .mk [] [] []

/-- The tokens of an entry and the value that it assigns. -/
def read? (e : Piece) : Option (List Token × Expr) := do
  let ts ← Lexer.scanText e.line
  match parse ts with
  | .ok [.assign target value] =>
    if sameTokens target e.target && decide (Bracket.Nested ts) &&
        (!e.isFunction || sameTokens value [.func (functionOf value)]) then
      some (ts, value)
    else none
  | _ => none

def tokens (e : Piece) : List Token :=
  (e.read?.getD default).1

/-- The statement of an entry. That the value is a function can be told before the function is read.
-/
def stmt (e : Piece) : Stmt :=
  let value := (e.read?.getD default).2
  .assign e.target (if e.isFunction then [.func (functionOf value)] else value)

theorem read?_spec (h : e.read?.isSome = true) :
    Lexer.scanText e.line = some e.tokens ∧ parse e.tokens = .ok [e.stmt] ∧
    Bracket.Nested e.tokens := by
  obtain ⟨⟨ts, value⟩, hread⟩ := Option.isSome_iff_exists.1 h
  have htokens : e.tokens = ts := by rw [tokens, hread]; rfl
  have hstmt :
      e.stmt = .assign e.target (if e.isFunction then [.func (functionOf value)] else value) := by
    rw [stmt, hread]
    rfl
  rw [htokens, hstmt]
  obtain ⟨us, hus, hread⟩ := Option.bind_eq_some_iff.1 hread
  split at hread
  · next target' value' hparse =>
      obtain ⟨hok, heq⟩ := Option.ite_none_right_eq_some.1 hread
      cases heq
      simp only [Bool.and_eq_true, Bool.or_eq_true, Bool.not_eq_true', decide_eq_true_eq] at hok
      obtain ⟨⟨htarget, hnested⟩, hvalue⟩ := hok
      refine ⟨hus, ?_, hnested⟩
      rw [hparse, eq_of_same.2.1 _ _ htarget]
      rcases hvalue with hname | hfunction
      · rw [hname]
        rfl
      · rw [← eq_of_same.2.1 _ _ hfunction, ite_self]
  · cases hread

end Piece

/-- The entries can be read. -/
abbrev Readable (es : List Piece) : Prop :=
  ∀ e ∈ es, e.read?.isSome = true

/-- The tokens of the function that sets the properties. -/
def code (es : List Piece) : List Token :=
  .val (.str "use strict") :: .sym .semi ::
  (es.flatMap Piece.tokens ++ [.sym .kwReturn, .val .null, .sym .semi])

def body (es : List Piece) : Program :=
  .exp [.val (.str "use strict")] :: (es.map Piece.stmt ++ [.ret [.val .null]])

/-- The program of the library. -/
def program (es : List Piece) : Program :=
  ["string", "array", "object"].map (.init · [.sym .lbrace, .sym .rbrace]) ++
    [.exp [.sym .lparen, .func (.mk [] (body es) (code es)), .sym .lparen, .sym .rparen,
      .sym .rparen]]

theorem parse_entries {es : List Piece} (h : Readable es) :
    parse (es.flatMap Piece.tokens) = .ok (es.map Piece.stmt) ∧
    Bracket.Nested (es.flatMap Piece.tokens) := by
  induction es with
  | nil => exact ⟨rfl, .nil⟩
  | cons e es ih =>
    obtain ⟨he, hes⟩ := List.forall_mem_cons.1 h
    obtain ⟨-, hparse, hnested⟩ := Piece.read?_spec he
    exact ⟨Parser.parse_both hparse (ih hes).1, hnested.append (ih hes).2⟩

theorem scanText_entries {es : List Piece} (h : Readable es) {rest : List Char} {ts : List Token}
    (hrest : Lexer.scanText rest = some ts) :
    Lexer.scanText (es.flatMap (fun e => e.line ++ ['\n']) ++ rest) =
      some (es.flatMap Piece.tokens ++ ts) := by
  induction es with
  | nil => exact hrest
  | cons e es ih =>
    obtain ⟨he, hes⟩ := List.forall_mem_cons.1 h
    have hnext := Lexer.scanText_newline (Piece.read?_spec he).1 (ih hes)
    simpa using hnext

/-- A function that is called where it stands. -/
theorem parse_called {code : List Token} {body : Program} (hne : code ≠ [])
    (hnested : Bracket.Nested code) (h : parse (.sym .varMark :: code) = .ok body) :
    parse (.sym .lparen :: .sym .kwFunction :: (framed [] code ++
        [Token.sym .lparen, .sym .rparen, .sym .rparen, .sym .semi])) =
      .ok [.exp [.sym .lparen, .func (.mk [] body code), .sym .lparen, .sym .rparen,
        .sym .rparen]] := by
  have hclear (p : Token → Bool) :
      Bracket.Clear p (.sym .lparen :: (.sym .kwFunction :: (framed [] code ++
      [Token.sym .lparen, .sym .rparen]) ++ [Token.sym .rparen])) :=
    .wrap .round (.cons (by decide) rfl ((clear_framed .nil hnested).append (.wrap .round .nil)))
  have hnot (y : Symbol) (hy : _) := (TopLevel.lacks_of_clear (hclear (·.is y))).not_parted
    (TopLevel.sparesBrackets_is hy) (List.cons_ne_nil _ _)
  have hcall : Grammar.Derives (.expression [.sym .lparen, .sym .rparen, .sym .rparen] _) :=
    .token rfl (.token rfl (.token rfl .nil))
  have hvalue :=
    Grammar.Derives.function
    (Parser.framed_of_level ((show Bracket.Nested [] from .nil).level .round)
    (hnested.level .curly)) .nil hne (Parser.derives_block h) hcall
  have hderives := Grammar.Derives.exp .empty ⟨⟨_, _, rfl, rfl⟩, TopLevel.lacks_of_clear (hclear _)⟩
    (hnot .assign (by decide)) (hnot .plusAssign (by decide)) (hnot .minusAssign (by decide))
    (by simp) (by simpa using Grammar.Derives.token rfl hvalue)
  have hparse : parse _ = .ok _ := Grammar.read_of_derives hderives _ (Nat.lt_succ_self _)
  simpa using hparse

/-- The tokens before the entries. -/
def front : List Token :=
  [.sym .kwVar, .name "string", .sym .assign, .sym .lbrace, .sym .rbrace, .sym .comma,
    .name "array", .sym .assign,
    .sym .lbrace, .sym .rbrace, .sym .comma, .name "object", .sym .assign, .sym .lbrace,
    .sym .rbrace, .sym .semi]

/-- **The text of the library is read as its program.** -/
theorem parseText_source {es : List Piece} (hes : entries = es.map Piece.entry) (h : Readable es) :
    parseText source = .ok (program es) := by
  let head :=
    "var string = ⟨⟩, array = ⟨⟩, object = ⟨⟩;\n(function () ⟨\n'use strict';".toList.map brace
  let last := "return null;\n⟩());\n".toList.map brace
  have hchars :
      source.toList = head ++ '\n' :: (es.flatMap (fun e => e.line ++ ['\n']) ++ last) := by
    rw [source, hes, String.toList_append, String.toList_append, Text.toList_braces,
      Text.toList_braces, String.toList_join, List.map_map, List.flatMap_map]
    simp only [Function.comp_apply, Piece.toList_statement]
    rfl
  have hhead : Lexer.scanText head =
      some (front ++ [.sym .lparen, .sym .kwFunction, .sym .lparen, .sym .rparen,
      .sym .lbrace, .val (.str "use strict"), .sym .semi]) := rfl
  have hlast : Lexer.scanText last =
      some [.sym .kwReturn, .val .null, .sym .semi, .sym .rbrace, .sym .lparen,
      .sym .rparen, .sym .rparen, .sym .semi] := rfl
  have htext := Lexer.scanText_newline hhead (scanText_entries h hlast)
  rw [← hchars] at htext
  obtain ⟨hparse, hnested⟩ := parse_entries h
  have hstrict : parse [.sym .varMark, .val (.str "use strict"), .sym .semi] =
      .ok [.exp [.val (.str "use strict")]] := rfl
  have hcode : parse (.sym .varMark :: code es) = .ok (body es) :=
    Parser.parse_both hstrict (Parser.parse_both hparse rfl)
  have hfront : parse (.sym .varMark :: front) =
      .ok (["string", "array", "object"].map (.init · [.sym .lbrace, .sym .rbrace])) := rfl
  have hnested : Bracket.Nested (code es) :=
    .cons (by decide) rfl (.cons (by decide) rfl (hnested.append (by decide)))
  have hall := Parser.parse_both hfront (parse_called (List.cons_ne_nil _ _) hnested hcode)
  rw [parseText, Lexer.lex_of_scanText htext]
  simpa [framed, code, program, bind, Except.bind] using hall

/-! ## Running the library -/

/-- Runs a program in a new interpreter, without limits. -/
def launch (program : Program) : Eval Unit := do
  let i ← Interpreter.make none none true
  runProgram ⟨none, false, 0⟩ 12 i.global program

/-- Whether the program of the library puts it in place. -/
def launches (es : List Piece) : Bool :=
  match launch (program es) Store.empty with
  | .ok _ σ => decide (Loaded ⟨0, 1, 1, 2, 3⟩ σ)
  | .error _ _ => false

/-- Entries with their characters. -/
inductive Spelled : List Entry → List Piece → Prop where
  | nil : Spelled [] []
  | cons {e : Entry} {object property text : List Char} {rest : List Entry} {es : List Piece} :
      e = Piece.entry (object, property, text) → Spelled rest es →
      Spelled (e :: rest) ((object, property, text) :: es)

theorem Spelled.eq_map {rest : List Entry} {es : List Piece} (h : Spelled rest es) :
    rest = es.map Piece.entry := by
  induction h with
  | nil => rfl
  | cons hentry _ ih => rw [List.map_cons, ← hentry, ← ih]

set_option maxRecDepth 100000 in
theorem exists_spelled : ∃ es, Spelled entries es ∧ Readable es ∧ launches es = true := by
  apply Exists.intro
  refine ⟨?_, ?_, ?_⟩
  · dsimp only [entries]
    repeat
      apply Spelled.cons
      · -- the characters of an entry are those of its literals
        exact rfl
    exact .nil
  · decide +kernel
  · decide +kernel

/-- **Running the library puts it in place.** -/
theorem exists_loaded : ∃ program σ, parseText source = .ok program ∧
    launch program Store.empty = .ok () σ ∧
    Loaded ⟨0, 1, 1, 2, 3⟩ σ := by
  obtain ⟨es, hspelled, hread, h⟩ := exists_spelled
  rw [launches] at h
  split at h
  · next σ hσ => exact ⟨_, σ, parseText_source hspelled.eq_map hread, hσ, of_decide_eq_true h⟩
  · cases h

end StandardLibrary

end LittleJ
