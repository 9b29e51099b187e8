import LittleJ.Bracket
import LittleJ.Token.Lexer

/-!
# From tokens to statements

A program is read statement by statement. Each reader looks at the tokens after the word that
starts its statement and says how many of them it used; the reading of a block goes on behind them.
Blocks are read the same way, so the readers take the reader of blocks as an argument, and
`block` ties the knot: a block has fewer tokens than the list around it, so the number of tokens
bounds the nesting.

A `for` statement becomes its assignments followed by a loop, and `a += b` becomes `a = a + b`.
-/

namespace LittleJ.Parser

/-- A result, or what is wrong. -/
abbrev Parse := Except Failure

/-- Fails with an error. -/
def fail {α : Type} (e : Error) : Parse α :=
  .error (.error e)

/-- Fails with an error that shows an excerpt of `ts`. -/
def failAt {α : Type} (e : String → Error) (ts : List Token) : Parse α :=
  match excerpt Value.printPlain ts with
  | .ok s => .error (.error (e s))
  | .error f => .error (.fault f)

/-- The position of the bracket that closes the first token of `ts`. -/
def partner (ts : List Token) : Parse Nat :=
  match Bracket.partner? ts with
  | some k => .ok k
  | none => failAt .unclosed ts

/-- The result of a search at the top level, or the failure for a bracket without partner. -/
def searched {α : Type} : Except (List Token) α → Parse α
  | .ok a => .ok a
  | .error rest => failAt .unclosed rest

/-- The tokens before the first semicolon at the top level of `ts`, and how many there are. -/
def upToSemicolon (all ts : List Token) : Parse (List Token × Nat) := do
  match ← searched (TopLevel.index? (·.is .semi) ts) with
  | some k => return (ts.take k, k)
  | none => failAt (.expected ";") all

/-- Whether a list starts with a token that has the text `s`. -/
def startsWith (s : String) : List Token → Bool
  | [] => false
  | t :: _ => t.reads s

/-- The tokens strictly between the first one and position `k`. -/
def inside (k : Nat) (ts : List Token) : List Token :=
  (ts.take k).drop 1

/-- The parameters between the parentheses of a function literal. A comma may stand anywhere. -/
def params? : List Token → Option (List String)
  | [] => some []
  | .name s :: ts => (params? ts).map (s :: ·)
  | t :: ts => if t.reads "," then params? ts else none

/-- Reads a function literal from the tokens after its keyword. -/
def functionLiteral (block : List Token → Parse Program) (ts : List Token) :
    Parse (Function × Nat) := do
  if !startsWith "(" ts then fail .badFunction
  let rp ← partner ts
  let rest := ts.drop (rp + 1)
  if !startsWith "\x7b" rest then fail .badFunction
  let rc ← partner rest
  if rc ≤ 1 then fail .badFunction
  match params? (inside rp ts) with
  | none => fail .badFunction
  | some params =>
    let source := inside rc rest
    let body ← block (.sym .varMark :: source)
    return (.mk params body source, rp + 1 + (rc + 1))

/-- An expression with its function literals read; `skip` tokens are passed over first. -/
def expressionFrom (block : List Token → Parse Program) : Nat → List Token → Parse Expr
  | _, [] => .ok []
  | skip + 1, _ :: ts => expressionFrom block skip ts
  | 0, t :: ts =>
    if t.is .kwFunction then do
      let (f, used) ← functionLiteral block ts
      return .func f :: (← expressionFrom block used ts)
    else do return t :: (← expressionFrom block 0 ts)

/-- An expression with its function literals read. -/
def expression (block : List Token → Parse Program) (ts : List Token) : Parse Expr :=
  expressionFrom block 0 ts

/-- What a statement with a condition and a block comes to, and how many tokens it used. -/
structure Guarded where
  condition : Expr
  code : Program
  used : Nat

/-- Reads a condition in parentheses and a block in braces, neither of them empty. `word` is named
if they are not there. -/
def guarded (block : List Token → Parse Program) (word : String) (ts : List Token) :
    Parse Guarded := do
  if !startsWith "(" ts then fail (.badStatement word)
  let rp ← partner ts
  if rp ≤ 1 then fail (.badStatement word)
  let rest := ts.drop (rp + 1)
  if !startsWith "\x7b" rest then fail (.badStatement word)
  let rc ← partner rest
  if rc ≤ 1 then fail (.badStatement word)
  let condition ← expression block (inside rp ts)
  let code ← block (inside rc rest)
  return ⟨condition, code, rp + 1 + (rc + 1)⟩

/-- Whether tokens are a name followed by nothing but pairs of square brackets. The pairs are taken
off from the right, at most `fuel` of them; a bracket without partner is an error of its own. -/
def isTarget : Nat → List Token → Parse Bool
  | 0, _ => .ok false
  | fuel + 1, ts =>
    match ts with
    | [] => .ok false
    | [t] => .ok t.isName
    | t :: _ =>
      if !t.isName then .ok false
      else match ts.getLast? with
        | some (.sym .rbracket) =>
          match Bracket.opener? ts with
          | none => fail (.unopened "]")
          | some k => if k == 1 then .ok true
            else if (ts[k - 1]?.map (·.is .rbracket)).getD false then isTarget fuel (ts.take k)
            else .ok false
        | _ => .ok false

/-- Reads an assignment: the text `=` parts target and value. -/
def assignment (block : List Token → Parse Program) (ts : List Token) : Parse (Expr × Expr) := do
  if !(ts.head?.map Token.isName).getD false then failAt .badTarget ts
  match ts.findIdx? (·.reads "=") with
  | none => throw (.fault .badOperand)
  | some k =>
    let target ← expression block (ts.take k)
    let value ← expression block (ts.drop (k + 1))
    if ← isTarget target.length target then return (target, value)
    else failAt .badTarget target

/-- Reads a shorthand assignment: `a += b` is `a = a + b`, and `a -= b` is `a = a - b`. -/
def shorthand (block : List Token → Parse Program) (ts : List Token) : Parse (Expr × Expr) := do
  let (word, op) :=
    if ts.any (·.reads "+=") then ("+=", Symbol.plus) else ("-=", Symbol.minus)
  match ts.findIdx? (·.reads word) with
  | none => throw (.fault .broken)
  | some k =>
    let (target, value) ←
      assignment block (ts.take k ++ .sym .assign :: ts.drop (k + 1))
    return (target, target ++ .sym op :: value)

/-- Reads the assignments of a clause of a `for` statement. -/
def clauseAssignments (block : List Token → Parse Program) :
    List (List Token) → Parse Program
  | [] => .ok []
  | part :: parts => do
    let (target, value) ←
      if part.any (·.reads "=") then assignment block part
      else if part.any (·.reads "+=") || part.any (·.reads "-=") then shorthand block part
      else fail (.badStatement "for")
    return .assign target value :: (← clauseAssignments block parts)

/-- Reads a clause of a `for` statement: assignments with commas between them. -/
def clause (block : List Token → Parse Program) (ts : List Token) : Parse Program := do
  clauseAssignments block (← searched (TopLevel.split (·.is .comma) ts))

/-- The three clauses of a `for` statement, parted by semicolons wherever they stand. The middle
one is not empty. -/
def threeClauses (ts : List Token) : Parse (List Token × List Token × List Token) :=
  match ts.findIdx? (·.reads ";") with
  | none => fail (.badStatement "for")
  | some s₁ =>
    let rest := ts.drop (s₁ + 1)
    match rest.findIdx? (·.reads ";") with
    | none => fail (.badStatement "for")
    | some s₂ =>
      let last := rest.drop (s₂ + 1)
      if s₂ == 0 || last.any (·.reads ";") then fail (.badStatement "for")
      else .ok (ts.take s₁, rest.take s₂, last)

/-- Reads a `for` statement from the tokens after its keyword. -/
def forStatement (block : List Token → Parse Program) (ts : List Token) :
    Parse (Program × Nat) := do
  if !startsWith "(" ts then fail (.badStatement "for")
  let rp ← partner ts
  if rp ≤ 1 then fail (.badStatement "for")
  let rest := ts.drop (rp + 1)
  if !startsWith "\x7b" rest then fail (.badStatement "for")
  let rc ← partner rest
  if rc ≤ 1 then fail (.badStatement "for")
  let (first, middle, last) ← threeClauses (inside rp ts)
  let before ← clause block first
  let condition ← expression block middle
  let after ← clause block last
  let code ← block (inside rc rest)
  return (before ++ [.loop condition (code ++ after)], rp + 1 + (rc + 1))

/-- Reads the variables of a `var` statement. -/
def declarations (block : List Token → Parse Program) : List (List Token) → Parse Program
  | [] => .ok []
  | part :: parts =>
    match part with
    | .name s :: .sym .assign :: t :: ts => do
      let value ← expression block (t :: ts)
      return .init s value :: (← declarations block parts)
    | _ => fail .badVar

/-- Reads a `var` statement from the tokens after its keyword. It must stand right after the mark
of a scope's start. -/
def varStatement (block : List Token → Parse Program) (all : List Token) (prev : Option Token)
    (ts : List Token) : Parse (Program × Nat) := do
  if !(prev.map (·.reads "var?")).getD false then fail .strayVar
  let (inner, k) ← upToSemicolon all ts
  let made ← declarations block (← searched (TopLevel.split (·.is .comma) inner))
  return (made, k + 1)

/-- Reads an `else` from the tokens after it: one more arm of a ladder. An `else` without
condition holds always. -/
def elseArm (block : List Token → Parse Program) (ts : List Token) :
    Parse ((Expr × Program) × Nat) := do
  match ts with
  | [] => fail .lastElse
  | t :: rest =>
    if t.reads "if" then
      let g ← guarded block "else if" rest
      return ((g.condition, g.code), g.used + 1)
    else if t.reads "\x7b" then
      let rc ← partner ts
      let code ← block (inside rc ts)
      return (([.val (.bool true)], code), rc + 1)
    else fail (.badStatement "else")

/-- Reads a statement that starts with no keyword: an assignment, a shorthand assignment or an
expression. -/
def plainStatement (block : List Token → Parse Program) (ts : List Token) : Parse Stmt := do
  if ← searched (TopLevel.isParted (·.is .assign) ts) then
    let (target, value) ← assignment block ts
    return .assign target value
  else if (← searched (TopLevel.isParted (·.is .plusAssign) ts))
      || (← searched (TopLevel.isParted (·.is .minusAssign) ts)) then
    let (target, value) ← shorthand block ts
    return .assign target value
  else if (ts.head?.map (·.is .kwFunction)).getD false then fail (.strayToken "function")
  else return .exp (← expression block ts)

/-- The statements read so far, last one first. -/
abbrev Done := List Stmt

/-- Reads the statement that starts with `t`. The result is the statements with the new ones added
and the number of tokens used after `t`. -/
def statement (block : List Token → Parse Program) (all : List Token) (prev : Option Token)
    (done : Done) (t : Token) (ts : List Token) : Parse (Done × Nat) :=
  match t with
  | .sym .varMark => .ok (done, 0)
  | .sym .kwVar => do
    let (made, used) ← varStatement block all prev ts
    return (made.reverse ++ done, used)
  | .sym .kwIf => do
    let g ← guarded block "if" ts
    return (.ladder [(g.condition, g.code)] :: done, g.used)
  | .sym .kwElse =>
    match done with
    | .ladder arms :: before => do
      let (arm, used) ← elseArm block ts
      return (.ladder (arms ++ [arm]) :: before, used)
    | _ => fail .strayElse
  | .sym .kwWhile => do
    let g ← guarded block "while" ts
    return (.loop g.condition g.code :: done, g.used)
  | .sym .kwReturn => do
    let (inner, k) ← upToSemicolon all ts
    return (.ret (← expression block inner) :: done, k + 1)
  | .sym .kwBreak =>
    match ts with
    | [] => .error (.fault .position)
    | s :: _ => if s.is .semi then .ok (.brk :: done, 1) else fail .breakAlone
  | .sym .kwFor => do
    let (made, used) ← forStatement block ts
    return (made.reverse ++ done, used)
  | _ => do
    let (inner, k) ← upToSemicolon all (t :: ts)
    if inner.isEmpty then fail .emptyStatement
    return ((← plainStatement block inner) :: done, k)

/-- Reads statements to the end of the list; `skip` tokens are passed over first. `prev` is the
token just passed. -/
def statements (block : List Token → Parse Program) (all : List Token) :
    Done → Option Token → Nat → List Token → Parse Program
  | done, _, _, [] => .ok done.reverse
  | done, _, skip + 1, t :: ts => statements block all done (some t) skip ts
  | done, prev, 0, t :: ts => do
    let (done, used) ← statement block all prev done t ts
    statements block all done (some t) used ts

/-- Reads a block whose blocks are nested less than `fuel` deep. -/
def block : Nat → List Token → Parse Program
  | 0, _ => .error (.fault .endless)
  | fuel + 1, ts => statements (block fuel) ts [] none 0 ts

end Parser

/-- The statements that a list of tokens makes up. -/
def parse (ts : List Token) : Except Failure Program :=
  Parser.block (ts.length + 1) ts

/-- The statements of a program text. -/
def parseText (source : String) : Except Failure Program := do
  parse (← lex source)

end LittleJ
