import LittleJ.Error
import LittleJ.Name
import LittleJ.Number.Numeral
import LittleJ.Text.Cut
import LittleJ.Text.Escape
import LittleJ.Token

/-!
# From text to tokens

Reading goes in three steps. First every line is cut into segments: stretches of code and string
literals; a comment ends its line. Then the code between strings is spread out, so that blanks part
every operator from its neighbours, and cut into words. Last, each word becomes a symbol, a name, a
number, or a name with refinements: `a.b` is read as `a["b"]`.

All segments are cut before any word is looked at, so a string left open is reported before any
other mistake.
-/

namespace LittleJ.Lexer

/-- A part of a line. -/
inductive Segment
  | code (cs : List Char)
  /-- The body of a string literal, without its quotes. -/
  | quoted (cs : List Char)
deriving DecidableEq, Repr

/-- Where the cutting of a line stands. -/
inductive Mode
  | code
  /-- Inside a string literal that started with `quote`; `prev` is the character just passed. -/
  | quoted (quote prev : Char)
deriving DecidableEq, Repr

/-- Whether a character opens a string literal. -/
def isQuote (c : Char) : Bool :=
  c == '"' || c == '\x27'

/-- The segments of a line. `part` holds the characters of the current segment in reverse order.
A quote closes a literal unless a backslash stands right before it. -/
def segmentsFrom : Mode → List Char → List Char → Except Error (List Segment)
  | .code, part, [] => .ok [.code part.reverse]
  | .quoted _ _, _, [] => .error .openString
  | .code, part, c :: cs =>
    if isQuote c then do
      return .code part.reverse :: (← segmentsFrom (.quoted c c) [] cs)
    else if c == '/' && cs.head? == some '/' then .ok [.code part.reverse]
    else segmentsFrom .code (c :: part) cs
  | .quoted quote prev, part, c :: cs =>
    if c == quote && prev != '\\' then do
      return .quoted part.reverse :: (← segmentsFrom .code [] cs)
    else segmentsFrom (.quoted quote c) (c :: part) cs

/-- The segments of a line. -/
def lineSegments (line : List Char) : Except Error (List Segment) :=
  segmentsFrom .code [] line

/-- The segments of a text: those of its lines, blank lines passed over. -/
def segments (cs : List Char) : Except Error (List Segment) := do
  let parts ← ((Text.lines cs).filter fun l => !l.all Text.isBlank).mapM lineSegments
  return parts.flatten

/-- The replacements that part operators from their neighbours, in order. The first ones put blanks
around every sign; the later ones join the signs of longer operators again. -/
def spacing : List (String × String) :=
  [("=", " = "), (",", " , "), (";", " ; "),
    ("(", " ( "), ("[", " [ "), ("\x7b", " \x7b "),
    (")", " ) "), ("]", " ] "), ("\x7d", " \x7d "),
    ("!", " ! "), ("*", " * "), ("/", " / "),
    ("%", " % "), ("+", " + "), ("-", " - "),
    (">", " > "), ("<", " < "), (":", " : "),
    ("&&", " && "), ("||", " || "),
    (">  =", ">="), ("<  =", "<="),
    ("=  =  =", "==="), ("!  =  =", "!=="),
    ("+  =", "+="), ("-  =", "-="),
    ("=  =", "=="), ("!  =", "!="),
    ("+  +", "++"), ("-  -", "--"),
    (">  >", ">>"), ("<  <", "<<"),
    ("*  =", "*="), ("/  =", "/="), ("%  =", "%=")]

/-- Code with its operators parted. -/
def spread (cs : List Char) : List Char :=
  spacing.foldl (fun code p => Text.replace p.1.toList p.2.toList code) cs

/-- The words of a piece of code. -/
def codeWords (cs : List Char) : List String :=
  (Text.words (spread cs)).map String.ofList

/-- The tokens of one refinement. -/
def subscript (word : String) : Except Failure (List Token) :=
  if isPropertyName word then .ok [.sym .lbracket, .val (.str word), .sym .rbracket]
  else .error (.error (.badProperty word))

/-- The tokens of refinements in a row. -/
def subscripts (words : List String) : Except Failure (List Token) := do
  return (← words.mapM subscript).flatten

/-- The texts after which a dot may open a word: any stretch of the three closing brackets. -/
def closers : List String :=
  ["", "\x7d", ")", "]", "\x7d)", ")]", "\x7d)]"]

/-- The words between the dots of a word. -/
def dotted (cs : List Char) : List String :=
  (Text.pieces '.' cs).map String.ofList

/-- The tokens of a word with a dot that is no number. `prev` is the token before it. -/
def dottedWord (prev : Option Token) (word : String) : Except Failure (List Token) :=
  if word.toList.getLast? == some '.' then .error (.error (.trailingDot word))
  else match word.toList with
    | '.' :: cs =>
      match prev with
      | none => .error (.error (.strayDot word))
      | some t =>
        match t.text? with
        | none => .error (.fault .wrongKind)
        | some s =>
          if closers.contains s || isValidName s then subscripts (dotted cs)
          else .error (.error (.strayToken (word ++ s)))
    | cs =>
      match dotted cs with
      | base :: rest =>
        if isValidName base then do return .name base :: (← subscripts rest)
        else .error (.error (.strayToken base))
      | [] => .ok []

/-- The value of a literal word. -/
def literal? : String → Option Value
  | "true" => some (.bool true)
  | "false" => some (.bool false)
  | "null" => some .null
  | _ => none

/-- The tokens of one word of code. -/
def wordTokens (prev : Option Token) (word : String) : Except Failure (List Token) :=
  if reservedWords.contains word then .error (.error (.strayKeyword word))
  else if refusedOperators.contains word then .error (.error (.strayToken word))
  else match literal? word, Symbol.ofText? word with
    | some v, _ => .ok [.val v]
    | none, some y => .ok [.sym y]
    | none, none =>
      if isValidName word then .ok [.name word]
      else match Number.read? word with
        | some x =>
          if Number.isDecimalText word then .ok [.val (.num x)]
          else .error (.error (.octalNumber word))
        | none =>
          if word.toList.contains '.' then dottedWord prev word
          else .error (.error (.strayToken word))

/-- Reads words after the tokens `done`, which are in reverse order. -/
def readWords : List Token → List String → Except Failure (List Token)
  | done, [] => .ok done
  | done, w :: ws => do
    let ts ← wordTokens done.head? w
    readWords (ts.reverse ++ done) ws

/-- Reads segments after the tokens `done`, which are in reverse order. -/
def readSegments : List Token → List Segment → Except Failure (List Token)
  | done, [] => .ok done
  | done, .code cs :: rest => do
    readSegments (← readWords done (codeWords cs)) rest
  | done, .quoted cs :: rest =>
    match Text.Escape.decode cs with
    | some body => readSegments (.val (.str (String.ofList body)) :: done) rest
    | none => .error (.fault .badOperand)

end Lexer

/-- The tokens of a program text. The mark of the scope's start comes first. -/
def lex (source : String) : Except Failure (List Token) :=
  match Lexer.segments source.toList with
  | .error e => .error (.error e)
  | .ok parts => do
    let done ← Lexer.readSegments [] parts
    return .sym .varMark :: done.reverse

end LittleJ
