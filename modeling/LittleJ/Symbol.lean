/-!
# Symbols and reserved words

A program is made of words. Some are *symbols*: the keywords that start or shape a statement, the
brackets, the separators and the operators. The set is closed, so a symbol is one of finitely many
constructors and its spelling is a function on them.

Beside the symbols stand the words that no program may use: keywords the language keeps for later,
and operators of larger languages that are refused on sight.
-/

namespace LittleJ

/-- A keyword, bracket, separator or operator. -/
inductive Symbol
  /-- The mark before the first statement of a scope, the one place where `var` may stand. -/
  | varMark
  | kwVar
  | kwIf
  | kwElse
  | kwWhile
  | kwFor
  | kwBreak
  | kwFunction
  | kwReturn
  | lparen
  | rparen
  | lbracket
  | rbracket
  | lbrace
  | rbrace
  | comma
  | semi
  | colon
  | assign
  | plusAssign
  | minusAssign
  | bang
  | star
  | slash
  | percent
  | plus
  | minus
  | gt
  | lt
  | ge
  | le
  | same
  | differs
  | both
  | either
deriving DecidableEq, Repr, Inhabited

namespace Symbol

/-- How a symbol is spelled in program text. -/
def text : Symbol → String
  | varMark => "var?"
  | kwVar => "var"
  | kwIf => "if"
  | kwElse => "else"
  | kwWhile => "while"
  | kwFor => "for"
  | kwBreak => "break"
  | kwFunction => "function"
  | kwReturn => "return"
  | lparen => "("
  | rparen => ")"
  | lbracket => "["
  | rbracket => "]"
  | lbrace => "\x7b"
  | rbrace => "\x7d"
  | comma => ","
  | semi => ";"
  | colon => ":"
  | assign => "="
  | plusAssign => "+="
  | minusAssign => "-="
  | bang => "!"
  | star => "*"
  | slash => "/"
  | percent => "%"
  | plus => "+"
  | minus => "-"
  | gt => ">"
  | lt => "<"
  | ge => ">="
  | le => "<="
  | same => "==="
  | differs => "!=="
  | both => "&&"
  | either => "||"

/-- Every symbol once. -/
def all : List Symbol :=
  [varMark, kwVar, kwIf, kwElse, kwWhile, kwFor, kwBreak, kwFunction, kwReturn, lparen, rparen,
    lbracket, rbracket, lbrace, rbrace, comma, semi, colon, assign, plusAssign, minusAssign, bang,
    star, slash, percent, plus, minus, gt, lt, ge, le, same, differs, both, either]

/-- The symbol spelled `s`, if there is one. -/
def ofText? (s : String) : Option Symbol :=
  all.find? fun y => y.text == s

/-- Every symbol is in the list of all symbols. -/
theorem mem_all (y : Symbol) : y ∈ all := by
  cases y <;> simp [all]

end Symbol

/-- Words the language keeps for later; a program that uses one is refused. -/
def reservedWords : List String :=
  ["case", "class", "catch", "const", "continue", "debugger", "default", "delete", "do",
    "export", "extends", "finally", "import", "in", "instanceof", "let", "new", "super",
    "switch", "this", "throw", "try", "typeof", "void", "with", "yield",
    "enum",
    "implements", "package", "protected", "static", "interface", "private", "public",
    "Infinity", "NaN", "undefined"]

/-- Words with a meaning, the three literal words among them. -/
def activeWords : List String :=
  ["var", "if", "else", "while", "for", "break", "function", "return", "true", "false", "null"]

/-- Operators of larger languages, refused on sight. -/
def refusedOperators : List String :=
  ["==", "!=", "<<", ">>", "*=", "/=", "%=", "++", "--"]

end LittleJ
