/-!
# Errors and faults

An *error* is one of the language's own: the program is wrong, and the message says how. Each cause
is a constructor that carries what the message shows; the wording is in `Error.message` alone.

A *fault* is a failure below the language: an operation of the interpreter itself cannot go on. A
fault has no message, except for the few that carry one.
-/

namespace LittleJ

/-- The families of errors. -/
inductive ErrorKind
  | plain
  | malformed
  | type
  | runtime
  | reference
  | key
  | index
  | assertion
deriving DecidableEq, Repr, Inhabited

/-- The word before the colon when an interpreter reports an error. -/
def ErrorKind.title : ErrorKind → String
  | plain => "Error"
  | malformed => "SyntaxError"
  | type => "TypeError"
  | runtime => "RuntimeError"
  | reference => "ReferenceError"
  | key => "KeyError"
  | index => "IndexError"
  | assertion => "AssertionError"

/-- What is wrong with a program. An `excerpt` shows the tokens around the place. -/
inductive Error
  /-- A line ends inside a string literal. -/
  | openString
  /-- A dot is followed by something that is no property name. -/
  | badProperty (word : String)
  | trailingDot (word : String)
  /-- A dot with nothing before it to select from. -/
  | strayDot (word : String)
  | strayToken (word : String)
  | strayKeyword (word : String)
  /-- A number with a leading zero. -/
  | octalNumber (word : String)
  /-- An opening bracket has no partner. -/
  | unclosed (excerpt : String)
  /-- A closing bracket has no partner. -/
  | unopened (bracket : String)
  | expected (word excerpt : String)
  | badFunction
  /-- A `var` that is not the first statement of its scope. -/
  | strayVar
  | badVar
  /-- A statement that starts with `word` and goes on wrongly. -/
  | badStatement (word : String)
  | strayElse
  | lastElse
  | breakAlone
  | emptyStatement
  | badTarget (excerpt : String)
  /-- A scope nested too deeply. -/
  | scopeDepth
  /-- A call nested too deeply. -/
  | callDepth
  | loopTime
  | undefined (name : String)
  | redefined (name : String)
  | badObject (excerpt : String)
  | badArray
  | emptyRefinement
  | keyNotString
  | missingKey (key : String)
  /-- An index past the end of an array or a string. -/
  | outOfRange (what index : String)
  /-- A call of a function of the language with the wrong number of arguments, which are shown. -/
  | argumentCount (shown : String)
  /-- A call of a native with the wrong number of arguments. -/
  | nativeArgumentCount
  | noReturn
  | strayOperator (op : String)
  | chained (op other : String)
  | badUnary (op : String)
  | badBinary (op excerpt : String)
  /-- An expression that comes to something that is no value. -/
  | noValue
  /-- An expression that does not come to one thing. -/
  | noExpression (excerpt : String)
  | noLength (type shown : String)
  | noKeys (type : String)
  | deleteKey
  | deleteIndex
  | deleteCall
  | appendCall
  | assertion (text : String)
  | ordCall
  | chrCall
  | chrRange
  | mathCall
deriving DecidableEq, Repr, Inhabited

namespace Error

/-- The family of an error. -/
def kind : Error → ErrorKind
  | openString | badProperty _ | trailingDot _ | strayDot _ | strayToken _ | strayKeyword _
  | octalNumber _ | unclosed _ | unopened _ | expected _ _ | badFunction | strayVar | badVar
  | badStatement _ | strayElse | lastElse | breakAlone | emptyStatement | badObject _ | badArray
  | emptyRefinement | strayOperator _ | chained _ _ => .malformed
  | badTarget _ | keyNotString | argumentCount _ | nativeArgumentCount | noReturn | badUnary _
  | badBinary _ _ | noValue | noLength _ _ | noKeys _ | deleteCall | appendCall | ordCall | chrCall
  | mathCall => .type
  | scopeDepth | callDepth | loopTime => .runtime
  | undefined _ | redefined _ => .reference
  | missingKey _ | deleteKey => .key
  | outOfRange _ _ | deleteIndex => .index
  | assertion _ => .assertion
  | noExpression _ | chrRange => .plain

/-- The message of an error. -/
def message : Error → String
  | openString => "EOL while scanning string literal"
  | badProperty w => "illegal refinement " ++ w
  | trailingDot w => "unexpected trailing . (dot) " ++ w
  | strayDot w => "unexpected refinement " ++ w
  | strayToken w => "unexpected token " ++ w
  | strayKeyword w => "unexpected keyword " ++ w
  | octalNumber w => "illegal (octal) number " ++ w
  | unclosed e => "unbalanced bracket" ++ e
  | unopened b => "unbalanced bracket " ++ b
  | expected w e => "expected " ++ w ++ e
  | badFunction => "bad function literal"
  | strayVar => "unexpected var statement"
  | badVar => "illegal var statement"
  | badStatement w => "illegal " ++ w ++ " statement"
  | strayElse => "misplaced else statement"
  | lastElse => "unexpected else (last token)"
  | breakAlone => "expected ; (semicolon) after break"
  | emptyStatement => "empty statement"
  | badTarget e => "illegal LHS in assignment" ++ e
  | scopeDepth => "maximum scope depth exceeded"
  | callDepth => "maximum call depth exceeded"
  | loopTime => "looping for to long"
  | undefined n => n ++ " is not defined"
  | redefined n => n ++ " is already defined"
  | badObject e => "illegal object literal" ++ e
  | badArray => "illegal array literal"
  | emptyRefinement => "illegal refinement"
  | keyNotString => "object keys must be strings"
  | missingKey k => k
  | outOfRange w i => w ++ " index out of range ... " ++ i
  | argumentCount s => "incorrect no. of arguments ... (" ++ s ++ ")"
  | nativeArgumentCount => "incorrect no. of arguments"
  | noReturn => "non-returning function"
  | strayOperator op => "unexpected operator " ++ op
  | chained op other =>
    if op == other then "operator " ++ op ++ " cannot be chained"
    else "operators " ++ op ++ " and " ++ other ++ " cannot be chained"
  | badUnary op => "bad operand for unary " ++ op
  | badBinary op e => "bad operands for binary " ++ op ++ e
  | noValue => "illegal expression (of unknown type)"
  | noExpression e => "illegal expression" ++ e
  | noLength t s => t ++ " has no len(): " ++ s
  | noKeys t => t ++ " has no keys()"
  | deleteKey => "del() called with non-existent key"
  | deleteIndex => "invalid array index passed to del()"
  | deleteCall => "bad call to del()"
  | appendCall => "cannot append() to non-array"
  | assertion t => t
  | ordCall => "non-character supplied to ord()"
  | chrCall => "chr() requires an integer"
  | chrRange => "chr() arg not less than 256"
  | mathCall => "methods of math accept numbers only"

/-- The line an interpreter writes about an error. -/
def report (e : Error) : String :=
  e.kind.title ++ ": " ++ e.message

end Error

/-- What the interpreter itself cannot do. -/
inductive Fault
  /-- Something is not of the kind that the step at hand is made for. -/
  | broken
  /-- A position lies outside a list. -/
  | position
  /-- A table has no such entry. -/
  | absentEntry
  /-- A bad index cannot be shown in its own report. -/
  | unnamed
  /-- A number is too large for the form it should take. -/
  | overflow
  /-- A value contains itself, and walking through it never ends. -/
  | endless
  /-- An operation is asked of something that has none such. -/
  | wrongKind
  /-- An operand lies outside the domain of the operation. -/
  | badOperand
  | zeroDivision
  | noFile
  /-- Any other, with its text. -/
  | internal (text : String)
deriving DecidableEq, Repr, Inhabited

/-- Why a computation has no result. -/
inductive Failure
  | error (e : Error)
  | fault (f : Fault)
deriving DecidableEq, Repr, Inhabited

end LittleJ
