/-!
# Backslash escapes

The body of a string literal may name a byte by an escape. `decode` gives the bytes the body
stands for. A backslash before a character that starts no escape is itself, and so is the
character.
-/

namespace LittleJ.Text.Escape

/-- The byte a one-letter escape stands for. -/
def letter? : Char → Option Char
  | '\\' => some '\\'
  | '\x27' => some '\x27'
  | '"' => some '"'
  | 'a' => some '\x07'
  | 'b' => some '\x08'
  | 'f' => some '\x0c'
  | 'n' => some '\n'
  | 'r' => some '\r'
  | 't' => some '\t'
  | 'v' => some '\x0b'
  | _ => none

/-- The value of an octal digit. -/
def octal? (c : Char) : Option Nat :=
  if '0' ≤ c && c ≤ '7' then some (c.toNat - '0'.toNat) else none

/-- The value of a hexadecimal digit. -/
def hex? (c : Char) : Option Nat :=
  if '0' ≤ c && c ≤ '9' then some (c.toNat - '0'.toNat)
  else if 'a' ≤ c && c ≤ 'f' then some (c.toNat - 'a'.toNat + 10)
  else if 'A' ≤ c && c ≤ 'F' then some (c.toNat - 'A'.toNat + 10)
  else none

/-- Where a reader of escapes stands. -/
inductive State
  /-- Between characters. -/
  | plain
  /-- After a backslash. -/
  | escape
  /-- Inside an octal escape of value `n` that may take `left` more digits. -/
  | octal (n left : Nat)
  /-- After a backslash and an x: no digit read. -/
  | hex
  /-- One hexadecimal digit read. -/
  | hexDigit (n : Nat)

/-- The byte with number `n` modulo 256. -/
def byte (n : Nat) : Char :=
  Char.ofNat (n % 256)

/-- One step: what is written for the character and the state after it. `none` means that the
character ends no escape it could be in. -/
def step : State → Char → Option (List Char × State)
  | .plain, c => if c == '\\' then some ([], .escape) else some ([c], .plain)
  | .escape, c =>
    match letter? c with
    | some d => some ([d], .plain)
    | none =>
      match octal? c with
      | some n => some ([], .octal n 2)
      | none => if c == 'x' then some ([], .hex) else some (['\\', c], .plain)
  | .octal n left, c =>
    match left, octal? c with
    | left + 1, some d => some ([], .octal (8 * n + d) left)
    | _, _ => if c == '\\' then some ([byte n], .escape) else some ([byte n, c], .plain)
  | .hex, c => (hex? c).map fun n => ([], .hexDigit n)
  | .hexDigit n, c => (hex? c).map fun d => ([byte (16 * n + d)], .plain)

/-- What is written at the end of the text. `none` means that an escape is unfinished. -/
def finish : State → Option (List Char)
  | .plain => some []
  | .octal n _ => some [byte n]
  | .escape | .hex | .hexDigit _ => none

/-- The characters that a text stands for when read from a given state. -/
def decodeFrom : State → List Char → Option (List Char)
  | s, [] => finish s
  | s, c :: cs => do
    let (out, s') ← step s c
    return out ++ (← decodeFrom s' cs)

/-- The characters that the body of a string literal stands for, or `none` when an escape is cut
short or lacks a digit. -/
def decode (cs : List Char) : Option (List Char) :=
  decodeFrom .plain cs

end LittleJ.Text.Escape
