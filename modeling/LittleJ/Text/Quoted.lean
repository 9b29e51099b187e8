/-!
# Quoted text in listings

A listing shows a text in single quotes, or in double quotes if it holds a single quote and no
double one. The backslash, the quote that encloses the text and the control characters are
escaped, and so are the characters of the upper half that leave no mark.
-/

namespace LittleJ.Text

/-- A hexadecimal digit. -/
def hexDigit (n : Nat) : Char :=
  if n < 10 then Char.ofNat ('0'.toNat + n) else Char.ofNat ('a'.toNat + (n - 10))

/-- Whether a byte leaves a mark when shown. -/
def isVisible (c : Char) : Bool :=
  let n := c.toNat
  (32 ≤ n && n < 127) || (0xA1 ≤ n && n != 0xAD)

/-- How a character is shown between quotes `q`. -/
def shownIn (q c : Char) : List Char :=
  if c == '\\' then ['\\', '\\']
  else if c == q then ['\\', q]
  else if c == '\n' then ['\\', 'n']
  else if c == '\r' then ['\\', 'r']
  else if c == '\t' then ['\\', 't']
  else if isVisible c then [c]
  else ['\\', 'x', hexDigit (c.toNat / 16 % 16), hexDigit (c.toNat % 16)]

/-- A text as a listing shows it. -/
def quoted (s : String) : String :=
  let cs := s.toList
  let q := if cs.contains '\x27' && !cs.contains '"' then '"' else '\x27'
  String.ofList (q :: cs.flatMap (shownIn q) ++ [q])

end LittleJ.Text
