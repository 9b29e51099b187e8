/-!
# Text as bytes

Program text is a sequence of bytes. A byte is held as the character with its number, so a text is
a `String` whose characters are all below 256, and its length is its number of bytes.

The character classes below are those of the language's own words and spaces. They know ASCII
only: no byte above 127 is a letter, a digit or a blank.
-/

namespace LittleJ.Text

/-- The bytes of the UTF-8 form of `s`, one character each. -/
def ofUtf8 (s : String) : String :=
  String.ofList (s.toUTF8.toList.map fun b => Char.ofNat b.toNat)

/-- Whether a character separates words: tab, line feed, vertical tab, form feed, carriage return
or space. -/
def isBlank (c : Char) : Bool :=
  (9 ≤ c.toNat && c.toNat ≤ 13) || c.toNat == 32

/-- Whether a character is a decimal digit. -/
def isDigit (c : Char) : Bool :=
  '0' ≤ c && c ≤ '9'

/-- Whether a character is a lower-case letter. -/
def isLower (c : Char) : Bool :=
  'a' ≤ c && c ≤ 'z'

/-- Whether a character may stand inside a word: a letter, a digit or an underscore. -/
def isWord (c : Char) : Bool :=
  isLower c || ('A' ≤ c && c ≤ 'Z') || isDigit c || c == '_'

end LittleJ.Text
