import LittleJ.Symbol
import LittleJ.Text.Bytes

/-!
# Names

A name starts with a lower-case letter, goes on with word characters and does not end in an
underscore; `_` and `$` alone are names too. A word of the language has the shape of a name but
cannot name a variable.
-/

namespace LittleJ

/-- Whether a text has the shape of a name, words of the language included. -/
def isNameLike (s : String) : Bool :=
  s == "_" || s == "$" ||
    match s.toList with
    | [] => false
    | c :: cs => Text.isLower c && cs.all Text.isWord && (c :: cs).getLast? != some '_'

/-- Whether a text is a word of the language, in use or kept for later. -/
def isKeyword (s : String) : Bool :=
  activeWords.contains s || reservedWords.contains s

/-- Whether a text can name a variable. -/
def isValidName (s : String) : Bool :=
  !isKeyword s && isNameLike s

/-- Whether a text can follow a dot: one or more word characters. -/
def isPropertyName (s : String) : Bool :=
  !s.isEmpty && s.toList.all Text.isWord

end LittleJ
