import LittleJ.Text.Bytes

/-!
# Cutting text

Lines, words, pieces between a separator, and replacement of one stretch by another. All of them
work on lists of characters and recurse on the list.
-/

namespace LittleJ.Text

/-- The lines of a text. A line ends at a line feed, a carriage return, or the two in a row; the
last line needs no ending. -/
def linesFrom (line : List Char) : List Char → List (List Char)
  | [] => if line.isEmpty then [] else [line.reverse]
  | '\r' :: '\n' :: cs => line.reverse :: linesFrom [] cs
  | c :: cs =>
    if c == '\n' || c == '\r' then line.reverse :: linesFrom [] cs
    else linesFrom (c :: line) cs

/-- The lines of a text, without their endings. -/
def lines (cs : List Char) : List (List Char) :=
  linesFrom [] cs

/-- The words of a text after the letters in `word`, which are in reverse order. -/
def wordsFrom (word : List Char) : List Char → List (List Char)
  | [] => if word.isEmpty then [] else [word.reverse]
  | c :: cs =>
    if isBlank c then
      if word.isEmpty then wordsFrom [] cs else word.reverse :: wordsFrom [] cs
    else wordsFrom (c :: word) cs

/-- The longest stretches without a blank. -/
def words (cs : List Char) : List (List Char) :=
  wordsFrom [] cs

/-- The pieces between the occurrences of `sep`, empty pieces included. -/
def pieces (sep : Char) : List Char → List (List Char)
  | [] => [[]]
  | c :: cs =>
    if c == sep then [] :: pieces sep cs
    else match pieces sep cs with
      | p :: ps => (c :: p) :: ps
      | [] => [[c]]

/-- Replaces the occurrences of `old` from the left, none overlapping another. `skip` characters
of an occurrence that was replaced are still to be passed over. -/
def replaceFrom (old new : List Char) : Nat → List Char → List Char
  | _, [] => []
  | skip + 1, _ :: cs => replaceFrom old new skip cs
  | 0, c :: cs =>
    if old.isPrefixOf (c :: cs) then new ++ replaceFrom old new (old.length - 1) cs
    else c :: replaceFrom old new 0 cs

/-- Replaces every occurrence of `old`, leftmost first. -/
def replace (old new : List Char) (cs : List Char) : List Char :=
  replaceFrom old new 0 cs

end LittleJ.Text
