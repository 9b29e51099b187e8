/-!
# Text in columns

A column has a width. A text that is shorter is filled up with blanks, and one that is longer is
left as it is.
-/

namespace LittleJ.Text

/-- Fills a text up on the right. -/
def padRight (width : Nat) (s : String) : String :=
  s ++ String.ofList (List.replicate (width - s.length) ' ')

/-- Fills a text up on the left. -/
def padLeft (width : Nat) (s : String) : String :=
  String.ofList (List.replicate (width - s.length) ' ') ++ s

end LittleJ.Text
