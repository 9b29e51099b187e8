/-!
# Program text in this library

Some modules hold programs of the language as text. There a brace is written as an angle bracket,
which the language has no use for, and `braces` turns it back.
-/

namespace LittleJ.Text

/-- Turns angle brackets into braces. -/
def braces (s : String) : String :=
  s.map fun c => if c == '⟨' then '\x7b' else if c == '⟩' then '\x7d' else c

theorem toList_braces (s : String) : (braces s).toList =
    s.toList.map fun c => if c == '⟨' then '\x7b' else if c == '⟩' then '\x7d' else c := by
  simp [braces]

end LittleJ.Text
