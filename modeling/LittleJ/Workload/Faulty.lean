import LittleJ.Text.Braces

/-!
# Faulty programs

Programs each of which fails with an error of the language: in its text, in its form, or when it is
run under a loop limit and a depth limit.

Braces are written as angle brackets here; see `Text.braces`.
-/

namespace LittleJ.Workload

open Text (braces)

/-- Texts that cannot be cut into tokens. -/
def faultyTexts : List String :=
  ["var s = 'open;", "var s = \"open;", "var a = b.;", "var a = .b;", "var a = b.1;",
    "var a = 012;", "var a = b @ c;", "var a = b # c;", "var a = b ? 1 : 2;", "var a = b ~ c;",
    "switch (a) 1;", "var a = new b;"]

/-- Texts whose tokens form no program. -/
def faultyForms : List String :=
  ["var a = (1;", "var a = 1);", "var a = [1, 2;", "var a === 1;", "var 1 = 2;",
    "var a 1;", "print(1)",
    ";", "a = 1; var b = 2;", "if true 1;", braces "if (true) ⟨ 1;", braces "else ⟨ 1; ⟩",
    "while true 1;", "while (true) 1;", braces "for (1; 2) ⟨ 3; ⟩", "break 1;",
    braces "var f = function ⟨ return 1; ⟩;", braces "var f = function (1) ⟨ return 1; ⟩;",
    braces "if (true) ⟨ 1; ⟩ else 2;", "1 = 2;"]

/-- Programs that fail when they are run. -/
def faultyRuns : List String :=
  ["x;", "x = 1;", "var a = 1; a.b;", "var a = 1; a[0];", "var a = [1]; a[1];", "-'a';",
    "1 < 2 < 3;", braces "var a = ⟨b: 1⟩; a.c;", braces "var a = ⟨b: 1⟩; a[0];",
    "var s = 'abc'; s[3];", "var a = 1, b = a();",
    braces "var f = function (a) ⟨ return a; ⟩; f();",
    braces "var f = function () ⟨ 1; ⟩; f();", "len(1);", "len();", "keys(1);", "del([1], 1);",
    braces "del(⟨a: 1⟩, 'b');", "del(1, 2);", "append(1, 2);", "assert(false, 'no');", "ord('ab');",
    "chr(1.5);", "chr(256);", "math.sqrt('4');", "1 + 'a';", "'a' - 'b';", "!1 + 2;", "1 < 'a';",
    braces "while (true) ⟨ 1; ⟩",
    braces "var f = function (n) ⟨ return f(n + 1); ⟩; f(0);"]

/-- All faulty programs. -/
def faulty : List String :=
  faultyTexts ++ faultyForms ++ faultyRuns

end LittleJ.Workload
