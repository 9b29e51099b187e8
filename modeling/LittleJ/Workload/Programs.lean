import LittleJ.Number.Layout
import LittleJ.Text.Braces

/-!
# Programs of any size

Each program here grows with a natural number: with the statements it has, the rounds of its loop or
the depth of its calls. Those that are run leave their result in a variable `total`.

Braces are written as angle brackets here; see `Text.braces`.
-/

namespace LittleJ.Workload

open Text (braces)

/-- A size as a numeral of the language. -/
def numeral (n : Nat) : String :=
  Number.integerText n

/-- A text for every number below `n`, in order. -/
def repeated (n : Nat) (text : Nat → String) : String :=
  String.join ((List.range n).map text)

/-- Statements with a name, a call, a refinement and a comparison in each. -/
def statements (n : Nat) : String :=
  "var total = 0, table = [1, 2, 3], word = 'word';\n" ++
    repeated n (fun k =>
      "total = -total + table[" ++ numeral (k % 3) ++ "] * (len(word + 'text') - " ++ numeral k ++
        ") + ord(word[0]) / 2;\n") ++
    "print(-total);\n"

/-- Functions with a loop and two ways out, and a line that uses them. -/
def functions (n : Nat) : String :=
  braces "var total = 0, limit = 10;\n" ++
    repeated n (fun k =>
      braces "total = function (a, b) ⟨
    var sum = 0, i = 0;
    for (i = a; i < b; i += 1) ⟨ sum += i * " ++ numeral k ++ braces "; ⟩
    if (sum > limit) ⟨ return sum; ⟩ else if (sum === limit) ⟨ return null; ⟩
    return [sum, ⟨sum: sum⟩];
⟩;\n") ++
    braces
    "while (limit > 0) ⟨ limit -= 1; ⟩\nif (limit === 0) ⟨ print(limit); ⟩\nlimit = [total];\n" ++
    "print(limit);\n"

/-- A loop that adds `2 * i - 0.5` in round `i`. -/
def halfSteps (n : Nat) : String :=
  "var total = 0, i = 0;\nfor (i = 0; i < " ++ numeral n ++ braces "; i += 1) ⟨
    if (i % 2 === 0) ⟨ total += i + i; ⟩ else ⟨ total += 2 * i; ⟩
    total -= 0.5;
⟩\n"

/-- The `n`-th Fibonacci number, by its recursive definition. -/
def fibonacci (n : Nat) : String :=
  braces "var fib = function (n) ⟨
    if (n < 2) ⟨ return n; ⟩
    return fib(n - 1) + fib(n - 2);
⟩, total = null;\ntotal = fib(" ++ numeral n ++ ");\n"

/-- Builds an array of objects and sums up what they hold. -/
def inventory (n : Nat) : String :=
  "var items = [], item = null, i = 0, total = 0;\nfor (i = 0; i < " ++ numeral n ++
    braces "; i += 1) ⟨
    append(items, ⟨id: i, price: 100 + i, tags: ['new', 'red', 'small']⟩);
⟩
for (i = 0; i < len(items); i += 1) ⟨
    item = items[i];
    total += item.id + item.price + len(item.tags);
⟩\n"

/-- Calls the built-in functions on numbers and texts in each round. -/
def builtinCalls (n : Nat) : String :=
  "var total = 0, i = 0;\nfor (i = 0; i < " ++ numeral n ++ braces "; i += 1) ⟨
    total += math.abs(0 - i);
    total += math.floor(2.7) + math.ceil(2.2) + math.round(2.6);
    total += math.sqrt(16) + math.pow(2, 3);
    total += math.sin(0) + math.tan(0) + math.asin(0) + math.acos(1) + math.log(1);
    total += ord(chr(65 + i % 26));
    total += len(str(i));
    total += math.E;
    total += math.PI;
    total += math.atan2(1, 1);
⟩\n"

/-- Calls two functions that live through the whole loop and one that is made in each round; all
three come from one literal, and each counts on its own. -/
def counters (n : Nat) : String :=
  braces "var total = 0, i = 0, first = null, second = null, fresh = null,
counter = function (count) ⟨
    return function () ⟨ count += 1; return count; ⟩;
⟩;
first = counter(0);
second = counter(9);
for (i = 0; i < " ++ numeral n ++ braces "; i += 1) ⟨
    fresh = counter(i - 1);
    total += first() + second() + fresh();
⟩\n"

end LittleJ.Workload
