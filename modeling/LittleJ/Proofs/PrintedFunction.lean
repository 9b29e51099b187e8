import LittleJ.Proofs.FunctionsRead
import LittleJ.Proofs.PrintedToken
import LittleJ.Proofs.ReadBack

/-!
# Printed functions read back

A function is printed with the tokens of its body, blanks between them. Read again, the text gives
the same tokens, so it gives the same function. Nothing is asked of the brackets in the body but
what reading it has shown: the count of braces is level there, and the search for the end of the
declaration passes over it.
-/

namespace LittleJ

open Lexer

/-! ## The text of a function -/

theorem word_params {params : List String} (h : ∀ s ∈ params, isValidName s = true) :
    Word (", ".intercalate params).toList (writtenParams params) := by
  have hparts : ∀ p ∈ params.map fun s => (s, [Token.name s]), Word p.1.toList p.2 :=
    List.forall_mem_map.2 fun s hs => word_name (h s hs)
  have hlist := word_intercalate closed_comma (List.cons_ne_nil _ _)
      (endsWord_separator (by decide)) hparts
  have hflat :
      [Token.sym .comma].intercalate ((params.map fun s => (s, [Token.name s])).map (·.2)) =
      writtenParams params := by
    clear * -
    induction params with
    | nil => rfl
    | cons s params ih => cases params <;> simp_all [List.intercalate, writtenParams]
  have htexts : (params.map fun s => (s, [Token.name s])).map (·.1) = params := by
    rw [List.map_map]
    exact List.map_id params
  rwa [hflat, htexts] at hlist

/-- The tokens of a printed function. -/
def Function.tokens (f : Function) : List Token :=
  .sym .kwFunction :: framed (writtenParams f.params) f.source

theorem Function.word_print {f : Function} (hf : f.WasRead)
    (h : ∀ t ∈ f.source, t.isPrintable = true) :
    ∃ text, (∀ σ : Store, σ.printToken (.func f) = .ok text) ∧ Word text.toList f.tokens := by
  obtain ⟨params, body, source⟩ := f
  obtain ⟨texts, hprint, hsource⟩ := Token.word_printAll hf.source h
  refine ⟨"function (" ++ ", ".intercalate params ++ ") \x7b " ++ " ".intercalate texts ++ " \x7d",
    fun σ => ?_, ?_⟩
  · have hbody : Token.printAll σ.print source = .ok texts := hprint σ
    rw [Store.printToken, Token.print, hbody]
    rfl
  · have hopen : Closed "function (".toList [.sym .kwFunction, .sym .lparen] :=
      (word_symbol .kwFunction).append (closed_blank.append (closed_separator (by decide) rfl))
        (List.cons_ne_nil _ _) (endsWord_blank _)
    have hmiddle : Closed ") \x7b ".toList [.sym .rparen, .sym .lbrace] :=
      (closed_separator (by decide) rfl : Closed [')'] [.sym .rparen]).append
        (closed_blank.append
          ((closed_separator (by decide) rfl : Closed ['\x7b'] [.sym .lbrace]).append closed_blank))
    have hclose : Closed " \x7d".toList [.sym .rbrace] :=
      closed_blank.append (closed_separator (by decide) rfl)
    have hbody := hmiddle.append (hsource.append hclose (List.cons_ne_nil _ _) (endsWord_blank _))
    have hall := hopen.append ((word_params hf.params).append hbody (by simp)
      (endsWord_separator (by decide)))
    simpa [Function.tokens, framed, Function.source, Function.params] using Closed.word hall

/-! ## Reading the text -/

theorem isFree_of_isValidName {s : String} (h : isValidName s = true) : isFree s = true := by
  rw [isFree, List.all_eq_true]
  intro y _
  simpa using text_ne_of_isValidName h y

namespace TopLevel

open LittleJ.Bracket

variable {p : Token → Bool} {inner code : List Token}

/-- A search passes over a printed function. -/
theorem lacks_function (hword : p (.sym .kwFunction) = false) (hinner : Level "(" ")" inner)
    (hcode : Level "\x7b" "\x7d" code) : Lacks p (.sym .kwFunction :: framed inner code) := by
  obtain ⟨round, braces, hround, hbraces, hframe⟩ := Parser.framed_of_level hinner hcode
  have hbehind : Lacks p (round ++ (braces ++ [])) := .pair rfl hround (.pair rfl hbraces .nil)
  rw [List.append_nil, ← hframe] at hbehind
  exact .cons (by decide) hword hbehind

end TopLevel

namespace Parser

open LittleJ.Bracket LittleJ.TopLevel LittleJ.Grammar

variable {f : Function}

theorem isFree_params (hf : f.WasRead) : f.params.all isFree = true :=
  List.all_eq_true.2 fun s hs => isFree_of_isValidName (hf.params s hs)

theorem derives_tokens (hf : f.WasRead) : Derives (.expression f.tokens [.func f]) := by
  have hframed := framed_of_level ((nested_writtenParams (isFree_params hf)).level .round) hf.level
  have hderives := Derives.function hframed (parameters_writtenParams f.params) hf.nonempty
      (derives_block hf.body) .nil
  rw [List.append_nil] at hderives
  cases f
  exact hderives

/-- The tokens of a function that was read declare the function. -/
theorem parse_function (hf : f.WasRead) :
    parse (.sym .varMark :: declared f.tokens) = .ok [.init "r" [.func f]] := by
  have hinner : Level "(" ")" (writtenParams f.params) :=
    (nested_writtenParams (isFree_params hf)).level .round
  have hlacks : ∀ {p : Token → Bool}, p (.sym .kwFunction) = false → p (.name "r") = false →
      p (.sym .assign) = false → Lacks p (.name "r" :: .sym .assign :: f.tokens) := by
    intro p hword hname hassign
    exact .cons (by decide) hname (.cons (by decide) hassign (lacks_function hword hinner hf.level))
  exact parse_declared (List.cons_ne_nil _ _) (hlacks rfl rfl rfl) (hlacks rfl rfl rfl)
    (derives_tokens hf)

end Parser

/-- **A printed function reads back**: a function written in a program, at any depth, whose body has
no other numbers than whole ones of at most 53 bits and no strings with backslashes or line breaks,
is printed as a text that declares the very same function. -/
theorem printed_function_reads_back {source : String} {p : Program} (hp : parseText source = .ok p)
    {f : Function} (hf : p.Holds f) (hplain : ∀ t ∈ f.source, t.isPrintable = true) :
    ∃ text, (∀ σ : Store, σ.printToken (.func f) = .ok text) ∧
      parseText ("var r = " ++ text ++ ";") = .ok [.init "r" [.func f]] := by
  have hread := wasRead_of_parseText hp hf
  obtain ⟨text, hprint, hword⟩ := Function.word_print hread hplain
  refine ⟨text, hprint, ?_⟩
  rw [parseText, lex_declared hword]
  exact Parser.parse_function hread

/-- A sum of strings with the texts of braces, a property and a number. -/
def bracedSum : Expr :=
  [.val (.str "\x7b"), .sym .plus, .name "a", .sym .lbracket, .val (.str "b"),
    .sym .rbracket, .sym .plus, .val (.num (Number.ofDecimal 10 0)), .sym .plus, .val (.str "\x7d")]

/-- The function that returns the sum. -/
def bracedFunction : Function :=
  .mk [] [.ret bracedSum] (.sym .kwReturn :: (bracedSum ++ [.sym .semi]))

/-- A function that returns this function from a block. -/
def maker : Function :=
  .mk ["a"] [.ladder [([.name "a"], [.ret [.func bracedFunction]])]]
    (.sym .kwIf :: framed [.name "a"] (.sym .kwReturn :: (bracedFunction.tokens ++ [.sym .semi])))

/-- A text that sets a variable to this one. -/
def makerText : String :=
  "f = function (a) \x7b if (a) \x7b return function () \x7b return '\x7b' + a.b + 10 + '\x7d'; \x7d; \x7d \x7d;"

/-- A function from the body of another, with braces in its strings, reads back. -/
theorem printed_function_reads_back_braced :
    parseText makerText = .ok [.assign [.name "f"] [.func maker]] ∧
    Program.Holds [.assign [.name "f"] [.func maker]] bracedFunction ∧
    (∀ t ∈ bracedFunction.source, t.isPrintable = true) ∧
    ∃ text, (∀ σ : Store, σ.printToken (.func bracedFunction) = .ok text) ∧
      parseText ("var r = " ++ text ++ ";") = .ok [.init "r" [.func bracedFunction]] := by
  have hp : parseText makerText = .ok [.assign [.name "f"] [.func maker]] := rfl
  have hreturned : (Stmt.ret [.func bracedFunction]).Holds bracedFunction :=
    .here (List.mem_singleton_self _) (List.mem_singleton_self _)
  have hblock :
      Stmt.Holds bracedFunction (.ladder [([.name "a"], [.ret [.func bracedFunction]])]) :=
    .inBlock (List.mem_singleton_self _) (List.mem_singleton_self _) hreturned
  have hmaker : (Stmt.assign [.name "f"] [.func maker]).Holds bracedFunction :=
    .inBody (List.mem_cons_of_mem _ (List.mem_singleton_self _)) (List.mem_singleton_self _)
      (List.mem_singleton_self _) hblock
  have hholds : Program.Holds [.assign [.name "f"] [.func maker]] bracedFunction :=
    ⟨_, List.mem_singleton_self _, hmaker⟩
  have hplain : ∀ t ∈ bracedFunction.source, t.isPrintable = true :=
    List.all_eq_true.1 (by decide +kernel)
  exact ⟨hp, hholds, hplain, printed_function_reads_back hp hholds hplain⟩

end LittleJ
