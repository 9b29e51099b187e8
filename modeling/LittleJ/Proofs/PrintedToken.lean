import LittleJ.Proofs.Lexemes
import LittleJ.Proofs.LineByLine
import LittleJ.Store.Printer
import Mathlib.Tactic.Choose

/-!
# Printed tokens read back

The tokens of a text are printed one by one, with blanks between them. Read again, the printed text
gives the same tokens, however close together they stood before: a blank parts any two words, and no
sign joins another one over a blank. What is asked of the tokens is only that they can be printed as
they are. Numbers must be whole and not too large, and strings must do without backslashes and line
breaks.
-/

namespace LittleJ

open Lexer Number Token

/-- Whether a token of code is read again from its printed form: a number must be whole, of at most
53 bits, and a string has no backslashes and no line breaks. -/
def Token.isPrintable : Token → Bool
  | .val (.num x) => isWhole x && (toInt? x).any (·.natAbs ≤ 2 ^ 53)
  | .val (.str s) => s.toList.all fun c => c != '\\' && !Text.isBreak c
  | _ => true

/-- A number that is not negative is read again from its digits. -/
theorem Number.IsInt.eq_ofDecimal {x : Float} {n : Int} (h : IsInt x n)
    (hneg : isNegative x = false) (hn : n.natAbs ≤ 2 ^ 53) :
    x = ofDecimal n.natAbs 0 ∧ integerText n = String.ofList (digitsOf n.natAbs) := by
  obtain ⟨_, _, _, _, hsign⟩ := h.parts_eq
  rw [hneg] at hsign
  obtain ⟨hdecimal, hpositive⟩ := isInt_ofDecimal hn
  have hnat : (n.natAbs : Int) = n := hsign.symm
  rw [hnat] at hdecimal
  refine ⟨h.eq hdecimal (hneg.trans hpositive.symm), ?_⟩
  rw [integerText, if_neg (by omega)]

/-- A printable token is printed alike in every store, and read again from the text. -/
theorem Token.word_print {t : Token} (ht : Lexed t) (h : t.isPrintable = true) :
    ∃ text, (∀ σ : Store, σ.printToken t = .ok text) ∧ Word text.toList [t] := by
  cases ht with
  | symbol y => exact ⟨y.text, fun _ => rfl, word_symbol y⟩
  | @name s hs => exact ⟨s, fun _ => rfl, word_name hs⟩
  | null => exact ⟨"null", fun _ => rfl, word_literal rfl⟩
  | bool b =>
    refine ⟨Value.wordOfBool b, fun _ => rfl, ?_⟩
    cases b <;> exact word_literal rfl
  | @num x hneg =>
    obtain ⟨hwhole, hany⟩ := Bool.and_eq_true_iff.1 h
    obtain ⟨n, hint, hn⟩ := (Option.any_eq_true _ _).1 hany
    obtain ⟨hx, htext⟩ := IsInt.eq_ofDecimal ⟨hwhole, hint⟩ hneg (by simpa using hn)
    refine ⟨integerText n, fun σ => ?_, ?_⟩
    · have hprinted : printed? x = some (integerText n) := by
        rw [printed?, if_pos hwhole, hint]
        rfl
      have hprint : σ.printToken (.val (.num x)) = printNumber x := rfl
      rw [hprint, printNumber, hprinted]
    · rw [htext, String.toList_ofList, hx]
      exact word_digits n.natAbs
  | str s =>
    refine ⟨quote s, fun _ => rfl, Closed.word (closed_quote ?_)⟩
    simpa [isPrintable] using h

/-- Printable tokens with blanks between them are read again. -/
theorem Token.word_printAll {ts : List Token} (hts : ∀ t ∈ ts, Lexed t)
    (h : ∀ t ∈ ts, t.isPrintable = true) :
    ∃ texts, (∀ σ : Store, printAll σ.print ts = .ok texts) ∧
    Word (" ".intercalate texts).toList ts := by
  have hword := fun t ht => word_print (hts t ht) (h t ht)
  choose! text hprint hword using hword
  refine ⟨ts.map text, fun σ => ?_, ?_⟩
  · clear hts h hword
    induction ts with
    | nil => rfl
    | cons t ts ih =>
      obtain ⟨ht, hts⟩ := List.forall_mem_cons.1 hprint
      have hfirst : t.print σ.print = .ok (text t) := ht σ
      rw [printAll, hfirst, ih hts]
      rfl
  · have hparts : ∀ p ∈ ts.map fun t => (text t, [t]), Word p.1.toList p.2 :=
      List.forall_mem_map.2 hword
    have hblank : Closed " ".toList [] := closed_blank
    have hlist := word_intercalate hblank (List.cons_ne_nil _ _) (endsWord_blank []) hparts
    rw [List.map_map, List.map_map] at hlist
    have hflat : ([] : List Token).intercalate (ts.map ((·.2) ∘ fun t => (text t, [t]))) = ts := by
      clear * -
      induction ts with
      | nil => rfl
      | cons t ts ih => cases ts <;> simp_all [List.intercalate]
    rwa [hflat] at hlist

/-- **Printed tokens read back**: if the numbers in a text are whole, of at most 53 bits, and its
strings have no backslashes and no line breaks, then its tokens behind the mark that leads them,
printed with blanks between them, are a text with the same tokens. -/
theorem printed_tokens_read_back {source : String} {ts : List Token} (h : lex source = .ok ts)
    (hplain : ∀ t ∈ ts, t.isPrintable = true) :
    ∃ texts, (∀ σ : Store, printAll σ.print ts.tail = .ok texts) ∧
      lex (" ".intercalate texts) = .ok ts := by
  obtain ⟨parts, done, _, _, rfl⟩ := lex_eq_ok.mp h
  obtain ⟨_, hlexed⟩ := List.forall_mem_cons.1 (lexed_lex h)
  obtain ⟨_, hprintable⟩ := List.forall_mem_cons.1 hplain
  obtain ⟨texts, hprint, hword⟩ := word_printAll hlexed hprintable
  exact ⟨texts, hprint, lex_of_spells (fun c hc => nomatch hc) hword⟩

/-- A text of two lines with a comment, signs without blanks between them and signs with one, and
strings that hold a quote and the start of a comment. -/
def crowdedText : String :=
  "a.b+=1e3>='\"'// c\n\t- -var? '//'===null;"

/-- The tokens of the text, the mark of its start included. -/
def crowdedTokens : List Token :=
  [.sym .varMark, .name "a", .sym .lbracket, .val (.str "b"), .sym .rbracket, .sym .plusAssign,
    .val (.num (ofDecimal 1 3)), .sym .ge, .val (.str "\""), .sym .minus, .sym .minus,
    .sym .varMark, .val (.str "//"), .sym .same, .val .null, .sym .semi]

/-- The tokens of a crowded text read back. -/
theorem printed_tokens_read_back_crowded :
    lex crowdedText = .ok crowdedTokens ∧ (∀ t ∈ crowdedTokens, t.isPrintable = true) ∧
    ∃ texts, (∀ σ : Store, printAll σ.print crowdedTokens.tail = .ok texts) ∧
      lex (" ".intercalate texts) = .ok crowdedTokens := by
  have hlex : lex crowdedText = .ok crowdedTokens := rfl
  have hplain : ∀ t ∈ crowdedTokens, t.isPrintable = true := List.all_eq_true.1 (by decide +kernel)
  exact ⟨hlex, hplain, printed_tokens_read_back hlex hplain⟩

end LittleJ
