import LittleJ.Proofs.Literal
import LittleJ.Proofs.Readers

/-!
# Texts below each other

A text is cut into lines before anything else is looked at, and no segment goes over the end of its
line. So the segments of two texts with a line feed between them are those of the first and then
those of the second. What joins lines is only the token before a word that opens with a dot. A text
that can be read has a token of its own there, for at its start no such word may stand; so the
second text is read below the first one as it is read alone.
-/

namespace LittleJ

open List

variable {ts done : List Token}

/-! ## The lines -/

/-- Up to blank ones, the lines of two texts with a line feed between them are the lines of both. -/
theorem Text.filter_linesFrom_newline (line a b : List Char) :
    (linesFrom line (a ++ '\n' :: b)).filter (!·.all isBlank) =
      (linesFrom line a).filter (!·.all isBlank) ++ (linesFrom [] b).filter (!·.all isBlank) := by
  fun_induction linesFrom line a with
  | case1 line hline =>
    -- nothing has been read of the line that the line feed ends: it is blank
    obtain rfl : line = [] := List.isEmpty_iff.mp hline
    rw [nil_append, linesFrom_break rfl (by simp)]
    rfl
  | case2 line hline =>
    rw [nil_append, linesFrom_break rfl (by simp), ← filter_append]
    rfl
  | case3 line cs ih =>
    rw [cons_append, cons_append, linesFrom, filter_cons, ih, filter_cons]
    split <;> rfl
  | case4 line c cs hcrlf hc ih =>
    have hbreak : isBreak c = true := hc
    cases cs with
    | nil =>
      -- behind a carriage return the line feed is the second half of one line ending
      by_cases hr : c = '\r'
      · subst hr
        rw [cons_append, nil_append, linesFrom, ← filter_append]
        rfl
      · rw [cons_append, linesFrom_break hbreak fun h => absurd h hr, filter_cons, ih, filter_cons]
        split <;> rfl
    | cons d cs =>
      have hd : c = '\r' → (d :: cs ++ '\n' :: b).head? ≠ some '\n' := by
        intro hr hhead
        exact hcrlf cs hr (by rw [Option.some.inj hhead])
      rw [cons_append, linesFrom_break hbreak hd, filter_cons, ih, filter_cons]
      split <;> rfl
  | case5 line c cs hcrlf hc ih =>
    have hplain : isBreak c = false := Bool.eq_false_iff.mpr hc
    rw [cons_append, linesFrom_cons hplain]
    exact ih

namespace Lexer

/-- The segments of two texts with a line feed between them. -/
theorem segments_newline (a b : List Char) : segments (a ++ '\n' :: b) = do
      let parts ← segments a
      let parts' ← segments b
      return parts ++ parts' := by
  simp only [segments, Text.lines, Text.filter_linesFrom_newline, mapM_append, bind_assoc,
    pure_bind, flatten_append]

/-! ## The words of the second text -/

/-- A word that is read where no token stands before it is read the same anywhere. -/
theorem wordTokens_of_none {word : String} (h : wordTokens none word = .ok ts)
    (prev : Option Token) :
    wordTokens prev word = .ok ts := by
  -- the token before a word is asked for only if the word opens with a dot
  have hdotted : ∀ {ts}, dottedWord none word = .ok ts → dottedWord prev word = .ok ts := by
    intro ts h
    unfold dottedWord at h ⊢
    split at h
    · cases h
    · rename_i hlast
      rw [if_neg hlast]
      revert h
      split
      · exact fun h => nomatch h
      · exact id
  unfold wordTokens at h ⊢
  split at h
  · cases h
  · rename_i hreserved
    rw [if_neg hreserved]
    split at h
    · cases h
    · rename_i hrefused
      rw [if_neg hrefused]
      split at h
      · exact h
      · exact h
      · split at h
        · rename_i hname
          rw [if_pos hname]
          exact h
        · rename_i hname
          rw [if_neg hname]
          split at h
          · exact h
          · split at h
            · rename_i hdot
              rw [if_pos hdot]
              exact hdotted h
            · cases h

theorem wordTokens_behind {word : String} (h : wordTokens done.head? word = .ok ts)
    (before : List Token) :
    wordTokens (done ++ before).head? word = .ok ts := by
  cases done with
  | nil => exact wordTokens_of_none h _
  | cons t done => exact h

/-- Words that are read behind the tokens `done` are read the same if there are others before these.
-/
theorem readWords_behind {words : List String} (h : readWords done words = .ok ts)
    (before : List Token) :
    readWords (done ++ before) words = .ok (ts ++ before) := by
  induction words generalizing done with
  | nil =>
    cases h
    rfl
  | cons w words ih =>
    rw [readWords] at h ⊢
    obtain ⟨new, hnew, h⟩ := Parser.ok_of_bind h
    rw [wordTokens_behind hnew before]
    have hrest := ih h
    rw [append_assoc] at hrest
    exact hrest

/-- Segments that are read behind the tokens `done` are read the same if there are others before
these. -/
theorem readSegments_behind {segs : List Segment} (h : readSegments done segs = .ok ts)
    (before : List Token) :
    readSegments (done ++ before) segs = .ok (ts ++ before) := by
  induction segs generalizing done with
  | nil =>
    cases h
    rfl
  | cons seg segs ih =>
    cases seg with
    | code cs =>
      rw [readSegments] at h ⊢
      obtain ⟨new, hnew, h⟩ := Parser.ok_of_bind h
      rw [readWords_behind hnew before]
      exact ih h
    | quoted cs =>
      rw [readSegments] at h ⊢
      split at h
      · exact ih h
      · cases h

/-- What can be read of a text: its segments, and their tokens in reverse order. -/
theorem lex_eq_ok {source : String} : lex source = .ok ts ↔
    ∃ parts done, segments source.toList = .ok parts ∧ readSegments [] parts = .ok done ∧
      ts = .sym .varMark :: done.reverse := by
  unfold lex
  constructor
  · intro h
    split at h
    · cases h
    · rename_i parts hparts
      obtain ⟨done, hdone, h⟩ := Parser.ok_of_bind h
      cases h
      exact ⟨parts, done, hparts, hdone, rfl⟩
  · rintro ⟨parts, done, hparts, hdone, rfl⟩
    rw [hparts]
    dsimp only
    rw [hdone]
    rfl

end Lexer

/-! ## Two texts -/

/-- **Texts below each other are read one after the other.** If two texts can be read then so can
the two with a line feed between them. The tokens are those of the first, and then those of the
second without the mark of the scope's start that leads them. -/
theorem lex_newline {a b : String} {xs ys : List Token} (ha : lex a = .ok xs)
    (hb : lex b = .ok ys) :
    ∃ zs, ys = .sym .varMark :: zs ∧ lex (a ++ "\n" ++ b) = .ok (xs ++ zs) := by
  obtain ⟨parts, done, hparts, hdone, rfl⟩ := Lexer.lex_eq_ok.mp ha
  obtain ⟨parts', done', hparts', hdone', rfl⟩ := Lexer.lex_eq_ok.mp hb
  refine ⟨done'.reverse, rfl, Lexer.lex_eq_ok.mpr ⟨parts ++ parts', done' ++ done, ?_, ?_, ?_⟩⟩
  · have htext : (a ++ "\n" ++ b).toList = a.toList ++ '\n' :: b.toList := by
      rw [String.toList_append, String.toList_append, append_assoc]
      rfl
    rw [htext, Lexer.segments_newline, hparts, hparts']
    rfl
  · rw [Lexer.readSegments_append, hdone]
    exact Lexer.readSegments_behind hdone' done
  · rw [reverse_append, cons_append]

/-- The first text ends in a comment and half a line ending; the second one opens with the other
half. -/
theorem lex_newline_comment :
    lex "f = 1; // one\r" =
      .ok [.sym .varMark, .name "f", .sym .assign, .val (.num 1), .sym .semi] ∧
    lex "\na.b('//');" = .ok [.sym .varMark, .name "a", .sym .lbracket, .val (.str "b"),
      .sym .rbracket, .sym .lparen, .val (.str "//"), .sym .rparen, .sym .semi] ∧
    ∃ zs, [Token.sym .varMark, .name "a", .sym .lbracket, .val (.str "b"), .sym .rbracket,
        .sym .lparen, .val (.str "//"), .sym .rparen, .sym .semi] = .sym .varMark :: zs ∧
      lex ("f = 1; // one\r" ++ "\n" ++ "\na.b('//');") =
        .ok ([.sym .varMark, .name "f", .sym .assign, .val (.num 1), .sym .semi] ++ zs) := by
  refine ⟨?first, ?second, lex_newline ?first ?second⟩
  case first => rfl
  case second => rfl

end LittleJ
