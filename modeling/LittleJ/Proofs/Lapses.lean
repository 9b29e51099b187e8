import LittleJ.Proofs.Lexemes
import LittleJ.Proofs.LineByLine
import LittleJ.Proofs.Reports

/-!
# Where reading a text lapses

Reading a text gives a program or reports an error about the text, with four exceptions. In each of
them the reader itself cannot go on:

* an escape in a string literal is cut short or lacks a digit;
* a word opens with a dot behind a number, a truth value or `null`, which have no text;
* a `break` is the last token of a block, so that there is no token behind it to look at;
* an infinite number stands in the excerpt that an error should show.

The first two are found by the lexer, and whenever they are met there is no report. The other two
are what the readers of statements leave.
-/

namespace LittleJ

open LittleJ.Bracket LittleJ.Lexer Number Token

variable {y : Failure} {word source : String} {ts : List Token}

namespace Lexer

/-! ## Words -/

/-- The word opens with a dot behind a token without a text, and it is not a number. -/
structure DotsBehind (t : Token) (word : String) : Prop where
  textless : t.text? = none
  opens : word.toList.head? = some '.'
  goesOn : word.toList.getLast? ≠ some '.'
  noNumber : read? word = none

theorem malformed_of_subscripts {words : List String} (h : subscripts words = .error y) :
    ∃ e : Error, y = .error e ∧ e.kind = .malformed := by
  unfold subscripts at h
  cases hmap : words.mapM subscript with
  | ok parts =>
    rw [hmap] at h
    cases h
  | error z =>
    rw [hmap] at h
    cases h
    obtain ⟨word, _, hword⟩ := error_of_mapM hmap
    unfold subscript at hword
    split at hword
    · cases hword
    · cases hword
      exact ⟨_, rfl, rfl⟩

theorem dottedWord_error {prev : Option Token} (h : dottedWord prev word = .error y) :
    (∃ e : Error, y = .error e ∧ e.kind = .malformed) ∨
      y = .fault .wrongKind ∧ word.toList.head? = some '.' ∧ word.toList.getLast? ≠ some '.' ∧
        ∃ t, prev = some t ∧ t.text? = none := by
  unfold dottedWord at h
  split at h
  · cases h
    exact .inl ⟨_, rfl, rfl⟩
  · rename_i hlast
    split at h
    · rename_i cs hword
      split at h
      · cases h
        exact .inl ⟨_, rfl, rfl⟩
      · rename_i t
        split at h
        · rename_i htext
          cases h
          refine .inr ⟨rfl, by rw [hword]; rfl, by simpa using hlast, t, rfl, htext⟩
        · split at h
          · exact .inl (malformed_of_subscripts h)
          · cases h
            exact .inl ⟨_, rfl, rfl⟩
    · split at h
      · split at h
        · rename_i base rest _ _
          cases hrest : subscripts rest with
          | ok ts =>
            rw [hrest] at h
            cases h
          | error z =>
            rw [hrest] at h
            cases h
            exact .inl (malformed_of_subscripts hrest)
        · cases h
          exact .inl ⟨_, rfl, rfl⟩
      · cases h

theorem wordTokens_error {prev : Option Token} (h : wordTokens prev word = .error y) :
    (∃ e : Error, y = .error e ∧ e.kind = .malformed) ∨
      y = .fault .wrongKind ∧ ∃ t, prev = some t ∧ DotsBehind t word := by
  unfold wordTokens at h
  split at h
  · cases h
    exact .inl ⟨_, rfl, rfl⟩
  · split at h
    · cases h
      exact .inl ⟨_, rfl, rfl⟩
    · split at h
      · cases h
      · cases h
      · split at h
        · cases h
        · split at h
          · split at h
            · cases h
            · cases h
              exact .inl ⟨_, rfl, rfl⟩
          · rename_i hnumber
            split at h
            · rcases dottedWord_error h with herror | ⟨rfl, hopens, hgoesOn, t, ht, htext⟩
              · exact .inl herror
              · exact .inr ⟨rfl, t, ht, ⟨htext, hopens, hgoesOn, hnumber⟩⟩
            · cases h
              exact .inl ⟨_, rfl, rfl⟩

/-- Behind such a token the word makes the lexer stop. -/
theorem DotsBehind.wordTokens {t : Token} (h : DotsBehind t word) :
    wordTokens (some t) word = .error (.fault .wrongKind) := by
  obtain ⟨cs, hword⟩ : ∃ cs, word.toList = '.' :: cs := List.head?_eq_some_iff.1 h.opens
  -- no word of the language opens with a dot
  have hother : ∀ {r : String}, r.toList.head? ≠ some '.' → word ≠ r := by
    rintro r hr rfl
    exact hr h.opens
  have hcontains : ∀ {words : List String}, (∀ r ∈ words, r.toList.head? ≠ some '.') →
      words.contains word = false := by
    intro words hwords
    rw [List.contains_eq_mem, decide_eq_false_iff_not]
    exact fun hmem => hwords word hmem h.opens
  have hreserved : reservedWords.contains word = false := hcontains (by decide)
  have hrefused : refusedOperators.contains word = false := hcontains (by decide)
  have hliteral : literal? word = none := by
    unfold literal?
    split
    · exact absurd rfl (hother (by decide))
    · exact absurd rfl (hother (by decide))
    · exact absurd rfl (hother (by decide))
    · rfl
  have hsymbol : Symbol.ofText? word = none := by
    rw [Symbol.ofText?, List.find?_eq_none]
    intro y _ hy
    have htext : ∀ y : Symbol, y.text.toList.head? ≠ some '.' := by
      intro y
      cases y <;> decide
    exact hother (htext y) (beq_iff_eq.1 hy).symm
  have hname : isValidName word = false := by
    have hlone : ∀ r : String, r.toList.head? ≠ some '.' → (word == r) = false := by
      intro r hr
      rw [beq_eq_false_iff_ne]
      exact hother hr
    rw [isValidName, isNameLike, hlone "_" (by decide), hlone "$" (by decide), hword]
    simp [Text.isLower]
  have hdot : word.toList.contains '.' = true := by
    rw [hword]
    simp
  have hlast : (word.toList.getLast? == some '.') = false := beq_eq_false_iff_ne.2 h.goesOn
  unfold Lexer.wordTokens
  rw [hreserved, hrefused, hliteral, hsymbol]
  simp only [Bool.false_eq_true, if_false, hname, h.noNumber, hdot, if_true]
  unfold dottedWord
  rw [hlast, hword]
  simp only [Bool.false_eq_true, if_false, h.textless]

/-! ## Segments -/

/-- Words that cannot be read fail at one of them, behind those before it. -/
theorem readWords_error {done : List Token} {words : List String}
    (h : readWords done words = .error y) :
    ∃ front word back done', words = front ++ word :: back ∧ readWords done front = .ok done' ∧
      wordTokens done'.head? word = .error y := by
  induction words generalizing done with
  | nil => cases h
  | cons w words ih =>
    rw [readWords] at h
    cases hw : wordTokens done.head? w with
    | error z =>
      rw [hw] at h
      cases h
      exact ⟨[], w, words, done, rfl, rfl, hw⟩
    | ok ts =>
      rw [hw] at h
      obtain ⟨front, word, back, done', rfl, hfront, hword⟩ := ih h
      refine ⟨w :: front, word, back, done', rfl, ?_, hword⟩
      rw [readWords, hw]
      exact hfront

/-- Segments that cannot be read fail at one of them, behind those before it. -/
theorem readSegments_error {done : List Token} {segs : List Segment}
    (h : readSegments done segs = .error y) :
    ∃ front seg back done', segs = front ++ seg :: back ∧ readSegments done front = .ok done' ∧
      readSegments done' [seg] = .error y := by
  induction segs generalizing done with
  | nil => cases h
  | cons seg segs ih =>
    have hone : readSegments done (seg :: segs) = readSegments done [seg] >>=
        (readSegments · segs) :=
      readSegments_append done [seg] segs
    rw [hone] at h
    cases hseg : readSegments done [seg] with
    | error z =>
      rw [hseg] at h
      cases h
      exact ⟨[], seg, segs, done, rfl, rfl, hseg⟩
    | ok ts =>
      rw [hseg] at h
      obtain ⟨front, seg', back, done', rfl, hfront, hfails⟩ := ih h
      refine ⟨seg :: front, seg', back, done', rfl, ?_, hfails⟩
      have hboth : readSegments done (seg :: front) = readSegments done [seg] >>=
          (readSegments · front) :=
        readSegments_append done [seg] front
      rw [hboth, hseg]
      exact hfront

/-- The segments of a text are cut unless a literal is open at the end of its line. -/
theorem openString_of_segmentsFrom {mode : Mode} {part cs : List Char} {e : Error}
    (h : segmentsFrom mode part cs = .error e) : e = .openString := by
  fun_induction segmentsFrom mode part cs with
  | case1 => cases h
  | case2 =>
    cases h
    rfl
  | case3 part c cs hquote ih =>
    cases hrest : segmentsFrom (.quoted c c) [] cs with
    | ok segs =>
      rw [hrest] at h
      cases h
    | error e' =>
      rw [hrest] at h
      cases h
      exact ih hrest
  | case4 => cases h
  | case5 part c cs hquote hslash ih => exact ih h
  | case6 quote prev part c cs hclose ih =>
    cases hrest : segmentsFrom .code [] cs with
    | ok segs =>
      rw [hrest] at h
      cases h
    | error e' =>
      rw [hrest] at h
      cases h
      exact ih hrest
  | case7 quote prev part c cs hclose ih => exact ih h

theorem openString_of_segments {cs : List Char} {e : Error} (h : segments cs = .error e) :
    e = .openString := by
  unfold segments at h
  cases hmap : ((Text.lines cs).filter fun l => !l.all Text.isBlank).mapM lineSegments with
  | ok parts =>
    rw [hmap] at h
    cases h
  | error e' =>
    rw [hmap] at h
    cases h
    obtain ⟨line, _, hline⟩ := error_of_mapM hmap
    exact openString_of_segmentsFrom hline

end Lexer

/-! ## Lapses -/

/-- Why reading a text ends with a fault. -/
inductive Lapse (source : String) : Fault → Prop where
  /-- A string literal has a bad escape, and what stands before it can be read. -/
  | escape {before after : List Segment} {cs : List Char} {done : List Token} :
      segments source.toList = .ok (before ++ .quoted cs :: after) →
      readSegments [] before = .ok done →
      Text.Escape.decode cs = none → Lapse source .badOperand
  /-- A word opens with a dot behind a token without a text, and what stands before it can be read.
  -/
  | dot {before after : List Segment} {cs : List Char} {front back : List String}
      {word : String} {t : Token} {done done' : List Token} :
      segments source.toList = .ok (before ++ .code cs :: after) →
      readSegments [] before = .ok done →
      codeWords cs = front ++ word :: back → readWords done front = .ok (t :: done') →
      DotsBehind t word →
      Lapse source .wrongKind
  /-- A `break` has nothing behind it, or what closes a block. -/
  | looseBreak {front back : List Token} : lex source = .ok (front ++ sym .kwBreak :: back) →
      (∀ t ∈ back.head?, t.reads "\x7d" = true) → Lapse source .position
  /-- A number is infinite. -/
  | infinite {ts : List Token} {x : Float} {negative : Bool} :
      lex source = .ok ts → .val (.num x) ∈ ts →
      parts x = .infinite negative → Lapse source .overflow

/-- What the lexer fails with. -/
theorem lex_error (h : lex source = .error y) :
    (∃ e : Error, y = .error e ∧ e.kind = .malformed) ∨ ∃ f, y = .fault f ∧ Lapse source f := by
  unfold lex at h
  cases hsegs : segments source.toList with
  | error e =>
    rw [hsegs] at h
    cases h
    exact .inl ⟨e, rfl, by rw [openString_of_segments hsegs]; rfl⟩
  | ok parts =>
    rw [hsegs] at h
    cases hread : readSegments [] parts with
    | ok done =>
      simp only [hread] at h
      cases h
    | error z =>
      simp only [hread] at h
      cases h
      obtain ⟨before, seg, after, done, rfl, hbefore, hseg⟩ := readSegments_error hread
      cases seg with
      | quoted cs =>
        rw [readSegments] at hseg
        split at hseg
        · cases hseg
        · rename_i hdecode
          cases hseg
          exact .inr ⟨_, rfl, .escape hsegs hbefore hdecode⟩
      | code cs =>
        rw [readSegments] at hseg
        cases hwords : readWords done (codeWords cs) with
        | ok ts =>
          rw [hwords] at hseg
          cases hseg
        | error z =>
          rw [hwords] at hseg
          cases hseg
          obtain ⟨front, word, back, done', hcode, hfront, hword⟩ := readWords_error hwords
          rcases wordTokens_error hword with herror | ⟨rfl, t, ht, hdot⟩
          · exact .inl herror
          · obtain ⟨rest, rfl⟩ := List.head?_eq_some_iff.1 ht
            exact .inr ⟨_, rfl, .dot hsegs hbefore hcode hfront hdot⟩

/-- A lapse that the lexer meets leaves no other outcome. -/
theorem lex_of_lapse {f : Fault} (h : Lapse source f) (hposition : f ≠ .position)
    (hoverflow : f ≠ .overflow) :
    lex source = .error (.fault f) := by
  cases h with
  | escape hsegs hbefore hdecode =>
    unfold lex
    rw [hsegs]
    simp only [readSegments_append, hbefore, readSegments, hdecode, bind, Except.bind]
  | dot hsegs hbefore hcode hfront hdot =>
    unfold lex
    rw [hsegs]
    simp only [readSegments_append, hbefore, readSegments, hcode, readWords_append,
      hfront, readWords, List.head?_cons, hdot.wordTokens, bind, Except.bind]
  | looseBreak _ _ => exact absurd rfl hposition
  | infinite _ _ _ => exact absurd rfl hoverflow

/-! ## Texts -/

theorem infinite_of_printed? {x : Float} (h : printed? x = none) :
    ∃ negative, parts x = .infinite negative := by
  unfold printed? at h
  split at h
  · rename_i hwhole
    have hnone : toInt? x = none := Option.map_eq_none_iff.1 h
    cases hparts : parts x with
    | nan =>
      rw [isWhole, hparts] at hwhole
      cases hwhole
    | infinite negative => exact ⟨negative, rfl⟩
    | finite negative m q =>
      rw [toInt?, hparts] at hnone
      cases hnone
  · cases h

/-- A token of a text can be shown, unless it is an infinite number. -/
theorem shows_of_lexed {t : Token} (h : Lexed t) (ht : t ∈ ts) :
    t.Shows (∃ x negative, .val (.num x) ∈ ts ∧ parts x = .infinite negative) := by
  cases h with
  | symbol y => exact shows_sym y
  | name _ => exact shows_of_ok (by rw [print])
  | null => exact shows_of_ok (by rw [print, Value.printPlain])
  | bool b => exact shows_of_ok (by rw [print, Value.printPlain])
  | str s => exact shows_of_ok (by rw [print, Value.printPlain])
  | @num x _ =>
    intro f hf
    rw [print, Value.printPlain, printNumber] at hf
    cases hprinted : printed? x with
    | some s =>
      rw [hprinted] at hf
      cases hf
    | none =>
      rw [hprinted] at hf
      cases hf
      obtain ⟨negative, hparts⟩ := infinite_of_printed? hprinted
      exact ⟨rfl, x, negative, ht, hparts⟩

/-- A list in which every `break` has something behind it that closes no block. -/
theorem chain_of_not_loose
    (h : ¬∃ front back, ts = front ++ sym .kwBreak :: back ∧
      ∀ t ∈ back.head?, t.reads "\x7d" = true) :
    ts.IsChain (fun t u => t = .sym .kwBreak → u.reads "\x7d" = false) ∧
    ts.getLast? ≠ some (.sym .kwBreak) := by
  constructor
  · induction ts with
    | nil => exact .nil
    | cons t ts ih =>
      refine List.isChain_cons.2 ⟨?_, ih ?_⟩
      · rintro u hu rfl
        rw [Bool.eq_false_iff]
        intro hreads
        refine h ⟨[], ts, rfl, fun v hv => ?_⟩
        rw [hu] at hv
        cases hv
        exact hreads
      · rintro ⟨front, back, rfl, hback⟩
        exact h ⟨t :: front, back, rfl, hback⟩
  · intro hlast
    obtain ⟨front, rfl⟩ := List.getLast?_eq_some_iff.1 hlast
    exact h ⟨front, [], rfl, by simp⟩

/-- What the reader of statements fails with. -/
theorem parse_error (hlex : lex source = .ok ts) (h : parse ts = .error y) :
    (∃ e : Error, y = .error e ∧ (e.kind = .malformed ∨ e.kind = .type)) ∨ ∃ f, y = .fault f ∧
    Lapse source f := by
  have hfit : Parser.FitBlock
      (∃ front back, ts = front ++ sym .kwBreak :: back ∧ ∀ t ∈ back.head?, t.reads "\x7d" = true)
      (∃ x negative, .val (.num x) ∈ ts ∧ parts x = .infinite negative) ts :=
    ⟨⟨fun t ht => shows_of_lexed (lexed_lex hlex t ht) ht, fun hloose =>
      (chain_of_not_loose hloose).1⟩,
      fun hloose => (chain_of_not_loose hloose).2⟩
  cases Parser.reports_block (Nat.lt_succ_self _) hfit y h with
  | error he => exact .inl ⟨_, rfl, he⟩
  | position hloose =>
    obtain ⟨front, back, rfl, hback⟩ := hloose
    exact .inr ⟨_, rfl, .looseBreak hlex hback⟩
  | overflow hinfinite =>
    obtain ⟨x, negative, hx, hparts⟩ := hinfinite
    exact .inr ⟨_, rfl, .infinite hlex hx hparts⟩

/-- **A text is a program, or an error about it is reported, or reading it lapses.** The errors are
those about the form of a program and those about what is assigned to. Of the lapses, those that the
lexer meets always prevent a report. -/
theorem parseText_outcome (source : String) : ((∃ p, parseText source = .ok p) ∨
      (∃ e : Error, parseText source = .error (.error e) ∧ (e.kind = .malformed ∨ e.kind = .type)) ∨
      ∃ f, parseText source = .error (.fault f) ∧ Lapse source f) ∧
    ∀ f, Lapse source f → f ≠ .position → f ≠ .overflow → parseText source = .error (.fault f) := by
  constructor
  · cases hlex : lex source with
    | error y =>
      have hfails : parseText source = .error y := by rw [parseText, hlex]; rfl
      rcases lex_error hlex with ⟨e, rfl, he⟩ | ⟨f, rfl, hf⟩
      · exact .inr (.inl ⟨e, hfails, .inl he⟩)
      · exact .inr (.inr ⟨f, hfails, hf⟩)
    | ok ts =>
      have hparses : parseText source = parse ts := by rw [parseText, hlex]; rfl
      rw [hparses]
      cases hparse : parse ts with
      | ok p => exact .inl ⟨p, rfl⟩
      | error y =>
        rcases parse_error hlex hparse with ⟨e, rfl, he⟩ | ⟨f, rfl, hf⟩
        · exact .inr (.inl ⟨e, rfl, he⟩)
        · exact .inr (.inr ⟨f, rfl, hf⟩)
  · intro f hf hposition hoverflow
    rw [parseText, lex_of_lapse hf hposition hoverflow]
    rfl

/-- Each of the four lapses, in a text that should be refused with a report. -/
theorem lapsing_texts :
    parseText "break" = .error (.fault .position) ∧ parseText "(Inf" = .error (.fault .overflow) ∧
      parseText "null .x" = .error (.fault .wrongKind) ∧ parseText "\"\\x\"" =
        .error (.fault .badOperand) :=
  ⟨rfl, rfl, rfl, rfl⟩

end LittleJ
