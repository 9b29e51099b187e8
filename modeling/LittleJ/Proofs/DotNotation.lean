import LittleJ.Proofs.Lexemes
import LittleJ.Proofs.LineByLine
import LittleJ.Proofs.UnsignedNumber

/-!
# Dots are subscripts

A property can be named behind a dot or in brackets. A word of code may hold several dots, or open
with one if it stands behind something that has properties; blanks and line breaks decide where
words end. The tokens do not show any of this: a name with properties behind it, each behind a dot
and any number of blanks, is read as the name with the properties in brackets.

Such a text has no quotes and no signs, so its words are the stretches between its blanks, wherever
its lines end. They are read one after the other. What one of them becomes is said by `Open`: the
tokens of the word so far, and that further dots go on with it.
-/

namespace LittleJ

open List Text

variable {c : Char} {done ts : List Token} {x p : String} {ps : List String} {w : List Char}

/-! ## Words of a text without signs -/

namespace Text

/-- A line break is a blank: the words of a text are those of its lines. -/
theorem flatMap_words_linesFrom (line cs : List Char) :
    (linesFrom line cs).flatMap words = words (line.reverse ++ cs) := by
  fun_induction linesFrom line cs with
  | case1 line hline => simp [List.isEmpty_iff.mp hline, words, wordsFrom]
  | case2 line hline => simp
  | case3 line cs ih =>
    have hfirst := wordsFrom_blank (x := '\r') rfl [] line.reverse ('\n' :: cs)
    have hsecond := wordsFrom_blank (x := '\n') rfl [] [] cs
    rw [flatMap_cons, ih, reverse_nil, nil_append]
    exact (congrArg (words line.reverse ++ ·) hsecond).symm.trans hfirst.symm
  | case4 line c cs hcrlf hc ih =>
    have hblank : isBlank c = true := by
      simp only [Bool.or_eq_true, beq_iff_eq] at hc
      rcases hc with rfl | rfl <;> rfl
    rw [flatMap_cons, ih, reverse_nil, nil_append]
    exact (wordsFrom_blank hblank [] line.reverse cs).symm
  | case5 line c cs hcrlf hc ih =>
    rw [ih, reverse_cons, append_assoc, singleton_append]

theorem mem_of_mem_linesFrom {line cs l : List Char} (hl : l ∈ linesFrom line cs) (hc : c ∈ l) :
    c ∈ line ∨ c ∈ cs := by
  fun_induction linesFrom line cs with
  | case1 => simp at hl
  | case2 line _ => simp_all
  | case3 line cs ih => grind
  | case4 line c cs hcrlf hc ih => grind
  | case5 line c cs hcrlf hc ih => grind

end Text

namespace Lexer

/-- A character that is a blank, or a letter and no quote. -/
def isPlain (c : Char) : Bool :=
  isBlank c || isLetter c && !isQuote c

theorem spread_of_plain {cs : List Char} (h : ∀ c ∈ cs, isPlain c = true) : spread cs = cs := by
  have hnil : spread [] = [] := spread_of_letters (by simp)
  induction cs with
  | nil => exact hnil
  | cons c cs ih =>
    obtain ⟨hc, hcs⟩ := List.forall_mem_cons.1 h
    by_cases hblank : isBlank c = true
    · rw [spread_cons_of_blank hblank, ih hcs]
    · have hletter : isLetter c = true := by
        simp only [isPlain, hblank, Bool.false_or, Bool.and_eq_true] at hc
        exact hc.1
      have hstep := spread_letter hletter [] cs
      rwa [hnil, ih hcs] at hstep

theorem unquoted_of_plain {cs : List Char} (h : ∀ c ∈ cs, isPlain c = true) : Unquoted cs := by
  have hquotes : ∀ c ∈ ['"', '\x27', '/'], isPlain c = false := by decide
  have hother {c d : Char} (hd : d ∈ ['"', '\x27', '/']) (hc : c ∈ cs) : c ≠ d := by
    rintro rfl
    have := h c hc
    rw [hquotes c hd] at this
    cases this
  refine ⟨fun c hc => ?_, .inl fun hslash => hother (by simp) hslash rfl⟩
  simp [isQuote, hother (show '"' ∈ _ by simp) hc, hother (show '\x27' ∈ _ by simp) hc]

theorem readSegments_code (done : List Token) (lines : List (List Char)) :
    readSegments done (lines.map .code) = readWords done (lines.flatMap codeWords) := by
  induction lines generalizing done with
  | nil => rfl
  | cons line lines ih =>
    rw [map_cons, readSegments, flatMap_cons, readWords_append]
    simp only [ih]

section Plain

variable {cs : List Char} (h : ∀ c ∈ cs, isPlain c = true)

include h

theorem plain_of_mem_lines {line : List Char} (hline : line ∈ lines cs) :
    ∀ c ∈ line, isPlain c = true := by
  intro c hc
  rcases mem_of_mem_linesFrom hline hc with hc | hc
  · simp at hc
  · exact h c hc

theorem segments_of_plain : segments cs = .ok (((lines cs).filter (!·.all isBlank)).map .code) := by
  have hline : ∀ line ∈ (lines cs).filter (!·.all isBlank), lineSegments line =
      .ok [.code line] := by
    intro line hline
    have hplain := plain_of_mem_lines h (mem_of_mem_filter hline)
    have hend : '/' ∈ line → ([] : List Char).head? ≠ some '/' := by simp
    have hcode := (unquoted_of_plain hplain).segmentsFrom hend []
    rw [append_nil, append_nil] at hcode
    rw [lineSegments, hcode, segmentsFrom, reverse_reverse]
  rw [segments]
  generalize (lines cs).filter (!·.all isBlank) = lines at hline
  have hlines : lines.mapM lineSegments = .ok (lines.map fun line => [.code line]) := by
    induction lines with
    | nil => rfl
    | cons line lines ih =>
      obtain ⟨hfirst, hrest⟩ := List.forall_mem_cons.1 hline
      rw [mapM_cons, hfirst, ih hrest]
      rfl
  rw [hlines]
  exact congrArg Except.ok (by rw [← flatMap_def, map_eq_flatMap])

/-- The words of the lines that are not blank are all words. -/
theorem flatMap_codeWords_lines : ((lines cs).filter (!·.all isBlank)).flatMap codeWords =
    (words cs).map String.ofList := by
  have hwords : ∀ line ∈ lines cs, codeWords line = (words line).map String.ofList := by
    intro line hline
    rw [codeWords, spread_of_plain (plain_of_mem_lines h hline)]
  have hall : words cs = (lines cs).flatMap words := (flatMap_words_linesFrom [] cs).symm
  rw [hall]
  generalize lines cs = lines at hwords
  induction lines with
  | nil => rfl
  | cons line lines ih =>
    obtain ⟨hfirst, hrest⟩ := List.forall_mem_cons.1 hwords
    rw [flatMap_cons, map_append, ← hfirst, ← ih hrest]
    by_cases hblank : line.all isBlank = true
    · rw [filter_cons_of_neg (by simp [hblank]), codeWords_of_blank (List.all_eq_true.1 hblank),
        nil_append]
    · rw [filter_cons_of_pos (by simp [hblank]), flatMap_cons]

end Plain

/-- A text without quotes and signs is read word by word. Where its lines end makes no difference.
-/
theorem lex_of_plain {text : String} (h : ∀ c ∈ text.toList, isPlain c = true)
    (hread : readWords [] ((words text.toList).map String.ofList) = .ok done) :
    lex text = .ok (.sym .varMark :: done.reverse) := by
  refine lex_eq_ok.mpr ⟨_, done, segments_of_plain h, ?_, rfl⟩
  rw [readSegments_code, flatMap_codeWords_lines h, hread]

end Lexer

/-! ## No number has a letter behind its first point -/

namespace Number

theorem mem_dropUnderscores? {x : Char} (hx : x ≠ '_') {prev : Option Char} {cs ds : List Char}
    (h : dropUnderscores? prev cs = some ds) (hmem : x ∈ cs) : x ∈ ds := by
  induction cs generalizing prev ds with
  | nil => simp at hmem
  | cons c cs ih =>
    rw [dropUnderscores?] at h
    by_cases hc : c = '_'
    · rw [if_pos (by simp [hc])] at h
      split at h
      · exact ih h (by simpa [hc, hx] using hmem)
      · cases h
    · rw [if_neg (by simp [hc])] at h
      obtain ⟨rest, hrest, rfl⟩ := Option.map_eq_some_iff.1 h
      rcases List.mem_cons.1 hmem with rfl | hmem
      · exact mem_cons_self ..
      · exact mem_cons_of_mem _ (ih hrest hmem)

/-- A text with a point in it is none of the words that are numerals. -/
theorem magnitude?_of_point {cs : List Char} (h : '.' ∈ cs) : magnitude? cs = unsigned? cs := by
  have hword {w : String} (hw : '.' ∉ w.toList) :
      (String.ofList (cs.map Char.toLower) == w) = false := by
    rw [beq_eq_false_iff_ne]
    rintro rfl
    exact hw (by simpa using ⟨'.', h, rfl⟩)
  rw [magnitude?, hword (by decide), hword (by decide), hword (by decide), if_neg (by simp),
    if_neg (by simp)]

theorem unsigned?_eq_none {cs : List Char} (hc : isDigit c = false)
    (hcs : c = '.' → cs.head?.any isDigit = false) : unsigned? (c :: cs) = none := by
  by_cases hpoint : c = '.'
  · have hnone : cs.takeWhile isDigit = [] := by
      cases cs with
      | nil => rfl
      | cons d cs => exact takeWhile_cons_of_neg (by simpa using hcs hpoint)
    simp [unsigned?, hpoint, hnone, isDigit]
  · simp [unsigned?, hc, hpoint]

/-- A word with a point is no numeral if it starts with a letter, or with the point and a letter. -/
theorem read?_eq_none {cs : List Char} (hmargin : ∀ d ∈ c :: cs, isMargin d = false)
    (hpoint : '.' ∈ c :: cs) (hc : isDigit c = false) (hsign : c ≠ '-' ∧ c ≠ '+')
    (hcs : c = '.' → cs.head?.any isDigit = false) :
    read? (String.ofList (c :: cs)) = none := by
  rw [read?, String.toList_ofList, stripMargins_eq_self hmargin]
  cases hdrop : dropUnderscores? none (c :: cs) with
  | none => rfl
  | some ds =>
    have hne : c ≠ '_' := by
      rintro rfl
      rw [dropUnderscores?_underscore] at hdrop
      cases hdrop
    obtain ⟨rest, rfl, hrest⟩ := dropUnderscores?_cons hne hdrop
    have hhead : c = '.' → rest.head?.any isDigit = false := by
      intro heq
      subst heq
      cases cs with
      | nil => cases hrest; rfl
      | cons d cs =>
        by_cases hd : d = '_'
        · -- an underscore right behind the point has no digit before it
          rw [hd, dropUnderscores?, if_pos (by rfl)] at hrest
          cases hrest
        · obtain ⟨more, rfl, _⟩ := dropUnderscores?_cons hd hrest
          exact hcs rfl
    have hmagnitude : magnitude? (c :: rest) = none := by
      rw [magnitude?_of_point (mem_dropUnderscores? (by decide) hdrop hpoint),
        unsigned?_eq_none hc hhead]
    simp only [Option.bind_eq_bind, Option.bind_some]
    split
    · next heq => exact absurd (cons.inj heq).1 hsign.1
    · next heq => exact absurd (cons.inj heq).1 hsign.2
    · exact hmagnitude

end Number

namespace Lexer

/-! ## Words with dots -/

/-- A character of a name, or a dot. -/
def isDotted (c : Char) : Bool :=
  isNameLetter c || c == '.'

theorem isDotted_eq_true (h : isDotted c = true) :
    isBlank c = false ∧ isPlain c = true ∧ Number.isMargin c = false ∧ c ≠ '-' ∧ c ≠ '+' := by
  have hsigns : ∀ d ∈ ['-', '+'], isDotted d = false := by decide
  have hsign {d : Char} (hd : d ∈ ['-', '+']) : c ≠ d := by
    rintro rfl
    rw [hsigns c hd] at h
    cases h
  have hletter : isLetter c = true ∧ isQuote c = false := by
    rcases Bool.or_eq_true_iff.1 h with h | h
    · exact ⟨(isLetter_of_isNameLetter h).1, (isLetter_of_isNameLetter h).2.1⟩
    · rw [beq_iff_eq.1 h]
      decide
  have hbound : c.toNat ≤ 122 := by
    simp only [isDotted, isNameLetter, isWord, isLower, isDigit, Bool.or_eq_true, Bool.and_eq_true,
      decide_eq_true_eq, beq_iff_eq] at h
    rcases h with ((((⟨_, hhigh⟩ | ⟨_, hhigh⟩) | ⟨_, hhigh⟩) | rfl) | rfl) | rfl
    · exact hhigh
    · exact Nat.le_trans hhigh (by decide)
    · exact Nat.le_trans hhigh (by decide)
    · decide
    · decide
    · decide
  have hblank := (isLetter_eq_true hletter.1).1
  refine ⟨hblank, ?_, ?_, hsign (by simp), hsign (by simp)⟩
  · simp [isPlain, hletter]
  · simp only [Number.isMargin, hblank, Bool.false_or, Bool.or_eq_false_iff, beq_eq_false_iff_ne]
    omega

/-- A word with a dot that does not start as a number does is cut at its dots. -/
theorem wordTokens_of_dotted {cs : List Char} (hall : ∀ d ∈ c :: cs, isDotted d = true)
    (hpoint : '.' ∈ c :: cs) (hc : isDigit c = false) (hcs : c = '.' → cs.head?.any isDigit = false)
    (prev : Option Token) :
    wordTokens prev (String.ofList (c :: cs)) = dottedWord prev (String.ofList (c :: cs)) := by
  have hother {w : String} (hw : w.toList.contains '.' = false) : w ≠ String.ofList (c :: cs) := by
    rintro rfl
    rw [String.toList_ofList, List.contains_iff_mem.2 hpoint] at hw
    cases hw
  have hsymbols : ∀ y ∈ Symbol.all, y.text.toList.contains '.' = false := by decide +kernel
  have hrefused : ∀ w ∈ refusedOperators, w.toList.contains '.' = false := by decide +kernel
  have hreserved : ∀ w ∈ reservedWords, w.toList.contains '.' = false := by decide +kernel
  have hliteral : literal? (String.ofList (c :: cs)) = none := by
    unfold literal?
    split
    · next heq => exact absurd heq.symm (hother rfl)
    · next heq => exact absurd heq.symm (hother rfl)
    · next heq => exact absurd heq.symm (hother rfl)
    · rfl
  have hname : ¬ isValidName (String.ofList (c :: cs)) = true := by
    intro hname
    have hdot :=
      (isNameLetter_of_isValidName hname).2 '.' (by rw [String.toList_ofList]; exact hpoint)
    cases hdot
  have hsign := isDotted_eq_true (hall c (mem_cons_self ..))
  have hnumber := Number.read?_eq_none (fun d hd => (isDotted_eq_true (hall d hd)).2.2.1) hpoint hc
    hsign.2.2.2 hcs
  rw [wordTokens_of_free (fun hmem => hother (hreserved _ hmem) rfl)
    (fun hmem => hother (hrefused _ hmem) rfl)
    hliteral (fun y => hother (hsymbols y y.mem_all)), if_neg hname, hnumber]
  exact if_pos (by rw [String.toList_ofList]; exact List.contains_iff_mem.2 hpoint)

theorem pieces_of_not_mem {x : List Char} (hx : '.' ∉ x) : pieces '.' x = [x] := by
  induction x with
  | nil => rfl
  | cons c x ih =>
    obtain ⟨hc, hx⟩ := not_or.1 (mt List.mem_cons.2 hx)
    rw [pieces, if_neg (by simpa using Ne.symm hc), ih hx]

theorem pieces_append {x : List Char} (hx : '.' ∉ x) (rest : List Char) :
    pieces '.' (x ++ '.' :: rest) = x :: pieces '.' rest := by
  induction x with
  | nil => rfl
  | cons c x ih =>
    obtain ⟨hc, hx⟩ := not_or.1 (mt List.mem_cons.2 hx)
    rw [cons_append, pieces, if_neg (by simpa using Ne.symm hc), ih hx]

/-! ## Properties behind dots -/

/-- A name of a property that starts with a letter or an underscore. -/
def isDotName (p : String) : Bool :=
  isPropertyName p && p.toList.head?.any fun c => !isDigit c

/-- Properties, a dot before each. -/
def joined (ps : List String) : List Char :=
  ps.flatMap fun p => '.' :: p.toList

/-- The tokens of a property in brackets. -/
def bracketed (p : String) : List Token :=
  [.sym .lbracket, .val (.str p), .sym .rbracket]

theorem isNameLetter_of_isDotName (h : isDotName p = true) :
    ∀ c ∈ p.toList, isNameLetter c = true := by
  intro c hc
  simp only [isDotName, isPropertyName, Bool.and_eq_true, all_eq_true] at h
  simp [isNameLetter, h.1.2 c hc]

/-- What a name of a property starts with. -/
theorem exists_cons_of_isDotName (h : isDotName p = true) :
    ∃ c cs, p.toList = c :: cs ∧ isDigit c = false := by
  cases hp : p.toList with
  | nil => simp [isDotName, hp] at h
  | cons c cs =>
    simp only [isDotName, hp, head?_cons, Option.any_some, Bool.and_eq_true, Bool.not_eq_true'] at h
    exact ⟨c, cs, rfl, h.2⟩

theorem not_mem_of_letters {cs : List Char} (h : ∀ c ∈ cs, isNameLetter c = true) : '.' ∉ cs := by
  intro hmem
  cases h '.' hmem

theorem subscripts_of_isDotName (h : ∀ p ∈ ps, isDotName p = true) :
    subscripts ps = .ok (ps.flatMap bracketed) := by
  have hall : ps.mapM subscript = .ok (ps.map bracketed) := by
    induction ps with
    | nil => rfl
    | cons p ps ih =>
      obtain ⟨hp, hps⟩ := List.forall_mem_cons.1 h
      have hproperty : isPropertyName p = true := (Bool.and_eq_true_iff.1 hp).1
      rw [mapM_cons, subscript, if_pos hproperty, ih hps]
      rfl
  rw [subscripts, hall]
  rfl

theorem dotted_joined (hx : '.' ∉ x.toList) (h : ∀ p ∈ ps, isDotName p = true) :
    dotted (x.toList ++ joined ps) = x :: ps := by
  rw [dotted]
  induction ps generalizing x with
  | nil => simp [joined, pieces_of_not_mem hx]
  | cons p ps ih =>
    obtain ⟨hp, hps⟩ := List.forall_mem_cons.1 h
    have hrest := ih (not_mem_of_letters (isNameLetter_of_isDotName hp)) hps
    rw [joined, flatMap_cons, cons_append, pieces_append hx, map_cons, String.ofList_toList]
    exact congrArg (x :: ·) hrest

theorem isDotted_of_mem_joined (h : ∀ p ∈ ps, isDotName p = true) :
    ∀ c ∈ joined ps, isDotted c = true := by
  intro c hc
  obtain ⟨p, hp, hc⟩ := List.mem_flatMap.1 hc
  rcases List.mem_cons.1 hc with rfl | hc
  · rfl
  · simp [isDotted, isNameLetter_of_isDotName (h p hp) c hc]

/-- A word does not end in a dot if properties stand behind its dots. -/
theorem getLast_joined (h : ∀ q ∈ p :: ps, isDotName q = true) (x : List Char) :
    (x ++ joined (p :: ps)).getLast? ≠ some '.' := by
  induction ps generalizing p x with
  | nil =>
    obtain ⟨c, cs, hp, _⟩ := exists_cons_of_isDotName (h p (by simp))
    intro hlast
    have hmem : '.' ∈ p.toList := by
      refine mem_of_getLast? ?_
      rw [joined, flatMap_cons, flatMap_nil, append_nil, getLast?_append, hp] at hlast
      rw [hp]
      simpa using hlast
    exact not_mem_of_letters (isNameLetter_of_isDotName (h p (by simp))) hmem
  | cons q ps ih =>
    have hrest := ih (p := q) (fun r hr => h r (by simp_all)) (x ++ '.' :: p.toList)
    rwa [append_assoc] at hrest

/-! ## Words that go on -/

/-- Behind the tokens `done` the word is read as `ts`, and dots may go on with it. -/
def Open (done : List Token) (w : List Char) (ts : List Token) : Prop :=
  ∀ ps : List String, (∀ p ∈ ps, isDotName p = true) →
    wordTokens done.head? (String.ofList (w ++ joined ps)) = .ok (ts ++ ps.flatMap bracketed)

theorem Open.read (h : Open done w ts) : wordTokens done.head? (String.ofList w) = .ok ts := by
  simpa [joined] using h [] (by simp)

theorem Open.dot (h : Open done w ts) (hp : isDotName p = true) :
    Open done (w ++ '.' :: p.toList) (ts ++ bracketed p) := by
  intro ps hps
  have hword := h (p :: ps) (List.forall_mem_cons.2 ⟨hp, hps⟩)
  rwa [joined, flatMap_cons, flatMap_cons, ← append_assoc, ← append_assoc] at hword

/-- What a name starts with. -/
theorem exists_cons_of_isValidName (h : isValidName x = true) :
    ∃ c cs, x.toList = c :: cs ∧ isDigit c = false ∧ c ≠ '.' := by
  have hlike : isNameLike x = true := (Bool.and_eq_true_iff.1 h).2
  obtain ⟨hne, hletters⟩ := isNameLetter_of_isValidName h
  simp only [isNameLike, Bool.or_eq_true, beq_iff_eq] at hlike
  rcases hlike with (rfl | rfl) | hlike
  · exact ⟨'_', [], rfl, rfl, by decide⟩
  · exact ⟨'$', [], rfl, rfl, by decide⟩
  · cases hx : x.toList with
    | nil => exact absurd hx hne
    | cons c cs =>
      rw [hx] at hlike hletters
      simp only [Bool.and_eq_true, isLower, decide_eq_true_eq] at hlike
      have hlow : 97 ≤ c.toNat := hlike.1.1.1
      refine ⟨c, cs, rfl, ?_, ?_⟩
      · rw [Bool.eq_false_iff]
        intro hdigit
        have hhigh := (Number.toNat_of_isDigit hdigit).2
        omega
      · rintro rfl
        cases hletters '.' (mem_cons_self ..)

theorem open_name (hx : isValidName x = true) (done : List Token) :
    Open done x.toList [.name x] := by
  intro ps hps
  cases ps with
  | nil =>
    rw [joined, flatMap_nil, append_nil, String.ofList_toList]
    exact wordTokens_name hx _
  | cons p ps =>
    obtain ⟨c, cs, hcons, hdigit, hpoint⟩ := exists_cons_of_isValidName hx
    have hletters := (isNameLetter_of_isValidName hx).2
    have hdotted : ∀ d ∈ x.toList ++ joined (p :: ps), isDotted d = true := by
      intro d hd
      rcases List.mem_append.1 hd with hd | hd
      · simp [isDotted, hletters d hd]
      · exact isDotted_of_mem_joined hps d hd
    have hmem : '.' ∈ x.toList ++ joined (p :: ps) := by simp [joined]
    have hlast := getLast_joined hps x.toList
    have hpieces := dotted_joined (not_mem_of_letters hletters) hps
    rw [hcons, cons_append] at hdotted hmem hlast hpieces ⊢
    rw [wordTokens_of_dotted hdotted hmem hdigit (fun h => absurd h hpoint), dottedWord,
      String.toList_ofList, if_neg (by simpa using hlast)]
    split
    · next heq => exact absurd (cons.inj heq).1 hpoint
    · rw [hpieces]
      dsimp only
      rw [if_pos hx, subscripts_of_isDotName hps]
      rfl

/-- Something that may have properties: a variable, or what ends in a bracket. -/
def Refinable (t : Token) : Prop :=
  ∃ s, t.text? = some s ∧ (closers.contains s || isValidName s) = true

theorem open_dot {t : Token} (ht : Refinable t) (hp : isDotName p = true) (done : List Token) :
    Open (t :: done) ('.' :: p.toList) (bracketed p) := by
  intro ps hps
  have hall : ∀ q ∈ p :: ps, isDotName q = true := List.forall_mem_cons.2 ⟨hp, hps⟩
  obtain ⟨s, htext, hs⟩ := ht
  obtain ⟨c, cs, hcons, hdigit⟩ := exists_cons_of_isDotName hp
  have hdotted : ∀ d ∈ '.' :: (p.toList ++ joined ps), isDotted d = true :=
    isDotted_of_mem_joined hall
  have hlast : ('.' :: (p.toList ++ joined ps)).getLast? ≠ some '.' := getLast_joined hall []
  have hpieces := dotted_joined (not_mem_of_letters (isNameLetter_of_isDotName hp)) hps
  rw [cons_append, wordTokens_of_dotted hdotted (mem_cons_self ..) rfl
    (fun _ => by simp [hcons, hdigit]),
    dottedWord, String.toList_ofList, if_neg (by simpa using hlast)]
  simp only [head?_cons, htext, hs, if_true, hpieces]
  exact subscripts_of_isDotName hall

/-! ## A name with properties -/

/-- A property behind a dot, with blanks and line breaks before the dot. -/
structure Refinement where
  gap : List Char
  property : String
  gap_blank : ∀ c ∈ gap, isBlank c = true
  property_named : isDotName property = true

/-- The text of a property behind a dot. -/
def Refinement.chars (r : Refinement) : List Char :=
  r.gap ++ '.' :: r.property.toList

theorem Refinement.isDotted (r : Refinement) :
    ∀ c ∈ '.' :: r.property.toList, isDotted c = true := by
  intro c hc
  have hnamed : ∀ p ∈ [r.property], isDotName p = true := by simpa using r.property_named
  exact isDotted_of_mem_joined hnamed c (by simpa [joined] using hc)

theorem wordsFrom_letters {a : List Char} (h : ∀ c ∈ a, isBlank c = false) (word b : List Char) :
    wordsFrom word (a ++ b) = wordsFrom (a.reverse ++ word) b := by
  induction a generalizing word with
  | nil => rfl
  | cons c a ih =>
    obtain ⟨hc, ha⟩ := List.forall_mem_cons.1 h
    rw [cons_append, wordsFrom, if_neg (by simp [hc]), ih ha]
    simp

theorem wordsFrom_gap {gap : List Char} (h : ∀ c ∈ gap, isBlank c = true) (hne : gap ≠ [])
    {word : List Char} (hword : word ≠ []) (b : List Char) :
    wordsFrom word (gap ++ b) = word.reverse :: words b := by
  have hblank : ∀ gap : List Char, (∀ c ∈ gap, isBlank c = true) →
      wordsFrom [] (gap ++ b) = words b := by
    intro gap h
    induction gap with
    | nil => rfl
    | cons c gap ih =>
      obtain ⟨hc, hgap⟩ := List.forall_mem_cons.1 h
      rw [cons_append, wordsFrom, if_pos hc, if_pos (by rfl), ih hgap]
  cases gap with
  | nil => exact absurd rfl hne
  | cons c gap =>
    obtain ⟨hc, hgap⟩ := List.forall_mem_cons.1 h
    rw [cons_append, wordsFrom, if_pos hc, if_neg (by simpa using hword), hblank gap hgap]

/-- Properties go on with the word before them, or open one of their own if there is a gap. Either
way they are read as brackets. -/
theorem readWords_refinements (h : Open done w ts) (hw : w ≠ [])
    (hlast : ∃ before t, ts = before ++ [t] ∧ Refinable t) (rs : List Refinement) :
    readWords done ((wordsFrom w.reverse (rs.flatMap Refinement.chars)).map String.ofList) =
      .ok ((ts ++ rs.flatMap fun r => bracketed r.property).reverse ++ done) := by
  induction rs generalizing done ts w with
  | nil =>
    have hwords : wordsFrom w.reverse [] = [w] := by simp [wordsFrom, hw]
    rw [flatMap_nil, hwords, map_singleton, readWords, h.read, flatMap_nil, append_nil]
    rfl
  | cons r rs ih =>
    have hletters : ∀ c ∈ '.' :: r.property.toList, isBlank c = false :=
      fun c hc => (isDotted_eq_true (r.isDotted c hc)).1
    have hbracket : Refinable (.sym .rbracket) := ⟨"]", rfl, by decide⟩
    rw [flatMap_cons, flatMap_cons, Refinement.chars, append_assoc]
    by_cases hgap : r.gap = []
    · -- the dot goes on with the word before it
      have hrest := ih (h.dot r.property_named) (by simp)
        ⟨ts ++ [.sym .lbracket, .val (.str r.property)],
          .sym .rbracket, by simp [bracketed], hbracket⟩
      rw [hgap, nil_append, wordsFrom_letters hletters, ← reverse_append, hrest, append_assoc]
    · -- the word before the gap is read, and its last token may have properties
      obtain ⟨before, t, rfl, ht⟩ := hlast
      have hrest := ih (open_dot ht r.property_named (before.reverse ++ done)) (by simp)
        ⟨[.sym .lbracket, .val (.str r.property)], .sym .rbracket, rfl, hbracket⟩
      have hwords : words ('.' :: r.property.toList ++ rs.flatMap Refinement.chars) =
          wordsFrom ('.' :: r.property.toList).reverse (rs.flatMap Refinement.chars) := by
        rw [words, wordsFrom_letters hletters, append_nil]
      rw [wordsFrom_gap r.gap_blank hgap (by simpa using hw), reverse_reverse, map_cons, readWords,
        h.read, hwords]
      have hdone : (before ++ [t]).reverse ++ done = t :: (before.reverse ++ done) := by simp
      change readWords ((before ++ [t]).reverse ++ done) _ = _
      rw [hdone, hrest]
      simp

/-- A name and its properties behind dots. -/
def dotText (x : String) (rs : List Refinement) : String :=
  x ++ String.ofList (rs.flatMap Refinement.chars)

/-- A name and its properties in brackets. -/
def bracketText (x : String) (ps : List String) : String :=
  x ++ String.join (ps.map fun p => "[\"" ++ p ++ "\"]")

theorem lex_dotText (hx : isValidName x = true) (rs : List Refinement) :
    lex (dotText x rs) = .ok (.sym .varMark :: .name x :: rs.flatMap fun r =>
      bracketed r.property) := by
  obtain ⟨hne, hletters⟩ := isNameLetter_of_isValidName hx
  have hname : ∀ c ∈ x.toList, isDotted c = true := fun c hc => by simp [isDotted, hletters c hc]
  have hchars : (dotText x rs).toList = x.toList ++ rs.flatMap Refinement.chars := by simp [dotText]
  have hplain : ∀ c ∈ (dotText x rs).toList, isPlain c = true := by
    intro c hc
    rw [hchars] at hc
    rcases List.mem_append.1 hc with hc | hc
    · exact (isDotted_eq_true (hname c hc)).2.1
    · obtain ⟨r, _, hc⟩ := List.mem_flatMap.1 hc
      rcases List.mem_append.1 hc with hc | hc
      · simp [isPlain, r.gap_blank c hc]
      · exact (isDotted_eq_true (r.isDotted c hc)).2.1
  have hwords :
      words (dotText x rs).toList = wordsFrom x.toList.reverse (rs.flatMap Refinement.chars) := by
    rw [hchars, words, wordsFrom_letters fun c hc => (isDotted_eq_true (hname c hc)).1, append_nil]
  have hread := readWords_refinements (open_name hx []) hne
      ⟨[], .name x, rfl, x, rfl, by simp [hx]⟩ rs
  rw [← hwords] at hread
  simpa using lex_of_plain hplain hread

theorem escaped_of_ne {cs : List Char} (h : ∀ c ∈ cs, c ≠ '"') : escaped cs = cs := by
  induction cs with
  | nil => rfl
  | cons c cs ih =>
    obtain ⟨hc, hcs⟩ := List.forall_mem_cons.1 h
    rw [escaped_cons hc, ih hcs]

theorem closed_bracketed (hp : isDotName p = true) :
    Closed ("[\"" ++ p ++ "\"]").toList (bracketed p) := by
  have hletters := isNameLetter_of_isDotName hp
  have hplain : ∀ c ∈ ['\\', '"', '\n', '\r'], isNameLetter c = false := by decide
  have hother {c d : Char} (hd : d ∈ ['\\', '"', '\n', '\r']) (hc : c ∈ p.toList) : c ≠ d := by
    rintro rfl
    have := hletters c hc
    rw [hplain c hd] at this
    cases this
  have hinside : (quote p).toList = '"' :: (escaped p.toList ++ ['"']) := by simp [quote, escaped]
  rw [escaped_of_ne fun c hc => hother (by simp) hc] at hinside
  have hquote : Closed (quote p).toList [.val (.str p)] := by
    refine closed_quote fun c hc => ⟨hother (by simp) hc, ?_⟩
    simp [isBreak, hother (show '\n' ∈ _ by simp) hc, hother (show '\r' ∈ _ by simp) hc]
  have hopen : Closed ['['] [.sym .lbracket] := closed_separator (by decide) rfl
  have hclose : Closed [']'] [.sym .rbracket] := closed_separator (by decide) rfl
  have hall := hopen.append (hquote.append hclose)
  have htext : ("[\"" ++ p ++ "\"]").toList = ['['] ++ ((quote p).toList ++ [']']) := by
    simp [hinside]
  rwa [htext]

theorem lex_bracketText (hx : isValidName x = true) (hps : ∀ p ∈ ps, isDotName p = true) :
    lex (bracketText x ps) = .ok (.sym .varMark :: .name x :: ps.flatMap bracketed) := by
  have hrest :
      Closed (String.join (ps.map fun p => "[\"" ++ p ++ "\"]")).toList (ps.flatMap bracketed) := by
    induction ps with
    | nil => exact closed_nil
    | cons p ps ih =>
      obtain ⟨hp, hps⟩ := List.forall_mem_cons.1 hps
      simpa using (closed_bracketed hp).append (ih hps)
  have hall := Spells.append (word_name hx) hrest.word fun cs hcs => by
    cases ps with
    | nil => exact hcs
    | cons p ps =>
      rw [map_cons, String.join_cons, String.toList_append, String.toList_append,
        String.toList_append]
      exact endsWord_separator (by decide)
  have hend : EndsWord [] := by simp [EndsWord]
  exact lex_of_spells hend (by simpa [bracketText] using hall)

/-- **Dots are subscripts.** A name with properties behind dots is read as the name with the
properties in brackets, wherever there are blanks and line breaks before the dots. -/
theorem lex_dots_eq_brackets {x : String} (hx : isValidName x = true) (rs : List Refinement) :
    lex (dotText x rs) = lex (bracketText x (rs.map Refinement.property)) ∧
      lex (dotText x rs) = .ok (.sym .varMark :: .name x :: rs.flatMap fun r =>
        bracketed r.property) := by
  have hdots := lex_dotText hx rs
  have hnamed : ∀ p ∈ rs.map Refinement.property, isDotName p = true := by
    intro p hp
    obtain ⟨r, _, rfl⟩ := List.mem_map.1 hp
    exact r.property_named
  have hbrackets := lex_bracketText hx hnamed
  rw [flatMap_map] at hbrackets
  exact ⟨hdots.trans hbrackets.symm, hdots⟩

/-- The second property stands on the next line, behind a tab. -/
theorem lex_dots_eq_brackets_lines :
    isValidName "a" = true ∧ lex "a.b \r\n\t._c1" = lex "a[\"b\"][\"_c1\"]" ∧
      lex "a.b \r\n\t._c1" = .ok [.sym .varMark, .name "a", .sym .lbracket, .val (.str "b"),
        .sym .rbracket, .sym .lbracket, .val (.str "_c1"), .sym .rbracket] := by
  let first : Refinement := ⟨[], "b", by decide, by decide⟩
  let second : Refinement := ⟨[' ', '\r', '\n', '\t'], "_c1", by decide, by decide⟩
  have hdots : dotText "a" [first, second] = "a.b \r\n\t._c1" := by decide +kernel
  have hbrackets : bracketText "a" ([first, second].map Refinement.property) =
      "a[\"b\"][\"_c1\"]" := by
    decide +kernel
  have hlex := lex_dots_eq_brackets (x := "a") (by decide) [first, second]
  rw [hdots, hbrackets] at hlex
  exact ⟨by decide, hlex⟩

end Lexer

end LittleJ
