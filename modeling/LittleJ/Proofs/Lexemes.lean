import LittleJ.Proofs.Literal
import LittleJ.Proofs.Spacing
import LittleJ.Proofs.WholeNumber
import LittleJ.Token.Printer

/-!
# Reading printed text piece by piece

The lexer cuts a line into segments and a segment into words, and looks at the whole line to do it.
Printed text needs no such look: it is made of pieces each of which is read as its tokens wherever
it stands. Some pieces end by themselves, as a literal, a bracket or a blank does; a word ends where
something follows that ends it.
-/

namespace LittleJ.Lexer

open Except List Text Number

variable {cs w : List Char} {c : Char} {s : String}

/-! ## Reading a line from a point between two pieces -/

/-- Reads a line of text after the tokens `done`, which are in reverse order. -/
def readLine (done : List Token) (cs : List Char) : Except Failure (List Token) :=
  match lineSegments cs with
  | .error e => .error (.error e)
  | .ok segs => readSegments done segs

/-- Segments with code put before them. -/
def lead (cs : List Char) : List Segment → List Segment
  | .code a :: segs => .code (cs ++ a) :: segs
  | segs => segs

theorem segmentsFrom_code (part cs : List Char) :
    segmentsFrom .code part cs = (segmentsFrom .code [] cs).map (lead part.reverse) := by
  induction cs generalizing part with
  | nil => simp [segmentsFrom, Except.map, lead]
  | cons c cs ih =>
    rw [segmentsFrom, segmentsFrom]
    split
    · cases segmentsFrom (.quoted c c) [] cs with
      | error e => rfl
      | ok segs => simp [bind, Except.bind, pure, Except.pure, Except.map, lead]
    · split
      · simp [Except.map, lead]
      · rw [ih, ih [c]]
        cases segmentsFrom .code [] cs with
        | error e => rfl
        | ok segs =>
          rcases segs with _ | ⟨_ | _, _⟩ <;> simp [Except.map, lead]

/-- A line starts with a segment of code, which is how the line starts. -/
theorem exists_code_of_lineSegments {segs : List Segment} (h : lineSegments cs = .ok segs) :
    ∃ a rest, segs = .code a :: rest ∧ a <+: cs := by
  unfold lineSegments at h
  induction cs generalizing segs with
  | nil => cases h; exact ⟨[], [], rfl, nil_prefix⟩
  | cons c cs ih =>
    rw [segmentsFrom] at h
    split at h
    · cases hrest : segmentsFrom (.quoted c c) [] cs with
      | error e => rw [hrest] at h; cases h
      | ok rest => rw [hrest] at h; cases h; exact ⟨[], rest, rfl, nil_prefix⟩
    · split at h
      · cases h; exact ⟨[], [], rfl, nil_prefix⟩
      · rw [segmentsFrom_code] at h
        cases hrest : segmentsFrom .code [] cs with
        | error e => rw [hrest] at h; cases h
        | ok segs' =>
          obtain ⟨a, rest, rfl, hp⟩ := ih hrest
          rw [hrest] at h
          cases h
          exact ⟨c :: a, rest, rfl, List.cons_prefix_cons.2 ⟨rfl, hp⟩⟩

theorem readWords_append (done : List Token) (ws ws' : List String) :
    readWords done (ws ++ ws') = readWords done ws >>= (readWords · ws') := by
  induction ws generalizing done with
  | nil => rfl
  | cons w ws ih =>
    rw [cons_append, readWords, readWords]
    cases wordTokens done.head? w with
    | error e => rfl
    | ok ts => exact ih _

/-- Code that opens no literal and starts no comment. -/
structure Unquoted (cs : List Char) : Prop where
  quotes : ∀ c ∈ cs, isQuote c = false
  slash : '/' ∉ cs ∨ cs = ['/']

theorem Unquoted.segmentsFrom (h : Unquoted cs) {rest : List Char}
    (hrest : '/' ∈ cs → rest.head? ≠ some '/') (part : List Char) :
    segmentsFrom .code part (cs ++ rest) = segmentsFrom .code (cs.reverse ++ part) rest := by
  obtain ⟨hquote, hslash | rfl⟩ := h
  · clear hrest
    induction cs generalizing part with
    | nil => rfl
    | cons c cs ih =>
      obtain ⟨hc, hcs⟩ := List.forall_mem_cons.1 hquote
      obtain ⟨hne, hslash⟩ := not_or.1 (mt List.mem_cons.2 hslash)
      rw [cons_append, Lexer.segmentsFrom, hc, if_neg (by simp), if_neg (by simp [Ne.symm hne]),
        ih _ hcs hslash]
      simp
  · rw [singleton_append, Lexer.segmentsFrom, hquote '/' (List.mem_singleton.2 rfl),
      if_neg (by simp), if_neg (by simpa using hrest (List.mem_singleton.2 rfl))]
    rfl

/-! ## What may follow a word -/

/-- A word that stands before the text is at its end: the text is empty, or it starts with a blank
or a separator. -/
def EndsWord (cs : List Char) : Prop :=
  ∀ c, cs.head? = some c → c = ' ' ∨ c ∈ separators

theorem endsWord_blank (cs : List Char) : EndsWord (' ' :: cs) := by
  intro d hd
  cases hd
  exact .inl rfl

theorem endsWord_separator (h : c ∈ separators) : EndsWord (c :: cs) := by
  intro d hd
  cases hd
  exact .inr h

theorem codeWords_nil : codeWords [] = [] := by
  rw [codeWords, spread_of_letters (by simp)]
  rfl

/-- A blank of any kind is passed over where code is spread out. -/
theorem spread_cons_of_blank (hc : isBlank c = true) (cs : List Char) :
    spread (c :: cs) = c :: spread cs := by
  have hnil : spread [] = [] := spread_of_letters (by simp)
  have hother : ∀ y ∈ '&' :: '|' :: signs, isBlank y = false := by decide
  by_cases hspace : c = ' '
  · subst hspace
    have hstep := spread_blank [] cs
    rwa [nil_append, hnil, nil_append] at hstep
  · have hne : ∀ y ∈ '&' :: '|' :: signs, c ≠ y := by
      rintro y hy rfl
      rw [hother c hy] at hc
      cases hc
    have hstep := spread_plain hspace (fun hmem => hne c (by simp [hmem]) rfl) (hne '&' (by simp))
      (hne '|' (by simp)) [] cs
    rwa [nil_append, hnil, nil_append] at hstep

/-- Blanks have no words. -/
theorem codeWords_of_blank (h : ∀ c ∈ cs, isBlank c = true) : codeWords cs = [] := by
  induction cs with
  | nil => exact codeWords_nil
  | cons c cs ih =>
    obtain ⟨hc, hcs⟩ := List.forall_mem_cons.1 h
    rw [← ih hcs, codeWords, codeWords, spread_cons_of_blank hc, words, wordsFrom, if_pos hc,
      if_pos (by rfl), words]

theorem codeWords_append (h : EndsWord cs) (w : List Char) :
    codeWords (w ++ cs) = codeWords w ++ codeWords cs := by
  cases cs with
  | nil => rw [codeWords_nil, append_nil, append_nil]
  | cons c cs =>
    rcases h c rfl with rfl | hc
    · have hblank : codeWords (' ' :: cs) = codeWords [] ++ codeWords cs := codeWords_blank [] cs
      rw [codeWords_blank, hblank, codeWords_nil, nil_append]
    · have hsep : codeWords (c :: cs) = codeWords [] ++ String.singleton c :: codeWords cs :=
        codeWords_separator hc [] cs
      rw [codeWords_separator hc, hsep, codeWords_nil, nil_append]

theorem EndsWord.of_prefix {a : List Char} (h : EndsWord cs) (hp : a <+: cs) : EndsWord a := by
  intro c hc
  obtain ⟨rest, rfl⟩ := hp
  exact h c (by rw [head?_append, hc, Option.some_or])

theorem EndsWord.head_ne_slash (h : EndsWord cs) : cs.head? ≠ some '/' := by
  intro hslash
  rcases h '/' hslash with heq | hmem
  · cases heq
  · exact absurd hmem (by decide)

/-- Unquoted code is read by its words alone if they do not run on into what follows. -/
theorem readLine_unquoted (hw : Unquoted w) (hcs : '/' ∈ w → cs.head? ≠ some '/')
    (hwords : ∀ a, a <+: cs → codeWords (w ++ a) = codeWords w ++ codeWords a)
    {done ts : List Token} (hread : readWords done (codeWords w) = .ok ts) :
    readLine done (w ++ cs) = readLine ts cs := by
  have hsegs : lineSegments (w ++ cs) = (lineSegments cs).map (lead w) := by
    rw [lineSegments, hw.segmentsFrom hcs, List.append_nil, segmentsFrom_code, List.reverse_reverse]
    rfl
  rw [readLine, readLine, hsegs]
  cases hline : lineSegments cs with
  | error e => rfl
  | ok segs =>
    obtain ⟨a, rest, rfl, hp⟩ := exists_code_of_lineSegments hline
    simp only [Except.map, lead, readSegments, hwords a hp, readWords_append, hread,
      bind, Except.bind]

/-! ## Literals -/

/-- The body of a string literal in double quotes. -/
def escaped (cs : List Char) : List Char :=
  cs.flatMap fun c => if c == '"' then ['\\', '"'] else [c]

theorem escaped_quote (cs : List Char) : escaped ('"' :: cs) = '\\' :: '"' :: escaped cs :=
  rfl

theorem escaped_cons (h : c ≠ '"') (cs : List Char) : escaped (c :: cs) = c :: escaped cs := by
  rw [escaped, flatMap_cons, if_neg (by simpa using h)]
  rfl

theorem segmentsFrom_escaped (h : ∀ c ∈ cs, c ≠ '\\') {prev : Char} (hprev : prev ≠ '\\')
    (part rest : List Char) :
    segmentsFrom (.quoted '"' prev) part (escaped cs ++ '"' :: rest) =
      (lineSegments rest).map (.quoted (part.reverse ++ escaped cs) :: ·) := by
  induction cs generalizing prev part with
  | nil =>
    have hclose : ('"' == '"' && prev != '\\') = true := by simpa using hprev
    rw [escaped, flatMap_nil, nil_append, segmentsFrom, if_pos hclose, append_nil]
    unfold lineSegments
    cases segmentsFrom .code [] rest <;> rfl
  | cons c cs ih =>
    obtain ⟨hc, hcs⟩ := List.forall_mem_cons.1 h
    by_cases hquote : c = '"'
    · -- the backslash keeps the quote from closing the literal
      subst hquote
      rw [escaped_quote, cons_append, cons_append, segmentsFrom, if_neg (by simp), segmentsFrom,
        if_neg (by simp), ih hcs (by simp)]
      simp
    · rw [escaped_cons hquote, cons_append, segmentsFrom, if_neg (by simp [hquote]), ih hcs hc]
      simp

theorem decode_escaped (h : ∀ c ∈ cs, c ≠ '\\') : Escape.decode (escaped cs) = some cs := by
  unfold Escape.decode
  induction cs with
  | nil => rfl
  | cons c cs ih =>
    obtain ⟨hc, hcs⟩ := List.forall_mem_cons.1 h
    by_cases hquote : c = '"'
    · subst hquote
      simp [escaped_quote, Escape.decodeFrom, Escape.step, Escape.letter?, ih hcs]
    · simp [escaped_cons hquote, Escape.decodeFrom, Escape.step, hc, ih hcs]

/-- A printed string is read as the string. -/
theorem readLine_quote {text : String} (h : ∀ c ∈ text.toList, c ≠ '\\') (done : List Token)
    (cs : List Char) :
    readLine done ((quote text).toList ++ cs) = readLine (.val (.str text) :: done) cs := by
  have htext : (quote text).toList ++ cs = '"' :: (escaped text.toList ++ '"' :: cs) := by
    simp [quote, escaped]
  have hsegs : lineSegments ('"' :: (escaped text.toList ++ '"' :: cs)) =
      (lineSegments cs).map fun segs => .code [] :: .quoted (escaped text.toList) :: segs := by
    rw [lineSegments, segmentsFrom, if_pos (by rfl), segmentsFrom_escaped h (by simp)]
    cases lineSegments cs <;> rfl
  rw [readLine, htext, hsegs, readLine]
  cases lineSegments cs with
  | error e => rfl
  | ok segs =>
    simp only [Except.map, readSegments, codeWords_nil, readWords, bind, Except.bind,
      decode_escaped h, String.ofList_toList]

/-! ## Pieces of text -/

/-- The text is read as the tokens `ts` where what follows is as `next` says. -/
structure Spells (next : List Char → Prop) (text : List Char) (ts : List Token) : Prop where
  /-- The text is on one line. -/
  unbroken : ∀ c ∈ text, isBreak c = false
  read : ∀ done cs, next cs → readLine done (text ++ cs) = readLine (ts.reverse ++ done) cs

/-- The text is read as the tokens `ts` wherever it stands. -/
abbrev Closed : List Char → List Token → Prop :=
  Spells fun _ => True

/-- The text is read as the tokens `ts` where it ends a word. -/
abbrev Word : List Char → List Token → Prop :=
  Spells EndsWord

theorem Closed.word {text : List Char} {ts : List Token} (h : Closed text ts) : Word text ts :=
  ⟨h.unbroken, fun done cs _ => h.read done cs trivial⟩

section

variable {next next' : List Char → Prop} {text text' : List Char} {ts ts' : List Token}

theorem Spells.append (h : Spells next text ts) (h' : Spells next' text' ts')
    (hnext : ∀ cs, next' cs → next (text' ++ cs)) : Spells next' (text ++ text') (ts ++ ts') where
  unbroken c hc := (List.mem_append.1 hc).elim (h.unbroken c) (h'.unbroken c)
  read done cs hcs := by
    rw [append_assoc, h.read done _ (hnext cs hcs), h'.read _ cs hcs, reverse_append, append_assoc]

end

/-- A closed piece may stand before any other. -/
theorem Closed.append {next : List Char → Prop} {text text' : List Char} {ts ts' : List Token}
    (h : Closed text ts) (h' : Spells next text' ts') : Spells next (text ++ text') (ts ++ ts') :=
  Spells.append h h' fun _ _ => trivial

/-- A word may stand before what starts with a blank or a separator. -/
theorem Word.append {next : List Char → Prop} {text text' : List Char} {ts ts' : List Token}
    (h : Word text ts) (h' : Spells next text' ts') (hne : text' ≠ []) (hends : EndsWord text') :
    Spells next (text ++ text') (ts ++ ts') := by
  refine Spells.append h h' fun cs _ c hc => hends c ?_
  rwa [head?_append_of_ne_nil _ hne] at hc

/-! ## Words and what they are read as -/

theorem ofText?_text (y : Symbol) : Symbol.ofText? y.text = some y := by
  cases y <;> rfl

theorem wordTokens_symbol (y : Symbol) (prev : Option Token) :
    wordTokens prev y.text = .ok [.sym y] := by
  have hfree : ∀ y ∈ Symbol.all, reservedWords.contains y.text = false ∧
      refusedOperators.contains y.text = false ∧
      literal? y.text = none := by
    decide +kernel
  obtain ⟨hreserved, hrefused, hliteral⟩ := hfree y y.mem_all
  rw [wordTokens, hreserved, hrefused, hliteral, ofText?_text, if_neg (by simp), if_neg (by simp)]

theorem ofText?_eq_none (h : ∀ y : Symbol, y.text ≠ s) : Symbol.ofText? s = none := by
  rw [Symbol.ofText?, find?_eq_none]
  intro y _
  simpa using h y

/-- A word that is no word of the language, no operator and no symbol. -/
theorem wordTokens_of_free (hreserved : s ∉ reservedWords) (hrefused : s ∉ refusedOperators)
    (hliteral : literal? s = none) (hsymbol : ∀ y : Symbol, y.text ≠ s) (prev : Option Token) :
    wordTokens prev s = if isValidName s then .ok [.name s]
      else match read? s with
        | some x =>
          if isDecimalText s then .ok [.val (.num x)] else .error (.error (.octalNumber s))
        | none =>
          if s.toList.contains '.' then dottedWord prev s else .error (.error (.strayToken s)) := by
  have hnone := ofText?_eq_none hsymbol
  rw [wordTokens, if_neg (by simpa using hreserved), if_neg (by simpa using hrefused)]
  revert hliteral hnone
  generalize literal? s = v
  generalize Symbol.ofText? s = y
  rintro rfl rfl
  rfl

/-- No symbol may name a variable. -/
theorem text_ne_of_isValidName (h : isValidName s = true) (y : Symbol) : y.text ≠ s := by
  have hsymbols : ∀ y ∈ Symbol.all, isValidName y.text = false := by decide +kernel
  intro hs
  rw [← hs, hsymbols y y.mem_all] at h
  cases h

theorem wordTokens_name (h : isValidName s = true) (prev : Option Token) :
    wordTokens prev s = .ok [.name s] := by
  have hother {w : String} (hw : isValidName w = false) : w ≠ s := by
    rintro rfl
    rw [h] at hw
    cases hw
  have hrefused : ∀ w ∈ refusedOperators, isValidName w = false := by decide +kernel
  have hreserved : ∀ w ∈ reservedWords, isValidName w = false := by decide +kernel
  have hliteral : literal? s = none := by
    unfold literal?
    split
    · cases h
    · cases h
    · cases h
    · rfl
  rw [wordTokens_of_free (fun hmem => hother (hreserved s hmem) rfl)
    (fun hmem => hother (hrefused s hmem) rfl)
    hliteral (text_ne_of_isValidName h), if_pos h]

theorem wordTokens_digits (n : Nat) (prev : Option Token) :
    wordTokens prev (String.ofList (digitsOf n)) = .ok [.val (.num (ofDecimal n 0))] := by
  obtain ⟨d, ds, hds⟩ := exists_cons_of_ne_nil (digitsOf_ne_nil n)
  have hd : isDigit d = true := isDigit_of_mem_digitsOf d (by rw [hds]; simp)
  have hother {w : String} (hw : w.toList.head?.any isDigit = false) :
      w ≠ String.ofList (digitsOf n) := by
    rintro rfl
    simp [hds, hd] at hw
  have hsymbols : ∀ y ∈ Symbol.all, y.text.toList.head?.any isDigit = false := by decide +kernel
  have hrefused : ∀ w ∈ refusedOperators, w.toList.head?.any isDigit = false := by decide +kernel
  have hreserved : ∀ w ∈ reservedWords, w.toList.head?.any isDigit = false := by decide +kernel
  have hliteral : literal? (String.ofList (digitsOf n)) = none := by
    unfold literal?
    split
    · next heq => exact absurd heq.symm (hother rfl)
    · next heq => exact absurd heq.symm (hother rfl)
    · next heq => exact absurd heq.symm (hother rfl)
    · rfl
  have hname : isValidName (String.ofList (digitsOf n)) = false := by
    have hlower : isLower d = false := by
      have hnum := toNat_of_isDigit hd
      refine Bool.and_eq_false_imp.2 fun hlow => absurd (of_decide_eq_true hlow) fun hle => ?_
      have hle : 97 ≤ d.toNat := hle
      omega
    have hlone : ∀ w ∈ ["_", "$"], (String.ofList (digitsOf n) == w) = false := by
      intro w hw
      have hhead : ∀ w ∈ ["_", "$"], w.toList.head?.any isDigit = false := by decide
      exact beq_eq_false_iff_ne.2 (hother (hhead w hw)).symm
    rw [isValidName, isNameLike, hlone "_" (by simp), hlone "$" (by simp),
      String.toList_ofList, hds]
    simp [hlower]
  rw [wordTokens_of_free (fun hmem => hother (hreserved _ hmem) rfl)
    (fun hmem => hother (hrefused _ hmem) rfl)
    hliteral (fun y => hother (hsymbols y y.mem_all)), hname, if_neg (by simp), read_digitsOf]
  exact if_pos (isDecimalText_digitsOf n)

/-! ## The pieces -/

theorem closed_of_codeWords {ts : List Token} (hw : Unquoted w) (hslash : '/' ∉ w)
    (hunbroken : ∀ c ∈ w, isBreak c = false)
    (hwords : ∀ a, codeWords (w ++ a) = codeWords w ++ codeWords a)
    (hread : ∀ done, readWords done (codeWords w) = .ok (ts.reverse ++ done)) : Closed w ts where
  unbroken := hunbroken
  read done _ _ := readLine_unquoted hw (fun h => absurd h hslash)
    (fun a _ => hwords a) (hread done)

theorem word_of_codeWords {ts : List Token} (hw : Unquoted w)
    (hunbroken : ∀ c ∈ w, isBreak c = false) (hread : ∀ done, readWords done (codeWords w) = .ok
      (ts.reverse ++ done)) : Word w ts where
  unbroken := hunbroken
  read done _ hcs := readLine_unquoted hw (fun _ => hcs.head_ne_slash)
    (fun _ hp => codeWords_append (hcs.of_prefix hp) w) (hread done)

theorem closed_blank : Closed [' '] [] := by
  have hwords : codeWords [' '] = [] := by
    have hblank : codeWords [' '] = codeWords [] ++ codeWords [] := codeWords_blank [] []
    rw [hblank, codeWords_nil, nil_append]
  refine closed_of_codeWords ⟨by decide, .inl (by decide)⟩ (by decide) (by decide)
    (fun a => ?_) fun done => ?_
  · have hblank : codeWords ([' '] ++ a) = codeWords [] ++ codeWords a := codeWords_blank [] a
    rw [hblank, hwords, codeWords_nil]
  · rw [hwords]
    rfl

theorem closed_separator {y : Symbol} {x : Char} (hx : x ∈ separators)
    (hy : y.text = String.singleton x) :
    Closed [x] [.sym y] := by
  have hplain : ∀ z ∈ separators, isQuote z = false ∧ '/' ≠ z ∧ isBreak z = false := by decide
  obtain ⟨hquote, hslash, hbreak⟩ := hplain x hx
  have hwords : ∀ a, codeWords ([x] ++ a) = y.text :: codeWords a := by
    intro a
    have hsep : codeWords ([x] ++ a) = codeWords [] ++ String.singleton x :: codeWords a :=
      codeWords_separator hx [] a
    rw [hsep, codeWords_nil, nil_append, hy]
  have hone : codeWords [x] = [y.text] := by
    have h := hwords []
    rwa [append_nil, codeWords_nil] at h
  refine closed_of_codeWords ⟨by simpa using hquote, .inl (by simpa using hslash)⟩
    (by simpa using hslash) (by simpa using hbreak)
    (fun a => by rw [hwords, hone, singleton_append]) fun done => ?_
  rw [hone, readWords, wordTokens_symbol]
  rfl

theorem closed_quote {text : String} (h : ∀ c ∈ text.toList, c ≠ '\\' ∧ isBreak c = false) :
    Closed (quote text).toList [.val (.str text)] where
  unbroken c hc := by
    simp only [quote, String.toList_ofList, cons_append, mem_cons, mem_append, mem_flatMap,
      not_mem_nil, or_false] at hc
    rcases hc with rfl | ⟨d, hd, hc⟩ | rfl
    · rfl
    · split at hc
      · have hesc : ∀ e ∈ ['\\', '"'], isBreak e = false := by decide
        exact hesc c hc
      · rw [List.mem_singleton.1 hc]
        exact (h d hd).2
    · rfl
  read done cs _ := readLine_quote (fun c hc => (h c hc).1) done cs

theorem word_symbol (y : Symbol) : Word y.text.toList [.sym y] := by
  have hplain : ∀ y ∈ Symbol.all, (∀ c ∈ y.text.toList, isQuote c = false) ∧
      ('/' ∉ y.text.toList ∨ y.text.toList = ['/']) ∧ ∀ c ∈ y.text.toList, isBreak c = false := by
    decide +kernel
  obtain ⟨hquote, hslash, hbreak⟩ := hplain y y.mem_all
  refine word_of_codeWords ⟨hquote, hslash⟩ hbreak fun done => ?_
  rw [codeWords_symbol, readWords, wordTokens_symbol]
  rfl

/-! ## Words of letters -/

/-- A character of a name: a letter, a digit, an underscore or a dollar sign. -/
def isNameLetter (c : Char) : Bool :=
  isWord c || c == '$'

theorem toNat_of_isNameLetter (h : isNameLetter c = true) : 33 ≤ c.toNat := by
  simp only [isNameLetter, isWord, isLower, isDigit, Bool.or_eq_true, Bool.and_eq_true,
    decide_eq_true_eq, beq_iff_eq] at h
  rcases h with (((⟨hlow, _⟩ | ⟨hlow, _⟩) | ⟨hlow, _⟩) | rfl) | rfl
  · exact Nat.le_trans (by decide) hlow
  · exact Nat.le_trans (by decide) hlow
  · exact Nat.le_trans (by decide) hlow
  · decide
  · decide

theorem isLetter_of_isNameLetter (h : isNameLetter c = true) :
    isLetter c = true ∧ isQuote c = false ∧ '/' ≠ c ∧ isBreak c = false := by
  have hsigns : ∀ y ∈ signs ++ ['&', '|', '"', '\x27', '\n', '\r'], isNameLetter y = false := by
    decide
  have hother {y : Char} (hy : y ∈ signs ++ ['&', '|', '"', '\x27', '\n', '\r']) : c ≠ y := by
    rintro rfl
    rw [hsigns c hy] at h
    cases h
  have hblank : isBlank c = false := by
    have hlow := toNat_of_isNameLetter h
    simp only [isBlank, Bool.or_eq_false_iff, Bool.and_eq_false_iff, decide_eq_false_iff_not,
      beq_eq_false_iff_ne]
    omega
  have hsign : c ∉ signs := fun hmem => hother (mem_append_left _ hmem) rfl
  refine ⟨?_, ?_, (hother (by decide)).symm, ?_⟩
  · simp [isLetter, hblank, hsign, hother (show '&' ∈ _ by decide), hother (show '|' ∈ _ by decide)]
  · simp [isQuote, hother (show '"' ∈ _ by decide), hother (show '\x27' ∈ _ by decide)]
  · simp [isBreak, hother (show '\n' ∈ _ by decide), hother (show '\r' ∈ _ by decide)]

/-- A word of letters is read as its token. -/
theorem word_of_letters {t : Token} (hne : w ≠ []) (h : ∀ c ∈ w, isNameLetter c = true)
    (ht : ∀ prev, wordTokens prev (String.ofList w) = .ok [t]) : Word w [t] := by
  have hletter := fun c hc => isLetter_of_isNameLetter (h c hc)
  refine word_of_codeWords ⟨fun c hc => (hletter c hc).2.1, .inl fun hmem =>
    (hletter _ hmem).2.2.1 rfl⟩ (fun c hc => (hletter c hc).2.2.2) fun done => ?_
  rw [codeWords_of_letters hne fun c hc => (hletter c hc).1, readWords, ht]
  rfl

theorem isNameLetter_of_isValidName (h : isValidName s = true) :
    s.toList ≠ [] ∧ ∀ c ∈ s.toList, isNameLetter c = true := by
  have hlike : isNameLike s = true := (Bool.and_eq_true_iff.1 h).2
  simp only [isNameLike, Bool.or_eq_true, beq_iff_eq] at hlike
  rcases hlike with (rfl | rfl) | hlike
  · decide
  · decide
  · split at hlike
    · cases hlike
    · next c cs heq =>
        rw [heq]
        simp only [Bool.and_eq_true, all_eq_true] at hlike
        refine ⟨cons_ne_nil c cs, List.forall_mem_cons.2 ⟨?_, fun d hd => ?_⟩⟩
        · simp [isNameLetter, isWord, hlike.1.1]
        · simp [isNameLetter, hlike.1.2 d hd]

/-- A name is read as itself. -/
theorem word_name (h : isValidName s = true) : Word s.toList [.name s] := by
  obtain ⟨hne, hletters⟩ := isNameLetter_of_isValidName h
  refine word_of_letters hne hletters fun prev => ?_
  rw [String.ofList_toList]
  exact wordTokens_name h prev

theorem isNameLetter_of_mem_digitsOf {n : Nat} : ∀ c ∈ digitsOf n, isNameLetter c = true := by
  intro c hc
  simp [isNameLetter, isWord, isDigit_of_mem_digitsOf c hc]

/-- Digits are read as their number. -/
theorem word_digits (n : Nat) : Word (digitsOf n) [.val (.num (ofDecimal n 0))] :=
  word_of_letters (digitsOf_ne_nil n) isNameLetter_of_mem_digitsOf (wordTokens_digits n)

theorem word_minus (n : Nat) :
    Word ('-' :: digitsOf n) [.sym .minus, .val (.num (ofDecimal n 0))] := by
  have hletter := fun c hc => isLetter_of_isNameLetter (@isNameLetter_of_mem_digitsOf n c hc)
  refine word_of_codeWords ⟨?_, .inl ?_⟩ ?_ fun done => ?_
  · exact List.forall_mem_cons.2 ⟨rfl, fun c hc => (hletter c hc).2.1⟩
  · exact fun hmem => (List.mem_cons.1 hmem).elim (by decide) fun hmem => (hletter _ hmem).2.2.1 rfl
  · exact List.forall_mem_cons.2 ⟨rfl, fun c hc => (hletter c hc).2.2.2⟩
  · rw [codeWords_minus (digitsOf_ne_nil n) fun c hc => (hletter c hc).1, readWords,
      show "-" = Symbol.minus.text from rfl, wordTokens_symbol]
    simp only [bind, bind, readWords, wordTokens_digits]
    rfl

/-- The words for null and the booleans are read as their values. -/
theorem word_literal {w : String} {v : Value} (h : literal? w = some v) :
    Word w.toList [.val v] := by
  unfold literal? at h
  split at h
  · cases h
    exact word_of_letters (by decide) (by decide) fun _ => rfl
  · cases h
    exact word_of_letters (by decide) (by decide) fun _ => rfl
  · cases h
    exact word_of_letters (by decide) (by decide) fun _ => rfl
  · cases h

/-! ## Lists -/

theorem closed_nil : Closed [] [] :=
  ⟨by simp, fun _ _ _ => rfl⟩

/-- Words with a closed piece between them that ends a word. -/
theorem word_intercalate {sep : String} {between : List Token} (hsep : Closed sep.toList between)
    (hne : sep.toList ≠ []) (hends : EndsWord sep.toList) {parts : List (String × List Token)}
    (h : ∀ p ∈ parts, Word p.1.toList p.2) :
    Word (sep.intercalate (parts.map (·.1))).toList (between.intercalate (parts.map (·.2))) := by
  induction parts with
  | nil => exact closed_nil.word
  | cons p parts ih =>
    obtain ⟨hp, hparts⟩ := List.forall_mem_cons.1 h
    cases parts with
    | nil => simpa [intercalate] using hp
    | cons q parts =>
      have hrest := hsep.append (ih hparts)
      have hlist : between.intercalate ((p :: q :: parts).map (·.2)) =
          p.2 ++ (between ++ between.intercalate ((q :: parts).map (·.2))) := by
        simp [intercalate]
      have htext : (sep.intercalate ((p :: q :: parts).map (·.1))).toList =
          p.1.toList ++ (sep.toList ++ (sep.intercalate ((q :: parts).map (·.1))).toList) := by
        simp [String.intercalate_cons_cons]
      rw [hlist, htext]
      refine hp.append hrest (by simp [hne]) fun c hc => hends c ?_
      rwa [head?_append_of_ne_nil _ hne] at hc

theorem closed_comma : Closed ", ".toList [.sym .comma] :=
  (closed_separator (by decide) rfl : Closed [','] [.sym .comma]).append closed_blank

/-! ## A text of one line -/

theorem lines_unbroken (h : ∀ c ∈ cs, isBreak c = false) :
    lines cs = if cs.isEmpty then [] else [cs] := by
  have happend := linesFrom_append (show cs.all (!isBreak ·) = true by simpa using h) [] []
  rw [append_nil, append_nil] at happend
  rw [lines, happend, linesFrom, isEmpty_reverse, reverse_reverse]

/-- A text of one line that is not blank is read as the line it is. -/
theorem lex_line {text : String} (hunbroken : ∀ c ∈ text.toList, Text.isBreak c = false)
    (hblank : text.toList.all Text.isBlank = false) :
    lex text = (readLine [] text.toList).map fun done => .sym .varMark :: done.reverse := by
  have hne : text.toList.isEmpty = false := by
    rw [Bool.eq_false_iff]
    intro hnil
    rw [List.isEmpty_iff.1 hnil] at hblank
    cases hblank
  have hsegs : segments text.toList = lineSegments text.toList := by
    rw [segments, lines_unbroken hunbroken, hne, if_neg (by simp), List.filter_cons_of_pos
      (by simp [hblank]), List.filter_nil, List.mapM_cons, List.mapM_nil]
    cases lineSegments text.toList with
    | error e => rfl
    | ok segs => simp [bind, Except.bind, pure, Except.pure]
  rw [lex, hsegs, readLine]
  cases lineSegments text.toList with
  | error e => rfl
  | ok segs => cases readSegments [] segs <;> rfl

/-- A text without line breaks is read as the line it is. -/
theorem lex_of_readLine {text : String} (hunbroken : ∀ c ∈ text.toList, Text.isBreak c = false)
    {done : List Token} (h : readLine [] text.toList = .ok done) :
    lex text = .ok (.sym .varMark :: done.reverse) := by
  by_cases hblank : text.toList.all Text.isBlank = true
  · -- a blank line is passed over, and it has no tokens
    have hplain : Unquoted text.toList := by
      refine ⟨fun c hc => ?_, .inl fun hslash => ?_⟩
      · rw [Bool.eq_false_iff]
        intro hquote
        rcases eq_of_isQuote hquote with rfl | rfl <;> cases List.all_eq_true.1 hblank _ hc
      · cases List.all_eq_true.1 hblank _ hslash
    have hwords : codeWords text.toList = [] := codeWords_of_blank (List.all_eq_true.1 hblank)
    have hline : readLine [] (text.toList ++ []) = readLine [] [] :=
      readLine_unquoted hplain (by simp) (by simp [codeWords_nil]) (by rw [hwords]; rfl)
    have hnone : readLine [] [] = .ok [] := by
      simp only [readLine, lineSegments, segmentsFrom, readSegments, List.reverse_nil,
        codeWords_nil, readWords, bind, Except.bind]
    rw [List.append_nil, hnone, h] at hline
    cases hline
    have hsegs : segments text.toList = .ok [] := by
      rw [segments, lines_unbroken hunbroken]
      split
      · rfl
      · rw [List.filter_cons_of_neg (by simp [hblank])]
        rfl
    rw [lex, hsegs]
    rfl
  · rw [lex_line hunbroken (Bool.eq_false_iff.2 hblank), h]
    rfl

theorem lex_of_spells {next : List Char → Prop} (hnext : next []) {text : String} {ts : List Token}
    (h : Spells next text.toList ts) : lex text = .ok (.sym .varMark :: ts) := by
  have hline := h.read [] [] hnext
  rw [List.append_nil, List.append_nil] at hline
  have hread : readLine [] text.toList = .ok ts.reverse := by
    rw [hline]
    simp only [readLine, lineSegments, segmentsFrom, readSegments, List.reverse_nil, codeWords_nil,
      readWords, bind, Except.bind]
  rw [lex_of_readLine h.unbroken hread, List.reverse_reverse]

/-- The tokens of the declaration of a variable `r`, given those of its value. -/
def declared (ts : List Token) : List Token :=
  .sym .kwVar :: .name "r" :: .sym .assign :: (ts ++ [.sym .semi])

/-- A variable can be declared with any text that ends where a word does. -/
theorem lex_declared {text : String} {ts : List Token} (h : Word text.toList ts) :
    lex ("var r = " ++ text ++ ";") = .ok (.sym .varMark :: declared ts) := by
  have hends := endsWord_blank []
  have hvar : Closed "var ".toList [.sym .kwVar] :=
    (word_symbol .kwVar).append closed_blank (cons_ne_nil _ _) hends
  have hname : Closed "r ".toList [.name "r"] :=
    (word_name (show isValidName "r" = true by decide)).append closed_blank (cons_ne_nil _ _) hends
  have hassign : Closed "= ".toList [.sym .assign] :=
    (word_symbol .assign).append closed_blank (cons_ne_nil _ _) hends
  have hvalue : Closed (text.toList ++ [';']) (ts ++ [Token.sym .semi]) :=
    h.append (closed_separator (by decide) rfl) (cons_ne_nil _ _) (endsWord_separator (by decide))
  have hall := hvar.append (hname.append (hassign.append hvalue))
  have htext : ("var r = " ++ text ++ ";").toList =
      "var ".toList ++ ("r ".toList ++ ("= ".toList ++ (text.toList ++ [';']))) := by
    rw [String.toList_append, String.toList_append, append_assoc]
    rfl
  exact lex_of_spells trivial (by rwa [htext])

end LittleJ.Lexer
