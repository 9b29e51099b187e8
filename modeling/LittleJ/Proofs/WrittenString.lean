import LittleJ.Proofs.Lexemes

/-!
# Writing any string as a literal

A string is written between double quotes with escapes for what may not stand there as itself: the
backslash, the double quote and the two line breaks. Two readers look at such a literal, one after
the other. The first finds its end: it stops at a quote unless the character before the quote is a
backslash, whatever stands before that backslash. The second decodes the body, and takes backslashes
in pairs.

The two agree on every quote inside the body, for it is written with a backslash of its own. They
disagree at the end: if the string ends in a backslash that is written twice, the first reader takes
the closing quote for an escaped one. **So a literal stands for its string unless the string ends in
a backslash, and then the literal is open.** The way out is to write the backslash by its number,
which no string prevents.
-/

namespace LittleJ

open Text List Lexer

/-! ## Escapes -/

/-- How a backslash is written in a literal: by two of them, or by its number. -/
inductive Backslash
  | doubled
  | numbered
deriving DecidableEq, Repr

/-- The characters of a backslash in a literal. -/
def Backslash.chars : Backslash → List Char
  | doubled => ['\\', '\\']
  | numbered => ['\\', 'x', '5', 'c']

namespace Text.Escape

/-- How a character is written in a literal with double quotes. -/
def encodeChar (b : Backslash) (c : Char) : List Char :=
  if c = '\\' then b.chars
  else if c = '"' then ['\\', '"']
  else if c = '\n' then ['\\', 'n']
  else if c = '\r' then ['\\', 'r']
  else [c]

/-- The body of the literal for a text. -/
def encode (b : Backslash) (cs : List Char) : List Char :=
  cs.flatMap (encodeChar b)

variable {b : Backslash}

theorem encode_cons (c : Char) (cs : List Char) :
    encode b (c :: cs) = encodeChar b c ++ encode b cs :=
  rfl

/-- A character is written as itself or by an escape. -/
theorem encodeChar_cases (b : Backslash) (c : Char) :
    (encodeChar b c = [c] ∧ c ≠ '\\' ∧ c ≠ '"' ∧ isBreak c = false) ∨
    (encodeChar b c = b.chars ∧ c = '\\') ∨
      ∃ d, encodeChar b c = ['\\', d] ∧ letter? d = some c ∧ c ≠ '\\' ∧ d ≠ '\\' ∧
      isBreak d = false := by
  by_cases hslash : c = '\\'
  · exact .inr (.inl ⟨if_pos hslash, hslash⟩)
  by_cases hquote : c = '"'
  · subst hquote
    exact .inr (.inr ⟨'"', rfl, by decide⟩)
  by_cases hfeed : c = '\n'
  · subst hfeed
    exact .inr (.inr ⟨'n', rfl, by decide⟩)
  by_cases hreturn : c = '\r'
  · subst hreturn
    exact .inr (.inr ⟨'r', rfl, by decide⟩)
  · refine .inl ⟨?_, hslash, hquote, by simp [isBreak, hfeed, hreturn]⟩
    rw [encodeChar, if_neg hslash, if_neg hquote, if_neg hfeed, if_neg hreturn]

theorem decodeFrom_step {s s' : State} {c : Char} {out : List Char} (h : step s c = some (out, s'))
    (cs : List Char) :
    decodeFrom s (c :: cs) = (decodeFrom s' cs).map (out ++ ·) := by
  rw [decodeFrom, h]
  show (decodeFrom s' cs >>= fun rest => pure (out ++ rest)) = _
  cases decodeFrom s' cs <;> rfl

theorem decodeFrom_encodeChar (c : Char) (rest : List Char) :
    decodeFrom .plain (encodeChar b c ++ rest) = (decodeFrom .plain rest).map (c :: ·) := by
  rcases encodeChar_cases b c with ⟨henc, hc, -⟩ | ⟨henc, rfl⟩ | ⟨d, henc, hd, -⟩
  · have hplain : step .plain c = some ([c], .plain) := if_neg (by simpa using hc)
    rw [henc, singleton_append, decodeFrom_step hplain]
    rfl
  · rw [henc]
    cases b with
    | doubled =>
      have hfirst : step .plain '\\' = some ([], .escape) := rfl
      have hsecond : step .escape '\\' = some (['\\'], .plain) := rfl
      simp [Backslash.chars, decodeFrom_step hfirst, decodeFrom_step hsecond, Function.comp_def]
    | numbered =>
      have hfirst : step .plain '\\' = some ([], .escape) := rfl
      have hmark : step .escape 'x' = some ([], .hex) := rfl
      have hhigh : step .hex '5' = some ([], .hexDigit 5) := rfl
      have hlow : step (.hexDigit 5) 'c' = some (['\\'], .plain) := rfl
      simp [Backslash.chars, decodeFrom_step hfirst, decodeFrom_step hmark, decodeFrom_step hhigh,
        decodeFrom_step hlow, Function.comp_def]
  · have hescape : step .escape d = some ([c], .plain) := by simp [step, hd]
    rw [henc, cons_append, singleton_append, decodeFrom_step rfl, decodeFrom_step hescape,
      Option.map_map]
    rfl

/-- The body of a literal is decoded to the text it was written for. -/
theorem decode_encode (cs : List Char) : decode (encode b cs) = some cs := by
  rw [decode]
  induction cs with
  | nil => rfl
  | cons c cs ih => rw [encode_cons, decodeFrom_encodeChar, ih, Option.map_some]

theorem isBreak_of_mem_encode {c : Char} {cs : List Char} (h : c ∈ encode b cs) :
    isBreak c = false := by
  obtain ⟨a, -, hc⟩ := List.mem_flatMap.1 h
  rcases encodeChar_cases b a with ⟨henc, -, -, hbreak⟩ | ⟨henc, -⟩ | ⟨d, henc, -, -, -, hbreak⟩
  · rw [henc, mem_singleton] at hc
    rw [hc, hbreak]
  · have hchars : ∀ d ∈ b.chars, isBreak d = false := by cases b <;> decide
    exact hchars c (henc ▸ hc)
  · rw [henc] at hc
    rcases List.mem_pair.1 hc with rfl | rfl
    · rfl
    · exact hbreak

/-- A character that must stay inside its literal: a quote only behind a backslash. -/
def Guards (a c : Char) : Prop :=
  c = '"' → a = '\\'

theorem guards_encodeChar (b : Backslash) (c : Char) :
    encodeChar b c ≠ [] ∧ (encodeChar b c).IsChain Guards ∧
    ∀ d ∈ (encodeChar b c).head?, d ≠ '"' := by
  rcases encodeChar_cases b c with ⟨henc, -, hquote, -⟩ | ⟨henc, -⟩ | ⟨d, henc, -⟩
  · rw [henc]
    exact ⟨cons_ne_nil _ _, .singleton _, by simpa using hquote⟩
  · rw [henc]
    cases b <;> simp [Backslash.chars, Guards]
  · rw [henc]
    simp [Guards]

/-- In the body of a literal every quote stands behind a backslash. -/
theorem guards_encode (a : Char) (cs : List Char) : (a :: encode b cs).IsChain Guards := by
  induction cs generalizing a with
  | nil => exact .singleton a
  | cons c cs ih =>
    obtain ⟨-, hchain, hhead⟩ := guards_encodeChar b c
    have hfirst : (a :: encodeChar b c).IsChain Guards :=
      List.isChain_cons.2 ⟨fun d hd hquote => absurd hquote (hhead d hd), hchain⟩
    rw [encode_cons, ← cons_append]
    refine List.isChain_append.2 ⟨hfirst, (ih a).of_cons, fun x _ y hy => ?_⟩
    exact (List.isChain_cons.1 (ih x)).1 y hy

/-- A body ends in a backslash only if its text does and backslashes are doubled. -/
theorem getLast_encode (cs : List Char) :
    (encode b cs).getLast? = some '\\' ↔ b = .doubled ∧ cs.getLast? = some '\\' := by
  rcases eq_nil_or_concat' cs with rfl | ⟨front, c, rfl⟩
  · simp [encode]
  · have hsplit : encode b (front ++ [c]) = encode b front ++ encodeChar b c := by simp [encode]
    rw [hsplit, getLast?_append_of_ne_nil _ (guards_encodeChar b c).1, getLast?_concat]
    rcases encodeChar_cases b c with ⟨henc, hc, -⟩ | ⟨henc, rfl⟩ | ⟨d, henc, -, hc, hd, -⟩
    · simp [henc, hc]
    · rw [henc]
      cases b <;> simp [Backslash.chars]
    · simp [henc, hc, hd]

end Text.Escape

/-! ## Finding the end -/

namespace Lexer

open LittleJ.Text.Escape

/-- A literal goes on as long as every quote is guarded. -/
theorem segmentsFrom_guarded {prev : Char} {body : List Char} (h : (prev :: body).IsChain Guards)
    (part rest : List Char) :
    segmentsFrom (.quoted '"' prev) part (body ++ rest) =
      segmentsFrom (.quoted '"' (body.getLast?.getD prev)) (body.reverse ++ part) rest := by
  induction body generalizing prev part with
  | nil => rfl
  | cons c body ih =>
    obtain ⟨hguards, hbody⟩ := List.isChain_cons_cons.1 h
    have hopen : ¬(c == '"' && prev != '\\') = true := by simpa [Guards] using hguards
    rw [cons_append, segmentsFrom, if_neg hopen, ih hbody]
    simp [getLast?_cons]

/-- The text of a literal in double quotes. -/
def literalText (b : Backslash) (t : String) : String :=
  String.ofList ('"' :: (encode b t.toList ++ ['"']))

variable {b : Backslash} {t : String}

theorem isBreak_literalText : ∀ c ∈ (literalText b t).toList, isBreak c = false := by
  intro c hc
  rw [literalText, String.toList_ofList, mem_cons, mem_append, mem_singleton] at hc
  rcases hc with rfl | hc | rfl
  · rfl
  · exact isBreak_of_mem_encode hc
  · rfl

theorem isBlank_literalText : (literalText b t).toList.all isBlank = false := by
  rw [literalText, String.toList_ofList, all_cons]
  rfl

theorem lineSegments_literal :
    lineSegments ('"' :: (encode b t.toList ++ ['"'])) =
      if b = .doubled ∧ t.toList.getLast? = some '\\' then .error .openString
      else .ok [.code [], .quoted (encode b t.toList), .code []] := by
  have hbody := segmentsFrom_guarded (guards_encode (b := b) '"' t.toList) [] ['"']
  have hlast : (encode b t.toList).getLast?.getD '"' = '\\' ↔ b = .doubled ∧ t.toList.getLast? =
      some '\\' := by
    rw [← getLast_encode]
    cases (encode b t.toList).getLast? <;> simp
  rw [lineSegments, segmentsFrom, if_pos (by decide), hbody, segmentsFrom]
  by_cases hopen : b = .doubled ∧ t.toList.getLast? = some '\\'
  · rw [if_pos hopen, if_neg (by simp [hlast.2 hopen])]
    rfl
  · rw [if_neg hopen, if_pos (by simpa using mt hlast.1 hopen)]
    simp [segmentsFrom, bind, Except.bind, pure, Except.pure]

end Lexer

/-- **A literal in double quotes stands for the string it was written for, unless the string ends in
a backslash.** Two backslashes at the end keep the literal open. Written by its number, a backslash
may stand anywhere. -/
theorem lex_literalText (t : String) : lex (literalText .doubled t) =
      (if t.toList.getLast? = some '\\' then .error (.error .openString)
       else .ok [.sym .varMark, .val (.str t)]) ∧
    lex (literalText .numbered t) = .ok [.sym .varMark, .val (.str t)] := by
  have hlex (b : Backslash) : lex (literalText b t) =
      if b = .doubled ∧ t.toList.getLast? = some '\\' then .error (.error .openString)
      else .ok [.sym .varMark, .val (.str t)] := by
    rw [lex_line isBreak_literalText isBlank_literalText, readLine, literalText,
      String.toList_ofList, lineSegments_literal]
    by_cases hopen : b = .doubled ∧ t.toList.getLast? = some '\\'
    · rw [if_pos hopen, if_pos hopen]
      rfl
    · rw [if_neg hopen, if_neg hopen]
      simp [readSegments, codeWords_nil, readWords, Escape.decode_encode, bind,
        Except.bind, Except.map]
  exact ⟨by simpa using hlex .doubled, by simpa using hlex .numbered⟩

/-- The program text `"\\"`. -/
def backslashText : String :=
  literalText .doubled "\\"

/-- A backslash alone cannot be written by two. -/
theorem doubled_backslash_open : lex backslashText = .error (.error .openString) := by
  rfl

end LittleJ
