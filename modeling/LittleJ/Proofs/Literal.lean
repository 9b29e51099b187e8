import LittleJ.Proofs.Gap
import LittleJ.Proofs.Lexed

/-!
# A string literal in a program text

A *slot* is a program text with a place for the body of a string literal: what stands before and
after the quotes, such that the first quote opens a literal. Whatever is put into the slot, as long
as it has no quotes, backslashes or line breaks, the text is cut into the same segments around the
same literal.

The words behind the literal are read alike too, with one exception. A dot right behind a literal
asks what the token before it is, and goes by its text: it takes the text of a closing bracket for
the bracket and the text of a name for the name.
-/

namespace LittleJ

open List Text Token

variable {line cs : List Char} {c : Char} {ts : List Token}

/-! ## Lines -/

namespace Text

/-- Whether a character ends a line. -/
def isBreak (c : Char) : Bool :=
  c == '\n' || c == '\r'

theorem linesFrom_cons (hc : isBreak c = false) :
    linesFrom line (c :: cs) = linesFrom (c :: line) cs := by
  have hr : c ≠ '\r' := by rintro rfl; simp [isBreak] at hc
  rw [linesFrom.eq_3 _ _ _ (fun _ h _ => hr h), if_neg]
  simpa [isBreak] using hc

theorem linesFrom_break (hc : isBreak c = true) (hcs : c = '\r' → cs.head? ≠ some '\n') :
    linesFrom line (c :: cs) = line.reverse :: linesFrom [] cs := by
  rw [linesFrom.eq_3 _ _ _ (fun _ hr h => hcs hr (by rw [h]; rfl)), if_pos]
  simpa [isBreak] using hc

theorem linesFrom_append {xs : List Char} (hxs : xs.all (!isBreak ·) = true) (line ys : List Char) :
    linesFrom line (xs ++ ys) = linesFrom (xs.reverse ++ line) ys := by
  induction xs generalizing line with
  | nil => rfl
  | cons x xs ih =>
    simp only [all_cons, Bool.and_eq_true, Bool.not_eq_true'] at hxs
    rw [cons_append, linesFrom_cons hxs.1, ih (by simpa using hxs.2)]
    simp

/-- What has been read of a line is how the line starts; what comes after does not depend on it. -/
theorem linesFrom_eq_cons (ys : List Char) :
    ∃ first rest, ∀ line : List Char, line ≠ [] → linesFrom line ys =
      (line.reverse ++ first) :: rest := by
  induction ys with
  | nil =>
    refine ⟨[], [], fun line hline => ?_⟩
    simp [linesFrom, hline]
  | cons y ys ih =>
    by_cases hy : isBreak y = true
    · by_cases hcrlf : y = '\r' ∧ ys.head? = some '\n'
      · obtain ⟨rfl, hhead⟩ := hcrlf
        obtain ⟨ys, rfl⟩ := List.head?_eq_some_iff.mp hhead
        exact ⟨[], linesFrom [] ys, fun line _ => by rw [linesFrom, append_nil]⟩
      · refine ⟨[], linesFrom [] ys, fun line _ => ?_⟩
        rw [linesFrom_break hy fun hr hhead => hcrlf ⟨hr, hhead⟩, append_nil]
    · obtain ⟨first, rest, hrest⟩ := ih
      refine ⟨y :: first, rest, fun line _ => ?_⟩
      rw [linesFrom_cons (by simpa using hy), hrest _ (by simp)]
      simp

/-- Lines that have ended do not depend on what follows, unless that is the second half of a line
ending. -/
theorem linesFrom_eq_append : ∀ (before line : List Char), before.getLast?.any isBreak = true →
    ∃ ls, ∀ cs : List Char, cs.head? ≠ some '\n' → linesFrom line (before ++ cs) =
      ls ++ linesFrom [] cs
  | [], _, h => by simp at h
  | [c], line, h => by
      have hc : isBreak c = true := by simpa using h
      exact ⟨[line.reverse], fun cs hcs => linesFrom_break hc fun _ => hcs⟩
  | c :: d :: rest, line, h => by
      by_cases hcrlf : c = '\r' ∧ d = '\n'
      · obtain ⟨rfl, rfl⟩ := hcrlf
        cases hrest : rest with
        | nil => exact ⟨[line.reverse], fun cs _ => by simp [linesFrom]⟩
        | cons e rest' =>
          have hlast : rest.getLast?.any isBreak = true := by
            rw [hrest] at h ⊢
            simpa [getLast?_cons_cons] using h
          obtain ⟨ls, hls⟩ := linesFrom_eq_append rest [] hlast
          refine ⟨line.reverse :: ls, fun cs hcs => ?_⟩
          rw [← hrest]
          simp [linesFrom, hls cs hcs]
      · have hlast : (d :: rest).getLast?.any isBreak = true := by
          simpa [getLast?_cons_cons] using h
        by_cases hc : isBreak c = true
        · obtain ⟨ls, hls⟩ := linesFrom_eq_append (d :: rest) [] hlast
          refine ⟨line.reverse :: ls, fun cs hcs => ?_⟩
          rw [cons_append, linesFrom_break hc fun hr hd => hcrlf ⟨hr, by simpa using hd⟩,
            hls cs hcs, cons_append]
        · obtain ⟨ls, hls⟩ := linesFrom_eq_append (d :: rest) (c :: line) hlast
          refine ⟨ls, fun cs hcs => ?_⟩
          rw [cons_append, linesFrom_cons (by simpa using hc), hls cs hcs]

end Text

/-! ## Segments -/

namespace Lexer

/-- Whether a quote right behind the given part of a line opens a string literal: it does unless it
stands in a comment or inside another literal. -/
def opensAfter : Mode → List Char → Bool
  | .code, [] => true
  | .quoted _ _, [] => false
  | .code, c :: cs =>
    if isQuote c then opensAfter (.quoted c c) cs
    else if c == '/' && cs.head? == some '/' then false
    else opensAfter .code cs
  | .quoted quote prev, c :: cs =>
    if c == quote && prev != '\\' then opensAfter .code cs else opensAfter (.quoted quote c) cs

theorem segmentsFrom_open {quote : Char} (hquote : isQuote quote = true) {mode : Mode}
    (h : opensAfter mode line = true) (part : List Char) :
    ∃ segs, ∀ rest, segmentsFrom mode part (line ++ quote :: rest) =
      (segmentsFrom (.quoted quote quote) [] rest).map (segs ++ ·) := by
  induction line generalizing mode part with
  | nil =>
    cases mode with
    | quoted q prev => simp [opensAfter] at h
    | code =>
      refine ⟨[.code part.reverse], fun rest => ?_⟩
      rw [nil_append, segmentsFrom, if_pos hquote]
      cases segmentsFrom (.quoted quote quote) [] rest <;> rfl
  | cons c line ih =>
    cases mode with
    | quoted q prev =>
      rw [opensAfter] at h
      split at h
      · rename_i hclose
        obtain ⟨segs, hsegs⟩ := ih h []
        refine ⟨.quoted part.reverse :: segs, fun rest => ?_⟩
        rw [cons_append, segmentsFrom, if_pos hclose, hsegs]
        cases segmentsFrom (.quoted quote quote) [] rest <;> rfl
      · rename_i hclose
        obtain ⟨segs, hsegs⟩ := ih h (c :: part)
        refine ⟨segs, fun rest => ?_⟩
        rw [cons_append, segmentsFrom, if_neg hclose, hsegs]
    | code =>
      rw [opensAfter] at h
      split at h
      · rename_i hopen
        obtain ⟨segs, hsegs⟩ := ih h []
        refine ⟨.code part.reverse :: segs, fun rest => ?_⟩
        rw [cons_append, segmentsFrom, if_pos hopen, hsegs]
        cases segmentsFrom (.quoted quote quote) [] rest <;> rfl
      · rename_i hopen
        split at h
        · cases h
        · rename_i hcomment
          obtain ⟨segs, hsegs⟩ := ih h (c :: part)
          refine ⟨segs, fun rest => ?_⟩
          -- a quote is no slash, so it cannot make a comment of a slash before it
          have hcode : ¬(c == '/' && (line ++ quote :: rest).head? == some '/') = true := by
            cases line with
            | nil =>
              have hslash : quote ≠ '/' := by rintro rfl; simp [isQuote] at hquote
              simp [hslash]
            | cons d line => simpa using hcomment
          rw [cons_append, segmentsFrom, if_neg hopen, if_neg hcode, hsegs]

/-- Whether a character may stand in the body of a literal as itself: it is no quote, no backslash
and no line break. -/
def isBody (c : Char) : Bool :=
  !isQuote c && c != '\\' && !isBreak c

theorem segmentsFrom_body {quote prev : Char} (hquote : isQuote quote = true) (hprev : prev ≠ '\\')
    {body : List Char} (hbody : body.all isBody = true) (part rest : List Char) :
    segmentsFrom (.quoted quote prev) part (body ++ quote :: rest) =
      (segmentsFrom .code [] rest).map (.quoted (part.reverse ++ body) :: ·) := by
  induction body generalizing prev part with
  | nil =>
    have hclose : (quote == quote && prev != '\\') = true := by simp [hprev]
    rw [nil_append, segmentsFrom, if_pos hclose, append_nil]
    cases segmentsFrom .code [] rest <;> rfl
  | cons c body ih =>
    simp only [all_cons, Bool.and_eq_true, isBody, bne_iff_ne, Bool.not_eq_true'] at hbody
    obtain ⟨⟨⟨hc, hback⟩, _⟩, hrest⟩ := hbody
    have hopen : ¬(c == quote && prev != '\\') = true := by
      have hne : c ≠ quote := by rintro rfl; rw [hquote] at hc; cases hc
      simp [hne]
    rw [cons_append, segmentsFrom, if_neg hopen, ih hback hrest]
    simp

theorem eq_of_isQuote (h : isQuote c = true) : c = '"' ∨ c = '\x27' := by
  simpa [isQuote] using h

theorem isBreak_of_isQuote (h : isQuote c = true) : isBreak c = false := by
  rcases eq_of_isQuote h with rfl | rfl <;> decide

/-- A program text with a place for the body of a string literal. -/
structure Slot where
  /-- The lines before the one with the literal. -/
  before : List Char
  /-- The part of the line before the literal. -/
  line : List Char
  quote : Char
  /-- What follows the literal, to the end of the text. -/
  after : List Char
  ended : before = [] ∨ before.getLast?.any isBreak = true
  unbroken : line.all (!isBreak ·) = true
  isQuote : isQuote quote = true
  opens : opensAfter .code line = true

/-- A text that may be put into a slot as it is. -/
def IsContent (u : String) : Prop :=
  u.toList.all isBody = true

instance (u : String) : Decidable (IsContent u) :=
  inferInstanceAs (Decidable (u.toList.all isBody = true))

theorem IsContent.unbroken {u : String} (h : IsContent u) : u.toList.all (!isBreak ·) = true := by
  rw [IsContent, all_eq_true] at h
  rw [all_eq_true]
  intro c hc
  have hc := h c hc
  simp only [isBody, Bool.and_eq_true] at hc
  exact hc.2

namespace Slot

/-- The program text with `u` in the slot. -/
def text (s : Slot) (u : String) : String :=
  String.ofList (s.before ++ (s.line ++ s.quote :: (u.toList ++ s.quote :: s.after)))

/-- The lines of the text are the same around the line with the literal. -/
theorem exists_lines (s : Slot) : ∃ before first rest, ∀ u, IsContent u → lines (s.text u).toList =
      before ++ (s.line ++ s.quote :: (u.toList ++ s.quote :: first)) :: rest := by
  have hbreak := isBreak_of_isQuote s.isQuote
  obtain ⟨first, rest, hafter⟩ := linesFrom_eq_cons s.after
  obtain ⟨before, hbefore⟩ : ∃ ls, ∀ cs : List Char, cs.head? ≠ some '\n' →
      linesFrom [] (s.before ++ cs) = ls ++ linesFrom [] cs := by
    rcases s.ended with h | h
    · exact ⟨[], fun cs _ => by rw [h]; rfl⟩
    · exact linesFrom_eq_append s.before [] h
  refine ⟨before, first, rest, fun u hu => ?_⟩
  -- the line starts with no line feed, which could have belonged to the line ending before it
  have hhead : (s.line ++ s.quote :: (u.toList ++ s.quote :: s.after)).head? ≠ some '\n' := by
    intro h
    have hunbroken := s.unbroken
    cases hline : s.line with
    | nil =>
      rw [hline, nil_append, head?_cons, Option.some.injEq] at h
      rw [h] at hbreak
      simp [isBreak] at hbreak
    | cons c line =>
      rw [hline, cons_append, head?_cons, Option.some.injEq] at h
      rw [hline, h] at hunbroken
      simp [isBreak] at hunbroken
  have hliteral : (s.line ++ s.quote :: (u.toList ++ [s.quote])).all (!isBreak ·) = true := by
    simp only [all_append, all_cons, all_nil, s.unbroken, hu.unbroken, hbreak, Bool.not_false,
      Bool.and_self]
  have hsplit : s.line ++ s.quote :: (u.toList ++ s.quote :: s.after) =
      (s.line ++ s.quote :: (u.toList ++ [s.quote])) ++ s.after := by simp
  rw [text, String.toList_ofList, lines, hbefore _ hhead, hsplit, linesFrom_append hliteral,
    append_nil, hafter _ (by simp)]
  simp

/-- **The text is cut into the same segments around the literal.** -/
theorem exists_segments (s : Slot) : ∃ r : Except Error (List Segment × List Segment),
    ∀ u, IsContent u → segments (s.text u).toList = r.map fun parts =>
    parts.1 ++ .quoted u.toList :: parts.2 := by
  obtain ⟨before, first, rest, hlines⟩ := s.exists_lines
  obtain ⟨segs, hsegs⟩ := segmentsFrom_open s.isQuote s.opens []
  have hback : s.quote ≠ '\\' := by
    rcases eq_of_isQuote s.isQuote with h | h <;> rw [h] <;> decide
  have hblank : isBlank s.quote = false := by
    rcases eq_of_isQuote s.isQuote with h | h <;> rw [h] <;> decide
  refine ⟨do
    let parts ← (before.filter fun l => !l.all isBlank).mapM lineSegments
    let behind ← segmentsFrom .code [] first
    let more ← (rest.filter fun l => !l.all isBlank).mapM lineSegments
    return (parts.flatten ++ segs, behind ++ more.flatten), fun u hu => ?_⟩
  have hline : lineSegments (s.line ++ s.quote :: (u.toList ++ s.quote :: first)) =
      (segmentsFrom .code [] first).map fun behind => segs ++ .quoted u.toList :: behind := by
    rw [lineSegments, hsegs, segmentsFrom_body s.isQuote hback hu]
    cases segmentsFrom .code [] first <;> simp [Except.map]
  -- a line with a quote in it is not blank, so it is not passed over
  have hkeep : (!(s.line ++ s.quote :: (u.toList ++ s.quote :: first)).all isBlank) = true := by
    simp [hblank]
  rw [segments, hlines u hu, filter_append, filter_cons, if_pos hkeep, mapM_append,
    mapM_cons, hline]
  cases (before.filter fun l => !l.all isBlank).mapM lineSegments with
  | error e => rfl
  | ok parts =>
    cases segmentsFrom .code [] first with
    | error e => rfl
    | ok behind =>
      cases (rest.filter fun l => !l.all isBlank).mapM lineSegments with
      | error e => rfl
      | ok more => simp [bind, Except.bind, pure, Except.pure, Except.map]

end Slot

/-! ## Tokens -/

/-- Whether a dot may follow a token with the text `s`. -/
def takesDot (s : String) : Bool :=
  closers.contains s || isValidName s

/-- A word after one of two literals is read alike, if a dot may follow both or neither. -/
theorem alike_wordTokens {u v : String} (huv : takesDot u = takesDot v) (word : String) :
    Alike id (wordTokens (some (.val (.str u))) word) (wordTokens (some (.val (.str v))) word) := by
  have hdotted : Alike id (dottedWord (some (.val (.str u))) word)
      (dottedWord (some (.val (.str v))) word) := by
    unfold dottedWord
    refine Alike.ite (fun _ => .error _ _) fun _ => ?_
    split
    · unfold takesDot at huv
      simp only [text?, huv]
      exact Alike.ite (fun _ => Alike.refl _) fun _ => .error _ _
    · exact Alike.refl _
  unfold wordTokens
  refine Alike.ite (fun _ => .error _ _) fun _ => Alike.ite (fun _ => .error _ _) fun _ => ?_
  split
  · exact Alike.refl _
  · exact Alike.refl _
  · refine Alike.ite (fun _ => Alike.refl _) fun _ => ?_
    split
    · exact Alike.refl _
    · exact Alike.ite (fun _ => hdotted) fun _ => .error _ _

/-- Two readings that started behind literals `u` and `v`: both failed, or both added the same
tokens. -/
inductive SameBehind (u v : String) (done : List Token) :
    Except Failure (List Token) → Except Failure (List Token) → Prop where
  | failed (e e' : Failure) : SameBehind u v done (.error e) (.error e')
  | added (ts : List Token) : SameBehind u v done (.ok (ts ++ .val (.str u) :: done))
      (.ok (ts ++ .val (.str v) :: done))

section

variable {u v : String} (huv : takesDot u = takesDot v) (done : List Token)

include huv

theorem sameBehind_readWords (ts : List Token) (words : List String) :
    SameBehind u v done (readWords (ts ++ .val (.str u) :: done) words)
      (readWords (ts ++ .val (.str v) :: done) words) := by
  induction words generalizing ts with
  | nil => rw [readWords, readWords]; exact .added ts
  | cons word words ih =>
    -- only the first word behind the literal looks at it
    have hword : Alike id (wordTokens (ts ++ .val (.str u) :: done).head? word)
        (wordTokens (ts ++ .val (.str v) :: done).head? word) := by
      cases ts with
      | nil => exact alike_wordTokens huv word
      | cons t ts => exact Alike.refl _
    rw [readWords, readWords]
    cases hu : wordTokens (ts ++ .val (.str u) :: done).head? word with
    | error e =>
      rw [hu] at hword
      cases hv : wordTokens (ts ++ .val (.str v) :: done).head? word with
      | error e' => exact .failed e e'
      | ok more => rw [hv] at hword; cases hword
    | ok more =>
      rw [hword.isOk hu]
      have := ih (more.reverse ++ ts)
      rwa [append_assoc, append_assoc] at this

theorem sameBehind_readSegments (ts : List Token) (segs : List Segment) :
    SameBehind u v done (readSegments (ts ++ .val (.str u) :: done) segs)
      (readSegments (ts ++ .val (.str v) :: done) segs) := by
  induction segs generalizing ts with
  | nil => rw [readSegments, readSegments]; exact .added ts
  | cons seg segs ih =>
    cases seg with
    | code cs =>
      rw [readSegments, readSegments]
      have hwords := sameBehind_readWords huv done ts (codeWords cs)
      revert hwords
      generalize readWords (ts ++ .val (.str u) :: done) (codeWords cs) = x
      generalize readWords (ts ++ .val (.str v) :: done) (codeWords cs) = y
      intro hwords
      cases hwords with
      | failed e e' => exact .failed e e'
      | added more => exact ih more
    | quoted cs =>
      rw [readSegments, readSegments]
      cases Escape.decode cs with
      | none => exact .failed _ _
      | some body => exact ih (.val (.str (String.ofList body)) :: ts)

end

theorem readSegments_append (done : List Token) (segs more : List Segment) :
    readSegments done (segs ++ more) = readSegments done segs >>= (readSegments · more) := by
  induction segs generalizing done with
  | nil => rfl
  | cons seg segs ih =>
    cases seg with
    | code cs =>
      rw [cons_append, readSegments, readSegments]
      cases readWords done (codeWords cs) with
      | error e => rfl
      | ok ts => exact ih ts
    | quoted cs =>
      rw [cons_append, readSegments, readSegments]
      cases Escape.decode cs with
      | none => rfl
      | some body => exact ih _

/-- A body stands for itself. -/
theorem decode_of_isBody (h : cs.all isBody = true) : Escape.decode cs = some cs := by
  unfold Escape.decode
  induction cs with
  | nil => rfl
  | cons c cs ih =>
    simp only [all_cons, Bool.and_eq_true, isBody, bne_iff_ne] at h
    have hback : c ≠ '\\' := h.1.1.2
    rw [Escape.decodeFrom, Escape.step, if_neg (by simpa using hback)]
    simp [ih h.2]

/-- Whether a token is one that reading text gives: a name, a symbol or a value. -/
def isSimple : Token → Bool
  | .name _ | .sym _ | .val _ => true
  | _ => false

theorem fill_of_isSimple {t : Token} (h : isSimple t = true) (w : String) : t.fill w = t := by
  cases t with
  | func f => simp [isSimple] at h
  | row ts => simp [isSimple] at h
  | _ => simp [fill]

theorem isSimple_of_lexed {t : Token} (h : Lexed t) : isSimple t = true := by
  cases h <;> rfl

theorem isSimple_readSegments {done : List Token} (hdone : ∀ t ∈ done, Lexed t)
    {segs : List Segment} (h : readSegments done segs = .ok ts) : ts.all isSimple = true := by
  rw [all_eq_true]
  intro t ht
  exact isSimple_of_lexed (lexed_readSegments hdone h t ht)

/-! ## Texts -/

/-- The tokens of two texts that differ in a literal: there are none of either, or they are the same
tokens with a gap, filled. -/
inductive SameAround (u v : String) :
    Except Failure (List Token) → Except Failure (List Token) → Prop where
  | failed (e e' : Failure) : SameAround u v (.error e) (.error e')
  | filled (ts : List Token) : .row [] ∈ ts → (∀ t ∈ ts, t ≠ .row [] → isSimple t = true) →
      SameAround u v (.ok (ts.map (fill u))) (.ok (ts.map (fill v)))

theorem map_fill_of_isSimple (h : ts.all isSimple = true) (w : String) : ts.map (fill w) = ts := by
  rw [all_eq_true] at h
  calc ts.map (fill w) = ts.map id :=
        map_congr_left fun t ht => fill_of_isSimple (h t ht) w
    _ = ts := List.map_id ts

/-- The tokens behind and before a literal, the last one first, and the same with a gap for it. -/
theorem reverse_eq_map_fill {done : List Token} {w : String}
    (h : (ts ++ .val (.str w) :: done).all isSimple = true) :
    .sym .varMark :: (ts ++ .val (.str w) :: done).reverse =
      (.sym .varMark :: (ts ++ .row [] :: done).reverse).map (fill w) := by
  simp only [all_append, all_cons, Bool.and_eq_true] at h
  simp [fill, map_fill_of_isSimple h.1, map_fill_of_isSimple h.2.2]

/-- **Two texts that differ in a literal have the same tokens around it**, if a dot may follow both
contents or neither. -/
theorem Slot.sameAround (s : Slot) {u v : String} (hu : IsContent u) (hv : IsContent v)
    (huv : takesDot u = takesDot v) : SameAround u v (lex (s.text u)) (lex (s.text v)) := by
  obtain ⟨r, hr⟩ := s.exists_segments
  -- the segments around the literal do not depend on it: what is before it is read first, then the
  -- rest
  have hlex : ∀ w, IsContent w → lex (s.text w) = match r with
      | .error e => .error (.error e)
      | .ok parts => do
        let done ← readSegments [] parts.1
        let ts ← readSegments (.val (.str w) :: done) parts.2
        return .sym .varMark :: ts.reverse := by
    intro w hw
    rw [lex, hr w hw]
    cases r with
    | error e => rfl
    | ok parts =>
      simp only [Except.map, readSegments_append]
      cases readSegments [] parts.1 with
      | error e => rfl
      | ok done =>
        simp only [bind, Except.bind, readSegments, decode_of_isBody hw, String.ofList_toList]
  rw [hlex u hu, hlex v hv]
  cases r with
  | error e => exact .failed _ _
  | ok parts =>
    dsimp only
    cases hdone : readSegments [] parts.1 with
    | error e => exact .failed e e
    | ok done =>
      have hlexed : ∀ w, ∀ t ∈ val (.str w) :: done, Lexed t := by
        intro w
        exact List.forall_mem_cons.2 ⟨.str w, lexed_readSegments (by simp) hdone⟩
      have hbehind := sameBehind_readSegments huv done [] parts.2
      -- the lexer makes no functions, so nothing but the gap is filled
      have hsimpleu : ∀ ts, readSegments (.val (.str u) :: done) parts.2 = .ok ts →
          ts.all isSimple = true := fun _ h => isSimple_readSegments (hlexed u) h
      have hsimplev : ∀ ts, readSegments (.val (.str v) :: done) parts.2 = .ok ts →
          ts.all isSimple = true := fun _ h => isSimple_readSegments (hlexed v) h
      simp only [nil_append] at hbehind
      revert hbehind hsimpleu hsimplev
      simp only [bind, Except.bind]
      generalize readSegments (.val (.str u) :: done) parts.2 = x
      generalize readSegments (.val (.str v) :: done) parts.2 = y
      intro hbehind hsimpleu hsimplev
      cases hbehind with
      | failed e e' => exact .failed e e'
      | added ts =>
        simp only [pure, Except.pure, reverse_eq_map_fill (hsimpleu _ rfl), reverse_eq_map_fill
          (hsimplev _ rfl)]
        refine .filled _ (by simp) fun t ht hne => ?_
        have hall := hsimpleu _ rfl
        simp only [all_append, all_cons, Bool.and_eq_true, all_eq_true] at hall
        simp only [mem_cons, mem_reverse, mem_append] at ht
        rcases ht with rfl | ht | rfl | ht
        · rfl
        · exact hall.1 t ht
        · exact absurd rfl hne
        · exact hall.2.2 t ht

end Lexer

end LittleJ
