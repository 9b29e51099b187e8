import LittleJ.Proofs.DotNotation

/-!
# Code that is read in one pass

Reading spreads a piece of code out, joins its signs again and cuts it into words, and then it
compares each word with many others. On a long text that is slow to follow. Code in which blanks and
brackets part the words can be read in one pass instead. What the pass makes of a text is what the
language makes of it.
-/

namespace LittleJ.Lexer

variable {w part cs : List Char} {ts us : List Token}

/-! ## Words -/

/-- A number for the characters of a word. Numbers are compared faster than words. -/
def code (w : List Char) : Nat :=
  w.foldl (fun n c => n * 2 ^ 21 + c.toNat) 0

/-- Whether characters are a name of more than a sign. A word with the number of no keyword is none.
-/
def isName (w : List Char) : Bool :=
  !((activeWords ++ reservedWords).any fun s => code s.toList == code w) &&
    (w.head?.any Text.isLower && w.tail.all Text.isWord && w.getLast? != some '_')

theorem isValidName_of_isName (h : isName w = true) : isValidName (String.ofList w) = true := by
  obtain ⟨hcode, hshape⟩ := Bool.and_eq_true_iff.1 h
  have hkeyword : isKeyword (String.ofList w) = false := by
    rw [Bool.not_eq_true', List.any_eq_false] at hcode
    have hnone := hcode (String.ofList w)
    rw [String.toList_ofList, beq_self_eq_true, List.mem_append] at hnone
    simpa [isKeyword] using hnone
  rw [isValidName, hkeyword, isNameLike, String.toList_ofList]
  cases w with
  | nil => cases hshape
  | cons c cs => exact Bool.or_eq_true_iff.2 (.inr hshape)

/-- The tokens of a word of letters and dots that is no word of the language: a literal, a name, the
digits of a number, or a name with a property. -/
def lettersTokens? (w : List Char) : Option (List Token) :=
  let x := w.takeWhile (· != '.')
  let p := (w.dropWhile (· != '.')).tail
  if isName w then some [.name (String.ofList w)] else
  match literal? (String.ofList w) with
  | some v => some [.val v]
  | none =>
    if Number.digitsOf (Number.valueOf w) == w then some
      [.val (.num (Number.ofDecimal (Number.valueOf w) 0))]
    else if isName x && (p.all Text.isWord && p.head?.any fun c => !Text.isDigit c) && x ++
      '.' :: p == w then
      some (.name (String.ofList x) :: bracketed (String.ofList p))
    else none

theorem wordTokens_of_lettersTokens? (h : lettersTokens? w = some ts) (done : List Token) :
    wordTokens done.head? (String.ofList w) = .ok ts := by
  unfold lettersTokens? at h
  dsimp only at h
  split at h
  · next hname =>
      obtain rfl := Option.some.inj h
      exact wordTokens_name (isValidName_of_isName hname) _
  split at h
  · next v hv =>
      obtain rfl := Option.some.inj h
      unfold literal? at hv
      split at hv
      case h_4 => cases hv
      all_goals
        rename_i heq
        rw [heq]
        cases hv
        rfl
  split at h
  · next hcount =>
      obtain rfl := Option.some.inj h
      have hdigits := wordTokens_digits (Number.valueOf w) done.head?
      rwa [beq_iff_eq.1 hcount] at hdigits
  split at h
  · next hcheck =>
      obtain rfl := Option.some.inj h
      simp only [Bool.and_eq_true, beq_iff_eq] at hcheck
      obtain ⟨⟨hx, hp⟩, hw⟩ := hcheck
      have hdot : isDotName (String.ofList (w.dropWhile (· != '.')).tail) = true := by
        cases htail : (w.dropWhile (· != '.')).tail with
        | nil => simp [htail] at hp
        | cons c cs => simpa [isDotName, isPropertyName, htail] using hp
      have hopen := ((open_name (isValidName_of_isName hx) done).dot hdot).read
      rwa [String.toList_ofList, String.toList_ofList, hw] at hopen
  · cases h

theorem ok_of_toOption {ε α : Type} {x : Except ε α} {a : α} (h : x.toOption = some a) :
    x = .ok a := by
  cases x with
  | error e => cases h
  | ok b => rw [Option.some.inj h]

theorem readWords_past {done out : List Token} {ws : List String} (h : readWords done ws = .ok out)
    (ws' : List String) :
    readWords done (ws ++ ws') = readWords out ws' := by
  rw [readWords_append, h]
  rfl

theorem readWords_symbol (y : Symbol) (done : List Token) (ws : List String) :
    readWords done (y.text :: ws) = readWords (.sym y :: done) ws := by
  rw [readWords, wordTokens_symbol]
  rfl

/-- The tokens of code that is read alone, in reverse order. -/
def readAlone (w : List Char) : Except Failure (List Token) :=
  readWords [] ((Text.words (join joins (opened w))).map String.ofList)

theorem readWords_of_readAlone (h : readAlone w = .ok ts.reverse) (done : List Token) :
    readWords done (codeWords w) = .ok (ts.reverse ++ done) := by
  rw [readAlone, ← spread_eq_join] at h
  exact readWords_behind h done

/-- The symbol that a word is. -/
def symbol? (w : List Char) : Option Symbol :=
  (Symbol.all.find? fun y => code y.text.toList == code w).filter (·.text.toList == w)

/-- The tokens of a word. Only a word that holds signs and more is read at length. -/
def tokens? (w : List Char) : Option (List Token) :=
  match symbol? w with
  | some y => some [.sym y]
  | none => if w.all isDotted then lettersTokens? w else (readAlone w).toOption.map List.reverse

theorem readWords_of_tokens? (h : tokens? w = some ts) (done : List Token) :
    readWords done (codeWords w) = .ok (ts.reverse ++ done) := by
  unfold tokens? at h
  split at h
  · next y hy =>
      obtain rfl := Option.some.inj h
      obtain ⟨-, htext⟩ := Option.filter_eq_some_iff.1 hy
      rw [← beq_iff_eq.1 htext, codeWords_symbol, readWords_symbol]
      rfl
  split at h
  · next hall =>
      have hletter (c : Char) (hc : c ∈ w) : isLetter c = true := by
        rcases Bool.or_eq_true_iff.1 (List.all_eq_true.1 hall c hc) with hname | hdot
        · exact (isLetter_of_isNameLetter hname).1
        · rw [beq_iff_eq.1 hdot]
          decide
      have hne : w ≠ [] := by
        rintro rfl
        cases h
      rw [codeWords_of_letters hne hletter, readWords, wordTokens_of_lettersTokens? h]
      rfl
  · obtain ⟨out, hout, rfl⟩ := Option.map_eq_some_iff.1 h
    exact readWords_of_readAlone (by rw [ok_of_toOption hout, List.reverse_reverse]) done

/-! ## Code -/

/-- The symbol of a separator. -/
def separator? (c : Char) : Option Symbol :=
  ((separators.zip [Symbol.comma, .semi, .lparen, .lbracket, .lbrace, .rparen, .rbracket, .rbrace,
    .colon]).find? (·.1 == c)).map (·.2)

theorem text_of_separator? {c : Char} {y : Symbol} (h : separator? c = some y) :
    c ∈ separators ∧ y.text = String.singleton c := by
  obtain ⟨p, hp, rfl⟩ := Option.map_eq_some_iff.1 h
  have hc := List.find?_some hp
  have hall : ∀ p ∈ separators.zip [Symbol.comma, .semi, .lparen, .lbracket, .lbrace, .rparen,
      .rbracket, .rbrace, .colon], p.1 ∈ separators ∧ p.2.text = String.singleton p.1 := by decide
  rw [← beq_iff_eq.1 hc]
  exact hall p (List.mem_of_find?_eq_some hp)

/-- The tokens of a word in reverse order, if there is one. -/
def ended? (part : List Char) : Option (List Token) :=
  if part.isEmpty then some [] else tokens? part.reverse

theorem readWords_of_ended? (h : ended? part = some ts) (done : List Token) :
    readWords done (codeWords part.reverse) = .ok (ts.reverse ++ done) := by
  unfold ended? at h
  split at h
  · next hempty =>
      obtain rfl := Option.some.inj h
      rw [List.isEmpty_iff.1 hempty, List.reverse_nil, codeWords_nil]
      rfl
  · exact readWords_of_tokens? h done

/-- The tokens of code. `part` is the word begun, in reverse order. -/
def scan : List Char → List Char → Option (List Token)
  | part, [] => ended? part
  | part, c :: cs =>
    if c == ' ' then do return (← ended? part) ++ (← scan [] cs)
    else match separator? c with
      | some y => do return (← ended? part) ++ .sym y :: (← scan [] cs)
      | none => scan (c :: part) cs

theorem readWords_of_scan (h : scan part cs = some ts) (done : List Token) :
    readWords done (codeWords (part.reverse ++ cs)) = .ok (ts.reverse ++ done) := by
  induction cs generalizing part ts done with
  | nil =>
    rw [List.append_nil]
    exact readWords_of_ended? h done
  | cons c cs ih =>
    rw [scan] at h
    split at h
    · next hc =>
        obtain rfl := beq_iff_eq.1 hc
        obtain ⟨a, ha, h⟩ := Option.bind_eq_some_iff.1 h
        obtain ⟨b, hb, h⟩ := Option.bind_eq_some_iff.1 h
        obtain rfl := Option.some.inj h
        have hrest := ih hb (a.reverse ++ done)
        rw [List.reverse_nil, List.nil_append] at hrest
        rw [codeWords_blank, readWords_past (readWords_of_ended? ha done), hrest,
          List.reverse_append, List.append_assoc]
    split at h
    · next y hy =>
        obtain ⟨hc, htext⟩ := text_of_separator? hy
        obtain ⟨a, ha, h⟩ := Option.bind_eq_some_iff.1 h
        obtain ⟨b, hb, h⟩ := Option.bind_eq_some_iff.1 h
        obtain rfl := Option.some.inj h
        have hrest := ih hb (.sym y :: (a.reverse ++ done))
        rw [List.reverse_nil, List.nil_append] at hrest
        rw [codeWords_separator hc, readWords_past (readWords_of_ended? ha done), ← htext,
          readWords_symbol, hrest]
        simp
    · have hrest := ih h done
      rwa [List.reverse_cons, List.append_assoc] at hrest

/-! ## Texts -/

/-- The tokens of segments. -/
def scanSegments : List Segment → Option (List Token)
  | [] => some []
  | .code cs :: rest => do return (← scan [] cs) ++ (← scanSegments rest)
  | .quoted cs :: rest => do return .val (.str (String.ofList (← Text.Escape.decode cs))) ::
      (← scanSegments rest)

/-- The tokens of a text. -/
def scanText (cs : List Char) : Option (List Token) :=
  (segments cs).toOption.bind scanSegments

theorem scanSegments_append {segs rest : List Segment} (h : scanSegments segs = some ts)
    (hrest : scanSegments rest = some us) : scanSegments (segs ++ rest) = some (ts ++ us) := by
  induction segs generalizing ts with
  | nil =>
    obtain rfl := Option.some.inj h
    exact hrest
  | cons seg segs ih =>
    cases seg with
    | code cs | quoted cs =>
      obtain ⟨a, ha, h⟩ := Option.bind_eq_some_iff.1 h
      obtain ⟨b, hb, h⟩ := Option.bind_eq_some_iff.1 h
      obtain rfl := Option.some.inj h
      rw [List.cons_append, scanSegments, ha, ih hb]
      simp

/-- Lines are read one by one. -/
theorem scanText_newline {cs ds : List Char} (h : scanText cs = some ts)
    (h' : scanText ds = some us) :
    scanText (cs ++ '\n' :: ds) = some (ts ++ us) := by
  obtain ⟨segs, hsegs, hscan⟩ := Option.bind_eq_some_iff.1 h
  obtain ⟨segs', hsegs', hscan'⟩ := Option.bind_eq_some_iff.1 h'
  rw [scanText, segments_newline, ok_of_toOption hsegs, ok_of_toOption hsegs']
  exact scanSegments_append hscan hscan'

theorem readSegments_of_scanSegments {segs : List Segment} (h : scanSegments segs = some ts)
    (done : List Token) :
    readSegments done segs = .ok (ts.reverse ++ done) := by
  induction segs generalizing ts done with
  | nil =>
    obtain rfl := Option.some.inj h
    rfl
  | cons seg segs ih =>
    cases seg with
    | code cs =>
      obtain ⟨a, ha, h⟩ := Option.bind_eq_some_iff.1 h
      obtain ⟨b, hb, h⟩ := Option.bind_eq_some_iff.1 h
      obtain rfl := Option.some.inj h
      have hcode := readWords_of_scan ha done
      rw [List.reverse_nil, List.nil_append] at hcode
      rw [readSegments, hcode]
      show readSegments (a.reverse ++ done) segs = _
      simpa using ih hb (a.reverse ++ done)
    | quoted cs =>
      obtain ⟨a, ha, h⟩ := Option.bind_eq_some_iff.1 h
      obtain ⟨b, hb, h⟩ := Option.bind_eq_some_iff.1 h
      obtain rfl := Option.some.inj h
      rw [readSegments, ha]
      simpa using ih hb (.val (.str (String.ofList a)) :: done)

/-- **What is read in one pass is what is read.** -/
theorem lex_of_scanText {text : String} (h : scanText text.toList = some ts) :
    lex text = .ok (.sym .varMark :: ts) := by
  obtain ⟨segs, hsegs, hscan⟩ := Option.bind_eq_some_iff.1 h
  have hread := readSegments_of_scanSegments hscan []
  rw [List.append_nil] at hread
  exact lex_eq_ok.2 ⟨segs, _, ok_of_toOption hsegs, hread, by rw [List.reverse_reverse]⟩

end LittleJ.Lexer

/-- A number as a token. -/
def LittleJ.Workload.numberToken (n : Int) : Token :=
  .val (.num (Float.ofInt n))
