import LittleJ.Proofs.Filling
import LittleJ.Proofs.GapKept
import LittleJ.Proofs.Literal

/-!
# Which string literals are opaque

Reading a program should not look into its string literals: two texts that differ in the content of
one literal should both be refused, or be read as one tree with two contents. That holds of two
contents that no search of the reader takes for a symbol and that a dot treats alike, whatever the
text around them.

It holds of no others. Brackets, separators, assignment signs and the `if` of an `else if` are
searched for by their text, so a literal with such a text stands in for the symbol. For each of
these texts there is a slot in which it is accepted and plain contents are not, and `"name".b` is
read where `"0".b` is not.
-/

namespace LittleJ

open Lexer Token List

variable {u v : String} {ts : List Token}

namespace Lexer.Slot

/-- The slot does not show which of two contents it has: the texts are both refused, or both are
read as the same tree around the literal. -/
def Hides (s : Slot) (u v : String) : Prop :=
  (∃ e e', parseText (s.text u) = .error e ∧ parseText (s.text v) = .error e') ∨
    ∃ p : Program, Stmt.anyGapped p = true ∧ parseText (s.text u) = .ok (p.map (Stmt.fill u)) ∧
      parseText (s.text v) = .ok (p.map (Stmt.fill v))

/-- Whether the text with `u` in the slot is a program. -/
def accepts (s : Slot) (u : String) : Bool :=
  (parseText (s.text u)).isOk

theorem Hides.accepts_eq {s : Slot} (h : s.Hides u v) : s.accepts u = s.accepts v := by
  rcases h with ⟨e, e', hu, hv⟩ | ⟨p, -, hu, hv⟩ <;> rw [accepts, accepts, hu, hv] <;> rfl

/-- **Plain contents are hidden in every slot**, if a dot may follow both or neither. -/
theorem hides_of_plain (s : Slot) (hu : IsContent u) (hv : IsContent v) (hpu : Plain u)
    (hpv : Plain v) (huv : takesDot u = takesDot v) : s.Hides u v := by
  have hlex := s.sameAround hu hv huv
  unfold Hides parseText
  revert hlex
  generalize lex (s.text u) = x
  generalize lex (s.text v) = y
  intro hlex
  cases hlex with
  | failed e e' => exact .inl ⟨e, e', rfl, rfl⟩
  | filled ts hgap =>
    -- both token lists are fillings of `ts`, so both readings are compared with the one of `ts`
    have hau := alike_parse hpu ts
    have hav := alike_parse hpv ts
    cases hts : parse ts with
    | ok p => exact .inr ⟨p, gapped_parse hts hgap, hau.isOk hts, hav.isOk hts⟩
    | error e =>
      rw [hts] at hau hav
      revert hau hav
      generalize hx : parse (ts.map (fill u)) = x
      generalize hy : parse (ts.map (fill v)) = y
      intro hau hav
      cases hau
      cases hav
      exact .inl ⟨_, _, hx, hy⟩

/-- A plain content for each of the two ways a dot treats a literal. -/
def sample (dot : Bool) : String :=
  if dot then "x" else "0"

theorem sample_plain (dot : Bool) : IsContent (sample dot) ∧ Plain (sample dot) ∧
    takesDot (sample dot) = dot := by
  cases dot <;> decide +kernel

/-- A plain content is accepted where its sample is. -/
theorem accepts_eq_sample (s : Slot) (hu : IsContent u) (hp : Plain u) :
    s.accepts u = s.accepts (sample (takesDot u)) := by
  obtain ⟨hcontent, hplain, hdot⟩ := sample_plain (takesDot u)
  exact (s.hides_of_plain hu hcontent hp hplain hdot.symm).accepts_eq

/-! ## The tokens around a literal -/

/-- Whether a token is the string `w`. -/
def isString (w : String) : Token → Bool
  | .val (.str s) => s == w
  | _ => false

/-- The token with the string `w` replaced by `v`. -/
def swap (w v : String) (t : Token) : Token :=
  if isString w t then .val (.str v) else t

theorem map_swap_of_not {w : String} (h : ts.any (isString w) = false) (v : String) :
    ts.map (swap w v) = ts := by
  rw [any_eq_false] at h
  calc ts.map (swap w v) = ts.map id := map_congr_left fun t ht => if_neg (h t ht)
    _ = ts := map_id ts

/-- If the string `w` stands in one place only, that place is the gap. -/
theorem map_fill_eq {w : String} {front back : List Token} (hgap : .row [] ∈ ts)
    (hsimple : ∀ t ∈ ts, t ≠ .row [] → isSimple t = true)
    (heq : ts.map (fill w) = front ++ .val (.str w) :: back)
    (hfront : front.any (isString w) = false) (hback : back.any (isString w) = false) (v : String) :
    ts.map (fill v) = front ++ .val (.str v) :: back := by
  have hstr : isString w (.val (.str w)) = true := by simp [isString]
  have hgapped : isString w ((row []).fill w) = true := by simp [fill, isString]
  have hone : (ts.map (fill w)).countP (isString w) = 1 := by
    rw [any_eq_false] at hfront hback
    rw [heq, countP_append, countP_cons_of_pos hstr, List.countP_eq_zero.mpr hfront,
      List.countP_eq_zero.mpr hback]
  -- so no token but the gap is turned into `w`
  have hswap : (ts.map (fill w)).map (swap w v) = ts.map (fill v) := by
    obtain ⟨before, behind, rfl⟩ := append_of_mem hgap
    rw [map_append, map_cons, countP_append, countP_cons_of_pos hgapped] at hone
    rw [map_map]
    refine map_congr_left fun t ht => ?_
    rw [Function.comp_apply, swap]
    by_cases hne : t = .row []
    · rw [hne, if_pos hgapped]
      simp [fill]
    · have hmem : t ∈ before ∨ t ∈ behind := by simpa [hne] using ht
      have hno : ¬isString w (t.fill w) = true := by
        rcases hmem with hmem | hmem
        · exact List.countP_eq_zero.mp (by omega) _ (mem_map_of_mem hmem)
        · exact List.countP_eq_zero.mp (by omega) _ (mem_map_of_mem hmem)
      rw [if_neg hno, fill_of_isSimple (hsimple t ht hne), fill_of_isSimple (hsimple t ht hne)]
  rw [← hswap, heq, map_append, map_cons, map_swap_of_not hfront, map_swap_of_not hback,
    swap, if_pos hstr]

/-- Whether two token lists are the same and have no functions in them. -/
def sameSimple : List Token → List Token → Bool
  | [], [] => true
  | .name s :: ts, .name s' :: ts' => s == s' && sameSimple ts ts'
  | .sym y :: ts, .sym y' :: ts' => y == y' && sameSimple ts ts'
  | .val v :: ts, .val v' :: ts' => v == v' && sameSimple ts ts'
  | _, _ => false

theorem eq_of_sameSimple {ts' : List Token} (h : sameSimple ts ts' = true) : ts = ts' := by
  fun_induction sameSimple ts ts' with
  | case1 => rfl
  | case2 s ts s' ts' ih => simp_all
  | case3 y ts y' ts' ih => simp_all
  | case4 v ts v' ts' ih => simp_all
  | case5 => cases h

/-! ## Slots that tell contents apart -/

/-- A slot that needs a text, and the tokens around its literal. -/
structure Probe where
  needed : String
  slot : Slot
  front : List Token
  back : List Token

/-- The tokens with `u` in the slot. -/
def Probe.tokens (c : Probe) (u : String) : List Token :=
  c.front ++ .val (.str u) :: c.back

/-- Whether the text of a probe has the tokens that it names, with a sample in the slot. -/
def Probe.lexes (c : Probe) (w : String) : Bool :=
  match lex (c.slot.text w) with
  | .ok ts => sameSimple ts (c.tokens w) && !c.front.any (isString w) && !c.back.any (isString w)
  | .error _ => false

theorem Probe.accepts_eq {c : Probe} (hc : ∀ dot, c.lexes (sample dot) = true) (hu : IsContent u) :
    c.slot.accepts u = (parse (c.tokens u)).isOk := by
  obtain ⟨hcontent, -, hdot⟩ := sample_plain (takesDot u)
  have hlexes := hc (takesDot u)
  have hlex := c.slot.sameAround hcontent hu hdot
  unfold accepts parseText
  unfold lexes at hlexes
  revert hlexes hlex
  generalize sample (takesDot u) = w
  generalize lex (c.slot.text w) = x
  generalize lex (c.slot.text u) = y
  intro hlexes hlex
  cases hlex with
  | failed e e' => cases hlexes
  | filled ts hgap hsimple =>
    simp only [Bool.and_eq_true, Bool.not_eq_true'] at hlexes
    obtain ⟨⟨hsame, hfront⟩, hback⟩ := hlexes
    rw [map_fill_eq hgap hsimple (eq_of_sameSimple hsame) hfront hback u]
    rfl

/-- A slot in a text of one line. -/
def ofLine (line after : String)
    (h : line.toList.all (!Text.isBreak ·) = true ∧ opensAfter .code line.toList = true) :
    Slot where
  before := []
  line := line.toList
  quote := '"'
  after := after.toList
  ended := .inl rfl
  unbroken := h.1
  isQuote := rfl
  opens := h.2

/-- For each text that is searched for, a probe that needs it. -/
def probes : List Probe :=
  [⟨"(", ofLine "if" "a)\x7bb;\x7d" (by decide), [.sym .varMark, .sym .kwIf],
      [.name "a", .sym .rparen, .sym .lbrace, .name "b", .sym .semi, .sym .rbrace]⟩,
    ⟨")", ofLine "if(a" "\x7bb;\x7d" (by decide),
      [.sym .varMark, .sym .kwIf, .sym .lparen, .name "a"],
      [.sym .lbrace, .name "b", .sym .semi, .sym .rbrace]⟩,
    ⟨"[", ofLine "a" "b]=c;" (by decide), [.sym .varMark, .name "a"],
      [.name "b", .sym .rbracket, .sym .assign, .name "c", .sym .semi]⟩,
    ⟨"]", ofLine "b[c" ";" (by decide), [.sym .varMark, .name "b", .sym .lbracket, .name "c"],
      [.sym .semi]⟩,
    ⟨"\x7b", ofLine "if(a)" "b;\x7d" (by decide),
      [.sym .varMark, .sym .kwIf, .sym .lparen, .name "a", .sym .rparen],
      [.name "b", .sym .semi, .sym .rbrace]⟩,
    ⟨"\x7d", ofLine "if(a)\x7bb;" "" (by decide),
      [.sym .varMark, .sym .kwIf, .sym .lparen, .name "a", .sym .rparen, .sym .lbrace, .name "b",
        .sym .semi], []⟩,
    ⟨",", ofLine "a=function(" ")\x7bb;\x7d;" (by decide),
      [.sym .varMark, .name "a", .sym .assign, .sym .kwFunction, .sym .lparen],
      [.sym .rparen, .sym .lbrace, .name "b", .sym .semi, .sym .rbrace, .sym .semi]⟩,
    ⟨"=", ofLine "a" "=c;" (by decide), [.sym .varMark, .name "a"],
      [.sym .assign, .name "c", .sym .semi]⟩,
    ⟨"+=", ofLine "a" "+=c;" (by decide), [.sym .varMark, .name "a"],
      [.sym .plusAssign, .name "c", .sym .semi]⟩,
    ⟨"-=", ofLine "a" "-=c;" (by decide), [.sym .varMark, .name "a"],
      [.sym .minusAssign, .name "c", .sym .semi]⟩,
    ⟨";", ofLine "for(a=b" "c;a=b)\x7bd;\x7d" (by decide),
      [.sym .varMark, .sym .kwFor, .sym .lparen, .name "a", .sym .assign, .name "b"],
      [.name "c", .sym .semi, .name "a", .sym .assign, .name "b", .sym .rparen, .sym .lbrace,
        .name "d", .sym .semi, .sym .rbrace]⟩,
    ⟨"if", ofLine "if(a)\x7bb;\x7delse" "(c)\x7bd;\x7d" (by decide),
      [.sym .varMark, .sym .kwIf, .sym .lparen, .name "a", .sym .rparen, .sym .lbrace, .name "b",
        .sym .semi, .sym .rbrace, .sym .kwElse],
      [.sym .lparen, .name "c", .sym .rparen, .sym .lbrace, .name "d", .sym .semi, .sym .rbrace]⟩]

theorem lexes_of_mem_probes : ∀ c ∈ probes, ∀ dot, c.lexes (sample dot) = true := by
  suffices h : ∀ dot, ∀ c ∈ probes, c.lexes (sample dot) = true from fun c hc dot => h dot c hc
  intro dot
  cases dot <;> decide +kernel

/-- Whether a probe accepts what it needs and no sample. -/
def Probe.tells (c : Probe) : Bool :=
  (parse (c.tokens c.needed)).isOk && [true, false].all fun dot =>
  !(parse (c.tokens (sample dot))).isOk

theorem tells_of_mem_probes : ∀ c ∈ probes, c.tells = true := by
  decide +kernel

/-- Of two texts that are searched for, one is rejected where the other is needed. -/
theorem tells_apart_of_mem_probes : ∀ c ∈ probes, ∀ d ∈ probes, c.needed ≠ d.needed →
    (parse (c.tokens d.needed)).isOk = false ∨ (parse (d.tokens c.needed)).isOk = false := by
  decide +kernel

theorem accepts_of_mem_probes {c : Probe} (hc : c ∈ probes) (hu : IsContent u) :
    c.slot.accepts u = (parse (c.tokens u)).isOk :=
  Probe.accepts_eq (lexes_of_mem_probes c hc) hu

theorem exists_probe (hu : ¬Plain u) : ∃ c ∈ probes, c.needed = u := by
  have hmem : u ∈ probes.map (·.needed) := Decidable.not_not.mp hu
  exact List.mem_map.mp hmem

/-- A text that is searched for is told from every other content. -/
theorem exists_accepts_ne (hu : IsContent u) (hv : IsContent v) (hne : u ≠ v) (hpu : ¬Plain u) :
    ∃ s : Slot, s.accepts u ≠ s.accepts v := by
  obtain ⟨c, hc, rfl⟩ := exists_probe hpu
  -- a plain content is judged by its sample, any other by the table of probes
  have htells := tells_of_mem_probes c hc
  simp only [Probe.tells, Bool.and_eq_true, all_eq_true, Bool.not_eq_true'] at htells
  by_cases hpv : Plain v
  · have hsample : (parse (c.tokens (sample (takesDot v)))).isOk = false :=
      htells.2 _ (by cases takesDot v <;> decide)
    refine ⟨c.slot, ?_⟩
    rw [accepts_of_mem_probes hc hu, htells.1, c.slot.accepts_eq_sample hv hpv,
      accepts_of_mem_probes hc (sample_plain _).1, hsample]
    decide
  · obtain ⟨d, hd, rfl⟩ := exists_probe hpv
    have htells' := tells_of_mem_probes d hd
    simp only [Probe.tells, Bool.and_eq_true] at htells'
    rcases tells_apart_of_mem_probes c hc d hd hne with h | h
    · refine ⟨c.slot, ?_⟩
      rw [accepts_of_mem_probes hc hu, htells.1, accepts_of_mem_probes hc hv, h]
      decide
    · refine ⟨d.slot, ?_⟩
      rw [accepts_of_mem_probes hd hu, h, accepts_of_mem_probes hd hv, htells'.1]
      decide

/-- A slot that needs a content behind which a dot may stand. -/
def dotted : Slot :=
  ofLine "" ".b;" (by decide)

theorem dotted_accepts (hu : IsContent u) (hp : Plain u) :
    dotted.accepts u = takesDot u := by
  have hsample : ∀ dot, dotted.accepts (sample dot) = dot := by decide +kernel
  rw [accepts_eq_sample _ hu hp, hsample]

end Lexer.Slot

/-- **Two contents of a literal are hidden in every slot exactly when neither has a text that
reading searches for and a dot may follow both or neither.** -/
theorem literal_hidden_iff {u v : String} (hu : IsContent u) (hv : IsContent v) (hne : u ≠ v) :
    (∀ s : Slot, s.Hides u v) ↔ Plain u ∧ Plain v ∧ takesDot u = takesDot v := by
  constructor
  · intro h
    have haccepts : ∀ s : Slot, s.accepts u = s.accepts v := fun s => (h s).accepts_eq
    have hpu : Plain u := by
      by_cases hpu : Plain u
      · exact hpu
      · obtain ⟨s, hs⟩ := Slot.exists_accepts_ne hu hv hne hpu
        exact absurd (haccepts s) hs
    have hpv : Plain v := by
      by_cases hpv : Plain v
      · exact hpv
      · obtain ⟨s, hs⟩ := Slot.exists_accepts_ne hv hu hne.symm hpv
        exact absurd (haccepts s).symm hs
    refine ⟨hpu, hpv, ?_⟩
    rw [← Slot.dotted_accepts hu hpu, ← Slot.dotted_accepts hv hpv]
    exact haccepts Slot.dotted
  · rintro ⟨hpu, hpv, huv⟩ s
    exact s.hides_of_plain hu hv hpu hpv huv

/-- Brackets inside longer contents are hidden, a bracket on its own is not. -/
theorem literal_hidden_iff_bracket :
    (∀ s : Slot, s.Hides "f(a)" "b c") ∧ ¬∀ s : Slot, s.Hides "(" "b c" :=
  ⟨(literal_hidden_iff (by decide +kernel) (by decide +kernel) (by decide)).mpr (by decide +kernel),
    fun h => absurd
      ((literal_hidden_iff (by decide +kernel) (by decide +kernel) (by decide)).mp h).1 (by decide)⟩

end LittleJ
