import LittleJ.Token.Lexer
import Mathlib.Data.List.Forall2

/-!
# The segments of a line are stretches of its text

A segment keeps no quotes, and its kind is known when it is cut. Here a line is cut into texts,
quotes and all, by a machine whose state is two variables, a flag and a quote that may be missing,
and a text is told to be code or a literal by its first character. Not every state makes sense, nor
every text that starts with a quote. The machine and the reader of texts stop there, and none ever
does: they give the same segments.

The texts are code and literals by turns. Joined they are the line, or the line up to the first
comment.
-/

namespace LittleJ.Lexer

open List

/-- Why a line cannot be cut. -/
inductive Halt
  | openString
  /-- A state or a text that makes no sense. -/
  | senseless

/-- The texts of a line. A literal that started with `quote` is open if `inside` holds; `part` has
the characters of the current text in reverse order. -/
def textsFrom (inside : Bool) (quote : Option Char) (part : List Char) :
    List Char → Except Halt (List (List Char))
  | [] => if inside then .error .openString else .ok [part.reverse]
  | c :: cs =>
    if !inside && quote.isNone then
      if isQuote c then (textsFrom true c [c] cs).map (part.reverse :: ·)
      else if c == '/' && cs.head? == some '/' then .ok [part.reverse]
      else textsFrom false none (c :: part) cs
    else if inside && quote.any isQuote && !part.isEmpty then
      if quote == some c && part.head? != some '\\' then (textsFrom false none [] cs).map
        ((c :: part).reverse :: ·)
      else textsFrom inside quote (c :: part) cs
    else .error .senseless

/-- The segment that a text stands for: a literal if it starts with a quote. It must then end with
the same quote. -/
def segmentOf (text : List Char) : Except Halt Segment :=
  if text.head?.any isQuote then
    if text.head? == text.getLast? then .ok (.quoted text.tail.dropLast) else .error .senseless
  else .ok (.code text)

/-- Code has no quotes and starts no comment. -/
structure IsCode (cs : List Char) : Prop where
  plain : ∀ c ∈ cs, isQuote c = false
  joined : ¬['/', '/'] <:+: cs

/-- The texts of a line: code and literals by turns, up to the end or to two slashes outside the
literals, the first ones there. -/
inductive Cut : List (List Char) → List Char → Prop
  | line {code : List Char} : IsCode code → Cut [code] code
  | comment {code rest : List Char} :
      IsCode (code ++ ['/']) → Cut [code] (code ++ '/' :: '/' :: rest)
  | literal {code body rest : List Char} {q : Char} {texts : List (List Char)} :
      IsCode code → isQuote q = true →
      Cut texts rest → Cut (code :: (q :: (body ++ [q])) :: texts)
      (code ++ q :: (body ++ q :: rest))

/-- The two ways of cutting agree, and the texts have property `P`. -/
inductive Agree (P : List (List Char) → Prop) :
    Except Halt (List (List Char)) → Except Error (List Segment) → Prop
  | failed : Agree P (.error .openString) (.error .openString)
  | done {texts : List (List Char)} {segs : List Segment} :
      Forall₂ (fun text seg => segmentOf text = .ok seg) texts segs →
      P texts → Agree P (.ok texts) (.ok segs)

variable {c q : Char} {cs part text : List Char}

theorem Agree.cons {P Q : List (List Char) → Prop} {x : Except Halt (List (List Char))}
    {y : Except Error (List Segment)} {seg : Segment} (h : Agree Q x y)
    (hseg : segmentOf text = .ok seg) (hP : ∀ texts, Q texts → P (text :: texts)) :
    Agree P (x.map (text :: ·)) (do return seg :: (← y)) := by
  cases h with
  | failed => exact .failed
  | done hsegs hQ => exact .done (.cons hseg hsegs) (hP _ hQ)

theorem Agree.imp {P Q : List (List Char) → Prop} {x : Except Halt (List (List Char))}
    {y : Except Error (List Segment)} (h : Agree Q x y) (hP : ∀ texts, Q texts → P texts) :
    Agree P x y := by
  cases h with
  | failed => exact .failed
  | done hsegs hQ => exact .done hsegs (hP _ hQ)

theorem IsCode.concat (h : IsCode part.reverse) (hc : isQuote c = false)
    (hslash : part.head? = some '/' → c ≠ '/') :
    IsCode (c :: part).reverse := by
  obtain ⟨hplain, hjoined⟩ := h
  refine ⟨by simpa [or_imp, forall_and, hc] using hplain, fun h => ?_⟩
  rw [← reverse_infix, reverse_reverse] at h hjoined
  rcases infix_cons_iff.1 h with h | h
  · cases part with
    | nil => simp at h
    | cons d part =>
      obtain ⟨rfl, hd⟩ := cons_prefix_cons.1 h
      obtain ⟨rfl, _⟩ := cons_prefix_cons.1 hd
      exact hslash rfl rfl
  · exact hjoined h

theorem IsCode.segmentOf (h : IsCode cs) : segmentOf cs = .ok (.code cs) := by
  cases cs with
  | nil => rfl
  | cons c cs => simp [Lexer.segmentOf, h.plain c]

theorem segmentOf_literal (hq : isQuote q = true) (body : List Char) :
    segmentOf (q :: (body ++ [q])) = .ok (.quoted body) := by
  rw [segmentOf, ← cons_append, getLast?_concat]
  simp [hq]

/-- Both machines from any point of a line on: outside the literals, and inside one that starts with
`q`. -/
theorem agree_from (cs : List Char) :
    (∀ part, IsCode part.reverse → (part.head? = some '/' → cs.head? ≠ some '/') →
      Agree (Cut · (part.reverse ++ cs)) (textsFrom false none part cs)
      (segmentsFrom .code part cs)) ∧
    ∀ q prev part, isQuote q = true → (part ++ [q]).head? = some prev →
      Agree (fun texts => ∃ body rest more, cs = body ++ q :: rest ∧
          texts = (q :: (part.reverse ++ body ++ [q])) :: more ∧ Cut more rest)
        (textsFrom true (some q) (part ++ [q]) cs) (segmentsFrom (.quoted q prev) part cs) := by
  induction cs with
  | nil =>
    refine ⟨fun part hcode _ => ?_, fun q prev part _ _ => .failed⟩
    exact .done (.cons hcode.segmentOf .nil) (by simpa using Cut.line hcode)
  | cons c cs ih =>
    obtain ⟨ihcode, ihquoted⟩ := ih
    constructor
    · intro part hcode hslash
      have houtside : (!false && (none : Option Char).isNone) = true := rfl
      rw [textsFrom, segmentsFrom, if_pos houtside]
      by_cases hc : isQuote c = true
      · rw [if_pos hc, if_pos hc]
        refine (ihquoted c c [] hc rfl).cons hcode.segmentOf ?_
        rintro texts ⟨body, rest, more, rfl, rfl, hmore⟩
        exact .literal hcode hc hmore
      · have hnext := hcode.concat (by simpa using hc) fun h heq => hslash h (by rw [heq]; rfl)
        rw [if_neg hc, if_neg hc]
        by_cases hcomment : (c == '/' && cs.head? == some '/') = true
        · rw [if_pos hcomment, if_pos hcomment]
          simp only [Bool.and_eq_true, beq_iff_eq] at hcomment
          obtain ⟨rfl, hhead⟩ := hcomment
          obtain ⟨rest, rfl⟩ := head?_eq_some_iff.1 hhead
          exact .done (.cons hcode.segmentOf .nil) (.comment (by simpa using hnext))
        · rw [if_neg hcomment, if_neg hcomment]
          have hrest := ihcode (c :: part) hnext fun h => by simp_all
          simpa using hrest
    · intro q prev part hq hprev
      have hinside : (true && (some q).any isQuote && !(part ++ [q]).isEmpty) = true := by simp [hq]
      have hsame : (some q == some c && some prev != some '\\') = (c == q && prev != '\\') := by
        rw [Option.some_beq_some, Bool.beq_comm, bne, bne, Option.some_beq_some]
      rw [textsFrom, segmentsFrom, if_neg (by simp), if_pos hinside, hprev, hsame]
      by_cases hend : (c == q && prev != '\\') = true
      · rw [if_pos hend, if_pos hend]
        obtain rfl : c = q := by simp_all
        have htext : (c :: (part ++ [c])).reverse = c :: (part.reverse ++ [c]) := by simp
        rw [htext]
        refine (ihcode [] ⟨by simp, by simp⟩ (by simp)).cons (segmentOf_literal hq _)
          fun texts htexts => ?_
        exact ⟨[], cs, texts, rfl, by simp, htexts⟩
      · rw [if_neg hend, if_neg hend]
        refine (ihquoted q c (c :: part) hq rfl).imp ?_
        rintro texts ⟨body, rest, more, rfl, rfl, hmore⟩
        exact ⟨c :: body, rest, more, rfl, by simp, hmore⟩

theorem Cut.flatten {texts : List (List Char)} {line : List Char} (h : Cut texts line) :
    texts.flatten = line ∨ ∃ rest, line = texts.flatten ++ '/' :: '/' :: rest := by
  induction h with
  | line _ => exact .inl (by simp)
  | @comment _ rest _ => exact .inr ⟨rest, by simp⟩
  | literal _ _ _ ih =>
    rcases ih with rfl | ⟨tail, rfl⟩
    · exact .inl (by simp)
    · exact .inr ⟨tail, by simp⟩

/-- **A line is cut into code and literals by turns, and nothing is lost.** Either a literal is left
open, or the machine comes to the end, each of its texts is read as its segment, and joined they are
the line, or the line up to a comment. -/
theorem line_cut_in_segments (line : List Char) :
    (textsFrom false none [] line = .error .openString ∧ lineSegments line = .error .openString) ∨
    ∃ texts segs, textsFrom false none [] line = .ok texts ∧ lineSegments line = .ok segs ∧
      Forall₂ (fun text seg => segmentOf text = .ok seg) texts segs ∧ Cut texts line ∧
      (texts.flatten = line ∨ ∃ rest, line = texts.flatten ++ '/' :: '/' :: rest) := by
  have h := (agree_from line).1 [] ⟨by simp, by simp⟩ (by simp)
  rw [reverse_nil, nil_append] at h
  rw [lineSegments]
  generalize textsFrom false none [] line = x at h ⊢
  generalize segmentsFrom .code [] line = y at h ⊢
  cases h with
  | failed => exact .inl ⟨rfl, rfl⟩
  | done hsegs hcut => exact .inr ⟨_, _, rfl, rfl, hsegs, hcut, hcut.flatten⟩

end LittleJ.Lexer
