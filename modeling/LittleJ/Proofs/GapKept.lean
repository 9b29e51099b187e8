import LittleJ.Proofs.Gap
import LittleJ.Proofs.Grammar

/-!
# Reading loses no gap

If the tokens of a program have a gap then the statements read from them have one too. The tokens
that reading drops are keywords, brackets, commas, semicolons and the signs of assignments, and a
gap is none of these; every other token ends up in an expression. The induction is on the derivation
of the program.
-/

namespace LittleJ

open Stmt List Grammar TopLevel

variable {t : Token} {ts : List Token} {p : Program}

mutual

/-- Whether a token is a gap or a function with a gap in its body. -/
def Token.gapped : Token → Bool
  | .row [] => true
  | .func f => f.gapped
  | _ => false

def Function.gapped : Function → Bool
  | .mk _ body _ => Stmt.anyGapped body

/-- Whether a statement has a gap. -/
def Stmt.gapped : Stmt → Bool
  | .init _ e => Token.anyGapped e
  | .assign target e => Token.anyGapped target || Token.anyGapped e
  | .ladder arms => Stmt.armsGapped arms
  | .loop condition code => Token.anyGapped condition || Stmt.anyGapped code
  | .ret e => Token.anyGapped e
  | .brk => false
  | .exp e => Token.anyGapped e

def Token.anyGapped : List Token → Bool
  | [] => false
  | t :: ts => t.gapped || Token.anyGapped ts

def Stmt.anyGapped : List Stmt → Bool
  | [] => false
  | s :: ss => s.gapped || Stmt.anyGapped ss

def Stmt.armsGapped : List (List Token × List Stmt) → Bool
  | [] => false
  | (condition, code) :: arms =>
    Token.anyGapped condition || Stmt.anyGapped code || Stmt.armsGapped arms

end

theorem Token.anyGapped_append (ts us : List Token) :
    Token.anyGapped (ts ++ us) = (Token.anyGapped ts || Token.anyGapped us) := by
  induction ts with
  | nil => simp [Token.anyGapped]
  | cons t ts ih => simp [Token.anyGapped, ih, Bool.or_assoc]

theorem Stmt.anyGapped_iff : Stmt.anyGapped p = true ↔ ∃ s ∈ p, s.gapped = true := by
  induction p with
  | nil => simp [Stmt.anyGapped]
  | cons s p ih => simp [Stmt.anyGapped, ih]

theorem Stmt.anyGapped_append (p q : List Stmt) :
    Stmt.anyGapped (p ++ q) = (Stmt.anyGapped p || Stmt.anyGapped q) := by
  induction p with
  | nil => simp [Stmt.anyGapped]
  | cons s p ih => simp [Stmt.anyGapped, ih, Bool.or_assoc]

theorem Stmt.armsGapped_append (arms more : List (List Token × List Stmt)) :
    Stmt.armsGapped (arms ++ more) = (Stmt.armsGapped arms || Stmt.armsGapped more) := by
  induction arms with
  | nil => simp [Stmt.armsGapped]
  | cons arm arms ih =>
    obtain ⟨condition, code⟩ := arm
    simp [Stmt.armsGapped, ih, Bool.or_assoc]

/-! ## Where a gap can be -/

theorem ne_gap_of_reads {s : String} (h : t.reads s = true) : .row [] ≠ t := by
  rintro rfl
  simp [Token.reads] at h

theorem ne_gap_of_is {y : Symbol} (h : t.is y = true) : .row [] ≠ t := by
  rintro rfl
  simp [Token.is] at h

/-- A gap in a bracketed part is between the brackets. -/
theorem Bracket.Enclosed.gap_mem {left right : String} {inner whole : List Token}
    (h : Enclosed left right inner whole) (hgap : .row [] ∈ whole) : .row [] ∈ inner := by
  obtain ⟨o, c, rfl, ho, hc, _⟩ := h
  simpa [ne_gap_of_reads ho, ne_gap_of_reads hc] using hgap

theorem Grammar.Framed.gap_mem {inner code frame : List Token} (h : Framed inner code frame)
    (hgap : .row [] ∈ frame) :
    .row [] ∈ inner ∨ .row [] ∈ code := by
  obtain ⟨round, braces, hround, hbraces, rfl⟩ := h
  exact (mem_append.1 hgap).imp hround.gap_mem hbraces.gap_mem

/-- A gap is no parameter. -/
theorem Grammar.Parameters.gap_not_mem {names : List String} (h : Parameters ts names) :
    .row [] ∉ ts := by
  induction h with
  | nil => exact not_mem_nil
  | name _ ih => simpa using ih
  | comma _ hcomma _ ih => simpa [ne_gap_of_reads hcomma] using ih

/-- A gap is in one of the parts, since what stands between them are commas. -/
theorem TopLevel.Separated.gap_mem {parts : List (List Token)}
    (h : Separated (·.is .comma) parts ts) (hgap : .row [] ∈ ts) :
    ∃ part ∈ parts, .row [] ∈ part := by
  induction h with
  | nil => cases hgap
  | last => exact ⟨_, mem_singleton_self _, hgap⟩
  | cons _ ht _ ih =>
    rcases mem_append.1 hgap with hgap | hgap
    · exact ⟨_, mem_cons_self, hgap⟩
    · obtain ⟨part, hpart, hgap⟩ := ih ((mem_cons.1 hgap).resolve_left (ne_gap_of_is ht))
      exact ⟨part, mem_cons_of_mem _ hpart, hgap⟩

theorem Stmt.anyGapped_of_separated {α : Type} {parts : List α} {written : α → List Token}
    (stmt : α → Stmt) (h : Separated (·.is .comma) (parts.map written) ts)
    (hkept : ∀ a ∈ parts, .row [] ∈ written a → (stmt a).gapped = true) (hgap : .row [] ∈ ts) :
    Stmt.anyGapped (parts.map stmt) = true := by
  obtain ⟨part, hpart, hgap⟩ := h.gap_mem hgap
  obtain ⟨a, ha, rfl⟩ := mem_map.1 hpart
  exact Stmt.anyGapped_iff.2 ⟨_, mem_map_of_mem ha, hkept a ha hgap⟩

/-! ## The induction -/

/-- What is made of a list of tokens has a gap if the list has one. -/
def Grammar.Phrase.Keeps : Phrase → Prop
  | .expression ts e => .row [] ∈ ts → Token.anyGapped e = true
  | .assignment ts target value | .shorthand ts target value | .step ts target value =>
    .row [] ∈ ts → Token.anyGapped target = true ∨ Token.anyGapped value = true
  | .block ts p => .row [] ∈ ts → Stmt.anyGapped p = true

attribute [local simp] Phrase.Keeps Token.gapped Function.gapped Stmt.gapped Token.anyGapped
Stmt.anyGapped armsGapped
  Token.anyGapped_append Stmt.anyGapped_append armsGapped_append

theorem Grammar.Derives.keeps {f : Phrase} (h : Derives f) : f.Keeps := by
  induction h with
  | nil | empty => exact fun h => absurd h not_mem_nil
  | set _ ih | change _ _ ih => exact ih
  | @token t _ _ _ _ ih =>
    rintro (_ | ⟨_, hgap⟩)
    · rfl
    · simp [ih hgap]
  | function hframe hparams _ _ _ ihbody ih =>
    have := hframe.gap_mem
    have := hparams.gap_not_mem
    simp at *
    grind
  | assignment ht _ _ _ _ ihtarget ihvalue =>
    simp [ne_gap_of_reads ht] at *
    grind
  | plus ht _ _ ih | minus ht _ _ _ ih =>
    simp [ne_gap_of_reads ht] at *
    grind
  | mark _ ih | broken _ ih => simpa using ih
  | declared _ _ _ hparts _ _ ih ihvalue =>
    have := anyGapped_of_separated Declarator.stmt hparts
      fun d hd hgap => ihvalue d hd (by simpa [Declarator.tokens] using hgap)
    simp at *
    grind
  | ladder _ hframe _ _ _ _ ih ihcondition ihbody | loop _ hframe _ _ _ _ ih ihcondition ihbody =>
    have := hframe.gap_mem
    simp at *
    grind
  | elseIf _ ht hframe _ _ _ _ ih ihcondition ihbody =>
    have := hframe.gap_mem
    simp [ne_gap_of_reads ht] at *
    grind
  | otherwise _ hbraces _ ih ihbody =>
    have := hbraces.gap_mem
    simp at *
    grind
  | counted _ hframe h₁ h₂ _ _ _ hbefore hafter _ _ _ ih ihstep ihcondition ihbody =>
    have := hframe.gap_mem
    have := anyGapped_of_separated Step.stmt hbefore
      fun s hs hgap => by simpa [Step.stmt] using ihstep s (mem_append_left _ hs) hgap
    have := anyGapped_of_separated Step.stmt hafter
      fun s hs hgap => by simpa [Step.stmt] using ihstep s (mem_append_right _ hs) hgap
    simp [ne_gap_of_reads h₁, ne_gap_of_reads h₂] at *
    grind
  | returned _ _ _ ih ihinner | assign _ _ _ _ ih ihinner | assignShort _ _ _ _ _ ih ihinner
  | exp _ _ _ _ _ _ _ ih ihinner =>
    simp at *
    grind

/-- **A program read from tokens with a gap has a gap.** -/
theorem gapped_parse (h : parse ts = .ok p) (hgap : .row [] ∈ ts) : Stmt.anyGapped p = true :=
  (Parser.derives_block h).keeps hgap

end LittleJ
