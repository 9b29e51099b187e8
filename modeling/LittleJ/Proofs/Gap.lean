import LittleJ.Program.Parser
import LittleJ.Proofs.Brackets

/-!
# Code with a gap

To say that two programs are the same but for one string, take the string out: what is left is code
with a *gap*, and each of the two programs is that code with the gap filled. The gap is a token that
no program holds, the empty row.

A gap and a string in its place look the same to everything that compares symbols, and to everything
that compares texts too, unless the string has one of the texts that are looked for. A string
without such a text is *plain*. Searches for brackets, commas and semicolons then find the same
positions before and after a gap is filled.
-/

namespace LittleJ

open List

/-! ## Filling gaps -/

mutual

/-- A token with its gaps filled: the empty row becomes the string `w`, in functions too. -/
def Token.fill (w : String) : Token → Token
  | .row [] => .val (.str w)
  | .func f => .func (f.fill w)
  | t => t

def Function.fill (w : String) : Function → Function
  | .mk params body source => .mk params (Stmt.fillAll w body) (Token.fillAll w source)

/-- A statement with its gaps filled. -/
def Stmt.fill (w : String) : Stmt → Stmt
  | .init name e => .init name (Token.fillAll w e)
  | .assign target e => .assign (Token.fillAll w target) (Token.fillAll w e)
  | .ladder arms => .ladder (Stmt.fillArms w arms)
  | .loop condition code => .loop (Token.fillAll w condition) (Stmt.fillAll w code)
  | .ret e => .ret (Token.fillAll w e)
  | .brk => .brk
  | .exp e => .exp (Token.fillAll w e)

def Token.fillAll (w : String) : List Token → List Token
  | [] => []
  | t :: ts => t.fill w :: Token.fillAll w ts

def Stmt.fillAll (w : String) : List Stmt → List Stmt
  | [] => []
  | s :: ss => s.fill w :: Stmt.fillAll w ss

def Stmt.fillArms (w : String) : List (List Token × List Stmt) → List (List Token × List Stmt)
  | [] => []
  | (condition, code) :: arms =>
    (Token.fillAll w condition, Stmt.fillAll w code) :: Stmt.fillArms w arms

end

@[simp] theorem Token.fillAll_eq (w : String) (ts : List Token) :
    Token.fillAll w ts = ts.map (Token.fill w) := by
  induction ts with
  | nil => rw [Token.fillAll, map_nil]
  | cons t ts ih => rw [Token.fillAll, ih, map_cons]

@[simp] theorem Stmt.fillAll_eq (w : String) (p : List Stmt) :
    Stmt.fillAll w p = p.map (Stmt.fill w) := by
  induction p with
  | nil => rw [Stmt.fillAll, map_nil]
  | cons s ss ih => rw [Stmt.fillAll, ih, map_cons]

/-- An arm of a ladder with its gaps filled. -/
def Stmt.fillArm (w : String) (arm : Expr × Program) : Expr × Program :=
  (arm.1.map (Token.fill w), arm.2.map (Stmt.fill w))

@[simp] theorem Stmt.fillArms_eq (w : String) (arms : List (List Token × List Stmt)) :
    Stmt.fillArms w arms = arms.map (Stmt.fillArm w) := by
  induction arms with
  | nil => rw [Stmt.fillArms, map_nil]
  | cons arm arms ih =>
    obtain ⟨condition, code⟩ := arm
    rw [Stmt.fillArms, ih, map_cons, Token.fillAll_eq, Stmt.fillAll_eq]
    rfl

/-! ## Plain strings -/

/-- The texts that reading a program looks for. -/
def searchedTexts : List String :=
  ["(", ")", "[", "]", "\x7b", "\x7d", ",", "=", "+=", "-=", ";", "if"]

/-- A string that cannot be taken for a symbol. -/
def Plain (w : String) : Prop :=
  w ∉ searchedTexts

instance (w : String) : Decidable (Plain w) :=
  inferInstanceAs (Decidable (w ∉ searchedTexts))

variable {w : String}

namespace Token

theorem is_fill (t : Token) (y : Symbol) : (t.fill w).is y = t.is y := by
  cases t with
  | row ts => cases ts <;> simp [fill, is]
  | _ => simp [fill, is]

theorem isName_fill (t : Token) : (t.fill w).isName = t.isName := by
  cases t with
  | row ts => cases ts <;> simp [fill, isName]
  | _ => simp [fill, isName]

theorem fill_eq_name {t : Token} {s : String} (h : t.fill w = .name s) : t = .name s := by
  cases t with
  | name n => exact h
  | row ts => cases ts <;> simp [fill] at h
  | _ => simp [fill] at h

theorem fill_eq_sym {t : Token} {y : Symbol} (h : t.fill w = .sym y) : t = .sym y := by
  cases t with
  | sym z => exact h
  | row ts => cases ts <;> simp [fill] at h
  | _ => simp [fill] at h

/-- What is no gap keeps its text. -/
theorem reads_fill_of_ne {t : Token} (h : t ≠ .row []) (s : String) :
    (t.fill w).reads s = t.reads s := by
  cases t with
  | row ts =>
    cases ts with
    | nil => exact absurd rfl h
    | cons t ts => simp [fill]
  | func f => simp [fill, reads]
  | _ => simp [fill]

/-- A plain string in the place of a gap has none of the texts that are looked for. -/
theorem reads_fill (hw : Plain w) {s : String} (hs : s ∈ searchedTexts) (t : Token) :
    (t.fill w).reads s = t.reads s := by
  by_cases h : t = .row []
  · have hne : w ≠ s := by rintro rfl; exact hw hs
    subst h
    simp [fill, reads, hne]
  · exact reads_fill_of_ne h s

end Token

namespace Bracket

theorem opens_fill (hw : Plain w) (t : Token) : opens (t.fill w) = opens t := by
  unfold opens
  rw [Token.reads_fill hw (by decide), Token.reads_fill hw (by decide),
    Token.reads_fill hw (by decide)]

theorem balanceFrom_fill (hw : Plain w) {left right : String} (hl : left ∈ searchedTexts)
    (hr : right ∈ searchedTexts) (depth : Nat) (ts : List Token) :
    balanceFrom left right depth (ts.map (Token.fill w)) = balanceFrom left right depth ts := by
  induction ts generalizing depth with
  | nil => rfl
  | cons t ts ih =>
    rw [map_cons, balanceFrom, balanceFrom, Token.reads_fill hw hl, Token.reads_fill hw hr]
    simp only [ih]

theorem closerOf?_mem {s r : String} (h : closerOf? s = some r) :
    s ∈ searchedTexts ∧ r ∈ searchedTexts := by
  unfold closerOf? at h
  split at h <;> cases h <;> decide

theorem openerOf?_mem {s r : String} (h : openerOf? s = some r) :
    s ∈ searchedTexts ∧ r ∈ searchedTexts := by
  unfold openerOf? at h
  split at h <;> cases h <;> decide

theorem pair?_mem {partnerOf : String → Option String}
    (hmem : ∀ {s r}, partnerOf s = some r → s ∈ searchedTexts ∧ r ∈ searchedTexts) {t : Token}
    {p : String × String} (h : pair? partnerOf t = some p) :
    p.1 ∈ searchedTexts ∧ p.2 ∈ searchedTexts := by
  obtain ⟨s, _, hs⟩ := Option.bind_eq_some_iff.mp h
  obtain ⟨r, hr, rfl⟩ := Option.map_eq_some_iff.mp hs
  exact hmem hr

/-- A plain string is no bracket, and neither is a gap. -/
theorem pair?_fill (hw : Plain w) {partnerOf : String → Option String}
    (hmem : ∀ {s r}, partnerOf s = some r → s ∈ searchedTexts ∧ r ∈ searchedTexts) (t : Token) :
    pair? partnerOf (t.fill w) = pair? partnerOf t := by
  cases t with
  | row ts =>
    cases ts with
    | nil =>
      have hnone : partnerOf w = none := by
        cases h : partnerOf w with
        | none => rfl
        | some r => exact absurd (hmem h).1 hw
      simp [pair?, Token.fill, Token.text?, hnone]
    | cons t ts => simp [Token.fill]
  | func f => simp [pair?, Token.fill, Token.text?]
  | _ => simp [Token.fill]

theorem partner?_fill (hw : Plain w) (ts : List Token) :
    partner? (ts.map (Token.fill w)) = partner? ts := by
  cases ts with
  | nil => rfl
  | cons t ts =>
    rw [map_cons, partner?_cons, partner?_cons, pair?_fill hw closerOf?_mem]
    refine Option.bind_congr fun p hp => ?_
    obtain ⟨hl, hr⟩ := pair?_mem closerOf?_mem hp
    exact balanceFrom_fill hw hl hr 0 (t :: ts)

theorem opener?_fill (hw : Plain w) (ts : List Token) :
    opener? (ts.map (Token.fill w)) = opener? ts := by
  rw [opener?_eq, opener?_eq, length_map, getLast?_map, ← map_reverse]
  congr 1
  cases ts.getLast? with
  | none => rfl
  | some t =>
    simp only [Option.map_some, Option.bind_some, pair?_fill hw openerOf?_mem]
    refine Option.bind_congr fun p hp => ?_
    obtain ⟨hl, hr⟩ := pair?_mem openerOf?_mem hp
    exact balanceFrom_fill hw hl hr 0 ts.reverse

end Bracket

/-! ## Results before and after filling -/

/-- Two computations come to results of which the second is `f` of the first, or both fail. How they
fail is not compared: the report of a failure shows the string. -/
inductive Alike {ε ε' α β : Type} (f : α → β) : Except ε α → Except ε' β → Prop where
  | ok (a : α) : Alike f (.ok a) (.ok (f a))
  | error (e : ε) (e' : ε') : Alike f (.error e) (.error e')

namespace Alike

variable {ε ε' α β γ δ : Type} {f : α → β} {g : γ → δ}

theorem of_eq {a : α} {b : β} (h : b = f a) : Alike f (.ok a : Except ε α) (.ok b : Except ε' β) :=
  h ▸ .ok a

theorem bind {x : Except ε α} {y : Except ε' β} (h : Alike f x y) {k : α → Except ε γ}
    {k' : β → Except ε' δ} (hk : ∀ a, x = .ok a → Alike g (k a) (k' (f a))) :
    Alike g (x >>= k) (y >>= k') := by
  cases h with
  | ok a => exact hk a rfl
  | error e e' => exact .error e e'

theorem ite {p : Prop} [Decidable p] {x x' : Except ε α} {y y' : Except ε' β}
    (ht : p → Alike f x y) (hf : ¬p → Alike f x' y') :
    Alike f (if p then x else x') (if p then y else y') := by
  by_cases h : p
  · rw [if_pos h, if_pos h]; exact ht h
  · rw [if_neg h, if_neg h]; exact hf h

/-- Two computations with the same result. -/
theorem same {x : Except ε α} {y : Except ε' α} (h : Alike id x y) {k : α → Except ε γ}
    {k' : α → Except ε' δ} (hk : ∀ a, x = .ok a → Alike g (k a) (k' a)) :
    Alike g (x >>= k) (y >>= k') :=
  h.bind hk

theorem refl (x : Except ε α) : Alike id x x := by
  cases x with
  | ok a => exact .ok a
  | error e => exact .error e e

theorem isOk {x : Except ε α} {y : Except ε' β} (h : Alike f x y) {a : α} (hx : x = .ok a) :
    y = .ok (f a) := by
  subst hx
  cases h
  rfl

end Alike

namespace TopLevel

variable {p : Token → Bool}

theorem indexFrom_fill (hw : Plain w) (hp : ∀ t, p (t.fill w) = p t) (skip : Nat)
    (ts : List Token) :
    Alike id (indexFrom p skip ts) (indexFrom p skip (ts.map (Token.fill w))) := by
  induction ts generalizing skip with
  | nil => rw [map_nil, indexFrom]; exact .ok none
  | cons t ts ih =>
    have hnext : ∀ k, Alike id (do return (← indexFrom p k ts).map (· + 1))
        (do return (← indexFrom p k (ts.map (Token.fill w))).map (· + 1)) :=
      fun k => (ih k).same fun i _ => .ok (i.map (· + 1))
    rw [map_cons]
    cases skip with
    | succ skip => rw [indexFrom, indexFrom]; exact hnext skip
    | zero =>
      have hpartner := Bracket.partner?_fill hw (t :: ts)
      rw [map_cons] at hpartner
      rw [indexFrom, indexFrom, Bracket.opens_fill hw, hp, hpartner]
      refine Alike.ite (fun _ => ?_) fun _ => Alike.ite (fun _ => .ok (some 0)) fun _ => hnext 0
      cases Bracket.partner? (t :: ts) with
      | none => exact .error _ _
      | some k => exact hnext (k - 1)

theorem index?_fill (hw : Plain w) (hp : ∀ t, p (t.fill w) = p t) (ts : List Token) :
    Alike id (index? p ts) (index? p (ts.map (Token.fill w))) :=
  indexFrom_fill hw hp 0 ts

theorem splitFrom_fill (hw : Plain w) (hp : ∀ t, p (t.fill w) = p t)
    (part : List Token) (skip : Nat) (ts : List Token) :
    Alike (map (map (Token.fill w))) (splitFrom p part skip ts)
      (splitFrom p (part.map (Token.fill w)) skip (ts.map (Token.fill w))) := by
  induction ts generalizing skip part with
  | nil =>
    rw [map_nil, splitFrom, splitFrom, isEmpty_map, ← map_reverse]
    cases part.isEmpty with
    | true => exact .ok []
    | false => exact .ok [part.reverse]
  | cons t ts ih =>
    rw [map_cons]
    cases skip with
    | succ skip => rw [splitFrom, splitFrom]; exact ih (t :: part) skip
    | zero =>
      have hpartner := Bracket.partner?_fill hw (t :: ts)
      rw [map_cons] at hpartner
      rw [splitFrom, splitFrom, Bracket.opens_fill hw, hp, hpartner]
      refine Alike.ite (fun _ => ?_) fun _ => Alike.ite (fun _ => ?_) fun _ => ih (t :: part) 0
      · cases Bracket.partner? (t :: ts) with
        | none => exact .error _ _
        | some k => exact ih (t :: part) (k - 1)
      · refine (ih [] 0).bind fun parts _ => ?_
        rw [← map_reverse]
        exact .ok (part.reverse :: parts)

theorem split_fill (hw : Plain w) (hp : ∀ t, p (t.fill w) = p t) (ts : List Token) :
    Alike (map (map (Token.fill w))) (split p ts) (split p (ts.map (Token.fill w))) :=
  splitFrom_fill hw hp [] 0 ts

theorem isParted_fill (hw : Plain w) (hp : ∀ t, p (t.fill w) = p t) (ts : List Token) :
    Alike id (isParted p ts) (isParted p (ts.map (Token.fill w))) := by
  refine (split_fill hw hp ts).bind fun parts _ => ?_
  rw [length_map]
  exact .ok _

end TopLevel

end LittleJ
