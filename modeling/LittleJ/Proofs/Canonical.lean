import LittleJ.Proofs.Nesting

/-!
# The canonical text of a program

Every program has a canonical text: one `var` statement with all variables of a scope, `else if` for
the arms of a ladder, function literals in full. A program is *well formed* if it can have been read
from its canonical text: variables are made at the start of a scope only, blocks and expressions are
not empty, the brackets of expressions are properly nested, and no name, string or symbol in an
expression could be taken for a part of a statement.
-/

namespace LittleJ

open LittleJ.Bracket Stmt List

variable {t : Token} {ts e : List Token} {p : Token → Bool}

/-! ## Writing -/

/-- Something in parentheses and something in braces. -/
def framed (inner code : List Token) : List Token :=
  .sym .lparen :: (inner ++ .sym .rparen :: .sym .lbrace :: (code ++ [.sym .rbrace]))

/-- The parameters of a function literal, with commas between them. -/
def writtenParams (params : List String) : List Token :=
  (params.map Token.name).intersperse (.sym .comma)

/-- Whether a statement makes a variable. -/
def Stmt.isInit : Stmt → Bool
  | .init _ _ => true
  | _ => false

/-- What stands before a statement: variables are made in one `var` statement, which is `started` or
not, with commas between them. -/
def Stmt.lead (started : Bool) (s : Stmt) : List Token :=
  match started, s.isInit with
  | false, true => [.sym .kwVar]
  | true, true => [.sym .comma]
  | true, false => [.sym .semi]
  | false, false => []

mutual

/-- The canonical text of a token of an expression. -/
def Token.written : Token → List Token
  | .func f => f.written
  | t => [t]

def Function.written : Function → List Token
  | .mk params body _ =>
    .sym .kwFunction :: framed (writtenParams params) (Stmt.writtenFrom false body)

/-- The canonical text of a statement; for a variable, without `var` and semicolon. -/
def Stmt.written : Stmt → List Token
  | .init name e => .name name :: .sym .assign :: Token.writtenAll e
  | .assign target e =>
    Token.writtenAll target ++ .sym .assign :: (Token.writtenAll e ++ [.sym .semi])
  | .ladder arms => Stmt.writtenArms [.sym .kwIf] arms
  | .loop condition code =>
    .sym .kwWhile :: framed (Token.writtenAll condition) (Stmt.writtenFrom false code)
  | .ret e => .sym .kwReturn :: (Token.writtenAll e ++ [.sym .semi])
  | .brk => [.sym .kwBreak, .sym .semi]
  | .exp e => Token.writtenAll e ++ [.sym .semi]

def Token.writtenAll : List Token → List Token
  | [] => []
  | t :: ts => t.written ++ Token.writtenAll ts

/-- The canonical text of statements, a `var` statement being `started` or not. -/
def Stmt.writtenFrom (started : Bool) : List Stmt → List Token
  | [] => if started then [.sym .semi] else []
  | s :: rest => s.lead started ++ (s.written ++ Stmt.writtenFrom s.isInit rest)

/-- The arms of a ladder. The first one starts with `word`, the others with `else if`. -/
def Stmt.writtenArms (word : List Token) : List (List Token × List Stmt) → List Token
  | [] => []
  | (condition, code) :: arms =>
    word ++ (framed (Token.writtenAll condition) (Stmt.writtenFrom false code) ++
      Stmt.writtenArms [.sym .kwElse, .sym .kwIf] arms)

end

/-- The canonical text of a program. -/
def Program.written (p : Program) : List Token :=
  writtenFrom false p

/-! ## Well-formed programs -/

/-- Whether a text is not the text of a symbol. -/
def isFree (s : String) : Bool :=
  Symbol.all.all fun y => y.text != s

/-- Whether a symbol may stand in an expression: it is no keyword and parts no statements. -/
def Symbol.isInner : Symbol → Bool
  | .varMark | .kwVar | .kwIf | .kwElse | .kwWhile | .kwFor | .kwBreak | .kwFunction | .kwReturn
  | .semi | .assign | .plusAssign | .minusAssign => false
  | _ => true

/-- Whether a token other than a function may stand in an expression. -/
def Token.isWord : Token → Bool
  | .name s => isFree s
  | .sym y => y.isInner
  | .val (.str s) => isFree s
  | .val _ => true
  | _ => false

/-- What may stand before `=`: a name with subscripts, without functions. -/
inductive IsTarget : List Token → Prop where
  | name {s : String} : isFree s = true → IsTarget [.name s]
  | subscript {ts e : List Token} : IsTarget ts → e ≠ [] → Nested e → e.all Token.isWord = true →
      IsTarget (ts ++ .sym .lbracket :: (e ++ [.sym .rbracket]))

/-- An expression: tokens that are `formed`, clear of `p`. -/
structure IsExpression (p : Token → Bool) (e : List Token) (formed : Prop) : Prop where
  nonempty : e ≠ []
  clear : Clear p e
  formed : formed

/-- A block: statements that are `formed` and make no variables. -/
structure IsBlock (code : List Stmt) (formed : Prop) : Prop where
  nonempty : code ≠ []
  noInits : code.all (!·.isInit) = true
  formed : formed

/-- Whether variables are made at the start only. -/
def Stmt.initsFirst : List Stmt → Bool
  | [] => true
  | s :: rest => if s.isInit then initsFirst rest else rest.all (!·.isInit)

mutual

/-- A token may stand in an expression. -/
def Token.WellFormed : Token → Prop
  | .func f => f.WellFormed
  | t => t.isWord = true

/-- A function literal has been read from the canonical text of its body. -/
def Function.WellFormed : Function → Prop
  | .mk params body source =>
    params.all isFree = true ∧ body ≠ [] ∧ Stmt.initsFirst body = true ∧ Stmt.AllWellFormed body ∧
      source = Stmt.writtenFrom false body

/-- A statement can have been read from its canonical text. -/
def Stmt.WellFormed : Stmt → Prop
  | .init name e => isFree name = true ∧ IsExpression (·.is .comma) e (Token.AllWellFormed e)
  | .assign target e => IsTarget target ∧ IsExpression (fun _ => false) e (Token.AllWellFormed e)
  | .ladder arms => arms ≠ [] ∧ Stmt.ArmsWellFormed arms
  | .loop condition code =>
    IsExpression (fun _ => false) condition (Token.AllWellFormed condition) ∧
    IsBlock code (Stmt.AllWellFormed code)
  | .ret e => IsExpression (fun _ => false) e (Token.AllWellFormed e)
  | .brk => True
  | .exp e => IsExpression (fun _ => false) e (Token.AllWellFormed e) ∧
      ∀ f, e.head? ≠ some (.func f)

def Token.AllWellFormed : List Token → Prop
  | [] => True
  | t :: ts => t.WellFormed ∧ Token.AllWellFormed ts

def Stmt.AllWellFormed : List Stmt → Prop
  | [] => True
  | s :: rest => s.WellFormed ∧ Stmt.AllWellFormed rest

def Stmt.ArmsWellFormed : List (List Token × List Stmt) → Prop
  | [] => True
  | (condition, code) :: arms =>
    (IsExpression (fun _ => false) condition (Token.AllWellFormed condition) ∧
      IsBlock code (Stmt.AllWellFormed code)) ∧ Stmt.ArmsWellFormed arms

end

/-- A program that can have been read from its canonical text. -/
def Program.WellFormed (p : Program) : Prop :=
  initsFirst p = true ∧ AllWellFormed p

/-! ## Words -/

theorem reads_name_of_isFree {s : String} (h : isFree s = true) (y : Symbol) :
    (Token.name s).reads y.text = false := by
  have hne : y.text ≠ s := bne_iff_ne.mp (List.all_eq_true.mp h y y.mem_all)
  exact beq_false_of_ne hne.symm

theorem isBracket_name {s : String} (h : isFree s = true) : isBracket (.name s) = false := by
  have hround : (Token.name s).reads "(" = false := reads_name_of_isFree h .lparen
  have hsquare : (Token.name s).reads "[" = false := reads_name_of_isFree h .lbracket
  have hcurly : (Token.name s).reads "\x7b" = false := reads_name_of_isFree h .lbrace
  have hround' : (Token.name s).reads ")" = false := reads_name_of_isFree h .rparen
  have hsquare' : (Token.name s).reads "]" = false := reads_name_of_isFree h .rbracket
  have hcurly' : (Token.name s).reads "\x7d" = false := reads_name_of_isFree h .rbrace
  simp only [isBracket, opens, hround, hsquare, hcurly, hround', hsquare', hcurly', Bool.or_self]

/-- A word is none of the symbols that are not for expressions. -/
theorem Token.is_of_isWord (h : t.isWord = true) {y : Symbol} (hy : y.isInner = false) :
    t.is y = false := by
  cases t with
  | sym z =>
    have hne : z ≠ y := by
      rintro rfl
      rw [Token.isWord, hy] at h
      cases h
    simp [Token.is, hne]
  | _ => rfl

theorem Token.reads_assign_of_isWord (h : t.isWord = true) : t.reads "=" = false := by
  cases t with
  | name s => exact reads_name_of_isFree h .assign
  | sym y => cases y <;> simp [Token.isWord, Symbol.isInner] at h <;> decide
  | val v =>
    cases v with
    | str s => exact reads_name_of_isFree h .assign
    | _ => rfl
  | func f => cases h
  | row ts => cases h

theorem Token.written_of_isWord (h : t.isWord = true) : t.written = [t] := by
  cases t with
  | func f => cases h
  | _ => rw [Token.written]; simp

@[simp] theorem Token.writtenAll_eq (ts : List Token) :
    Token.writtenAll ts = ts.flatMap Token.written := by
  induction ts with
  | nil => rw [Token.writtenAll, flatMap_nil]
  | cons t ts ih => rw [Token.writtenAll, ih, flatMap_cons]

theorem Token.flatMap_written_of_isWord (h : ts.all Token.isWord = true) :
    ts.flatMap Token.written = ts := by
  induction ts with
  | nil => rfl
  | cons t ts ih =>
    simp only [all_cons, Bool.and_eq_true] at h
    rw [flatMap_cons, Token.written_of_isWord h.1, ih h.2]
    rfl

@[simp] theorem Token.allWellFormed_iff {ts : List Token} :
    Token.AllWellFormed ts ↔ ∀ t ∈ ts, t.WellFormed := by
  induction ts with
  | nil => simp [Token.AllWellFormed]
  | cons t ts ih => rw [Token.AllWellFormed, ih, forall_mem_cons]

@[simp] theorem Stmt.allWellFormed_iff {p : List Stmt} :
    AllWellFormed p ↔ ∀ s ∈ p, s.WellFormed := by
  induction p with
  | nil => simp [AllWellFormed]
  | cons s rest ih => rw [AllWellFormed, ih, forall_mem_cons]

theorem Token.WellFormed.cases (h : t.WellFormed) : t.isWord = true ∨ ∃ f, t = .func f ∧
    f.WellFormed := by
  cases t with
  | func f =>
    rw [Token.WellFormed] at h
    exact .inr ⟨f, rfl, h⟩
  | _ =>
    rw [Token.WellFormed] at h
    · exact .inl h
    · simp

theorem Token.wellFormed_of_isWord (h : t.isWord = true) : t.WellFormed := by
  cases t with
  | func f => cases h
  | _ =>
    rw [Token.WellFormed]
    · exact h
    · simp

theorem Token.allWellFormed_of_isWord (h : ts.all Token.isWord = true) : Token.AllWellFormed ts :=
  Token.allWellFormed_iff.mpr fun t ht => Token.wellFormed_of_isWord (List.all_eq_true.mp h t ht)

theorem IsExpression.of_isWord (hne : e ≠ []) (hclear : Clear p e)
    (hwords : e.all Token.isWord = true) :
    IsExpression p e (Token.AllWellFormed e) :=
  ⟨hne, hclear, Token.allWellFormed_of_isWord hwords⟩

theorem Stmt.written_ne_nil {s : Stmt} (h : s.WellFormed) : s.written ≠ [] := by
  cases s with
  | ladder arms =>
    rw [Stmt.WellFormed] at h
    obtain ⟨arm, arms, rfl⟩ := exists_cons_of_ne_nil h.1
    obtain ⟨condition, code⟩ := arm
    rw [Stmt.written, Stmt.writtenArms]
    simp
  | _ => simp [Stmt.written]

/-! ## Canonical texts are nested -/

theorem clear_framed {inner code : List Token} (hinner : Nested inner) (hcode : Nested code) :
    Clear p (framed inner code) :=
  .pair .round hinner (.wrap .curly hcode)

theorem nested_writtenParams {params : List String} (h : params.all isFree = true) :
    Nested (writtenParams params) := by
  unfold writtenParams
  induction params with
  | nil => exact .nil
  | cons s params ih =>
    simp only [all_cons, Bool.and_eq_true] at h
    cases params with
    | nil => exact .cons (isBracket_name h.1) rfl .nil
    | cons s' params =>
      exact .cons (isBracket_name h.1) rfl (.cons (by decide) rfl (ih h.2))

/-- The text of a clear expression is clear, if the texts of its functions are. -/
theorem Bracket.Clear.flatMap_written (h : Clear p e) (hp : p (.sym .kwFunction) = false)
    (hf : ∀ f, .func f ∈ e → ∀ q : Token → Bool, q (.sym .kwFunction) = false → Clear q f.written) :
    Clear p (e.flatMap Token.written) := by
  induction h with
  | nil => exact .nil
  | @cons p t ts ht hpt _ ih =>
    rw [flatMap_cons]
    -- a function takes the place of its keyword at the top level, everything else stands for itself
    refine Clear.append ?_ (ih hp fun f hmem => hf f (mem_cons_of_mem _ hmem))
    cases t with
    | func f =>
      rw [Token.written]
      exact hf f (by simp) p hp
    | _ =>
      rw [Token.written]
      · exact .cons ht hpt .nil
      · simp
  | @pair p left right inner ts hpair _ _ ihinner ih =>
    have hbracket : ∀ y, (Token.sym y).written = [.sym y] := by
      intro y
      rw [Token.written]
      simp
    rw [flatMap_cons, flatMap_append, flatMap_cons, hbracket, hbracket]
    exact .pair hpair (ihinner rfl fun f hmem => hf f (by simp [hmem]))
      (ih hp fun f hmem => hf f (by simp [hmem]))

theorem IsTarget.isWord (h : IsTarget ts) : ts.all Token.isWord = true := by
  induction h with
  | name hs => simp [Token.isWord, hs]
  | subscript _ _ _ he ih =>
    simp only [all_append, all_cons, ih, he, Bool.true_and]
    decide

theorem IsTarget.nested (h : IsTarget ts) : Nested ts := by
  induction h with
  | name hs => exact .cons (isBracket_name hs) rfl .nil
  | subscript _ _ he _ ih => exact ih.append (.wrap .square he)

theorem IsTarget.head (h : IsTarget ts) : ∃ s rest, ts = .name s :: rest := by
  induction h with
  | @name s _ => exact ⟨s, [], rfl⟩
  | subscript _ _ _ _ ih =>
    obtain ⟨s, rest, rfl⟩ := ih
    exact ⟨s, _, cons_append⟩

theorem nested_lead (started : Bool) (s : Stmt) : Nested (s.lead started) := by
  unfold lead
  split
  · exact .cons (by decide) rfl .nil
  · exact .cons (by decide) rfl .nil
  · exact .cons (by decide) rfl .nil
  · exact .nil

theorem nested_semi (h : Nested ts) : Nested (ts ++ [Token.sym .semi]) :=
  h.append (.cons (by decide) rfl .nil)

mutual

theorem Function.clear_written : (f : Function) → f.WellFormed → (q : Token → Bool) →
    q (.sym .kwFunction) = false → Clear q f.written
  | .mk params body source, h, q, hq => by
      rw [Function.WellFormed] at h
      rw [Function.written]
      exact .cons (by decide) hq (clear_framed (nested_writtenParams h.1)
        (Stmt.nested_writtenFrom body h.2.2.2.1 false))

theorem Token.clear_written : (t : Token) → t.WellFormed → ∀ f, .func f = t →
    ∀ q : Token → Bool, q (.sym .kwFunction) = false → Clear q f.written
  | .func g, h, f, heq => by
      rw [Token.WellFormed] at h
      have hg := Function.clear_written g h
      obtain rfl : f = g := by simpa using heq
      exact hg
  | .name _, _, _, heq => nomatch heq
  | .sym _, _, _, heq => nomatch heq
  | .val _, _, _, heq => nomatch heq
  | .row _, _, _, heq => nomatch heq

theorem Token.clear_written_of_mem : (e : List Token) → Token.AllWellFormed e → ∀ f, .func f ∈ e →
    ∀ q : Token → Bool, q (.sym .kwFunction) = false → Clear q f.written
  | [], _, _, hmem => absurd hmem (by simp)
  | t :: e, h, f, hmem => by
      rw [Token.AllWellFormed] at h
      rcases List.mem_cons.mp hmem with heq | hmem
      · exact Token.clear_written t h.1 f heq
      · exact Token.clear_written_of_mem e h.2 f hmem

theorem Stmt.nested_written : (s : Stmt) → s.WellFormed → Nested s.written
  | .init name e, h => by
      rw [Stmt.WellFormed] at h
      rw [Stmt.written, Token.writtenAll_eq]
      exact .cons (isBracket_name h.1) rfl (.cons (by decide) rfl
        (h.2.clear.nested.flatMap_written rfl (Token.clear_written_of_mem e h.2.formed)))
  | .assign target e, h => by
      rw [Stmt.WellFormed] at h
      rw [Stmt.written, Token.writtenAll_eq, Token.writtenAll_eq,
        Token.flatMap_written_of_isWord h.1.isWord]
      exact h.1.nested.append (.cons (by decide) rfl (nested_semi
        (h.2.clear.flatMap_written rfl (Token.clear_written_of_mem e h.2.formed))))
  | .ladder arms, h => by
      rw [Stmt.WellFormed] at h
      rw [Stmt.written]
      exact Stmt.nested_writtenArms arms h.2 _ (.cons (by decide) rfl .nil)
  | .loop condition code, h => by
      rw [Stmt.WellFormed] at h
      rw [Stmt.written, Token.writtenAll_eq]
      exact .cons (by decide) rfl (clear_framed
        (h.1.clear.flatMap_written rfl (Token.clear_written_of_mem condition h.1.formed))
        (Stmt.nested_writtenFrom code h.2.formed false))
  | .ret e, h => by
      rw [Stmt.WellFormed] at h
      rw [Stmt.written, Token.writtenAll_eq]
      exact .cons (by decide) rfl (nested_semi
        (h.clear.flatMap_written rfl (Token.clear_written_of_mem e h.formed)))
  | .brk, _ => by
      rw [Stmt.written]
      exact .cons (by decide) rfl (.cons (by decide) rfl .nil)
  | .exp e, h => by
      rw [Stmt.WellFormed] at h
      rw [Stmt.written, Token.writtenAll_eq]
      exact nested_semi
        (h.1.clear.flatMap_written rfl (Token.clear_written_of_mem e h.1.formed))

theorem Stmt.nested_writtenFrom : (p : List Stmt) → Stmt.AllWellFormed p → (started : Bool) →
    Nested (Stmt.writtenFrom started p)
  | [], _, started => by
      rw [Stmt.writtenFrom]
      cases started
      · exact .nil
      · exact .cons (by decide) rfl .nil
  | s :: rest, h, started => by
      rw [Stmt.AllWellFormed] at h
      rw [Stmt.writtenFrom]
      exact (nested_lead started s).append ((Stmt.nested_written s h.1).append
        (Stmt.nested_writtenFrom rest h.2 _))

theorem Stmt.nested_writtenArms : (arms : List (List Token × List Stmt)) →
    Stmt.ArmsWellFormed arms → (word : List Token) → Nested word →
    Nested (Stmt.writtenArms word arms)
  | [], _, _, _ => by
      rw [Stmt.writtenArms]
      exact .nil
  | (condition, code) :: arms, h, word, hword => by
      rw [Stmt.ArmsWellFormed] at h
      rw [Stmt.writtenArms, Token.writtenAll_eq]
      refine hword.append (Clear.append (clear_framed ?_ ?_) ?_)
      · exact h.1.1.clear.flatMap_written rfl (Token.clear_written_of_mem condition h.1.1.formed)
      · exact Stmt.nested_writtenFrom code h.1.2.formed false
      · exact Stmt.nested_writtenArms arms h.2 _
          (.cons (by decide) rfl (.cons (by decide) rfl .nil))

end

/-- The text of an expression is clear of what its tokens are clear of, function literals apart. -/
theorem IsExpression.clear_written (h : IsExpression p e (Token.AllWellFormed e))
    (hp : p (.sym .kwFunction) = false)
    : Clear p (e.flatMap Token.written) :=
  h.clear.flatMap_written hp (Token.clear_written_of_mem e h.formed)

/-- The text of an expression is clear of the symbols that part statements. -/
theorem IsExpression.clear_is_written (h : IsExpression p e (Token.AllWellFormed e)) {y : Symbol}
    (hy : y.isInner = false) (hne : y ≠ .kwFunction) :
    Clear (·.is y) (e.flatMap Token.written) := by
  have hclear : Clear (·.is y) e := by
    refine h.clear.of_forall fun t ht => ?_
    rcases (Token.allWellFormed_iff.mp h.formed t ht).cases with hword | ⟨f, rfl, _⟩
    · exact Token.is_of_isWord hword hy
    · rfl
  have hkw : (Token.sym .kwFunction).is y = false := by simpa [Token.is] using hne.symm
  exact hclear.flatMap_written hkw (Token.clear_written_of_mem e h.formed)

theorem IsExpression.written_ne_nil {formed : Prop} (h : IsExpression p e formed) :
    e.flatMap Token.written ≠ [] := by
  obtain ⟨t, e, rfl⟩ := exists_cons_of_ne_nil h.nonempty
  rw [flatMap_cons]
  cases t with
  | func f =>
    obtain ⟨params, body, source⟩ := f
    rw [Token.written, Function.written]
    simp
  | _ =>
    rw [Token.written]
    · simp
    · simp

end LittleJ
