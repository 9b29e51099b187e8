import LittleJ.Proofs.Readers
import LittleJ.Proofs.Separators
import Mathlib.Data.List.Chain

/-!
# The grammar of programs

Which lists of tokens are programs, said without searches and positions. A block is made statement
by statement, each one behind those before it. An expression is any list of tokens, except that a
function literal in it must be complete.

Some rules are more generous than one might expect. The block of an `else` may be empty, and an
`else` may follow any ladder, even one that has an `else` without condition already. Commas may
stand anywhere between parameters, or be left out. And a comma may stand behind the last variable of
a `var` statement, as it may behind the last assignment in a clause of a `for` statement. A `var`
statement stands right behind a mark, wherever the mark is.

Here it is shown that whatever is read as a program is one by these rules.
-/

namespace LittleJ

open LittleJ.Bracket LittleJ.TopLevel List Stmt

variable {inner ts all front : List Token} {k : Nat} {p : Program}

namespace Grammar

/-- Parentheses around `inner` and behind them braces around `code`. -/
def Framed (inner code frame : List Token) : Prop :=
  ∃ round braces, Enclosed "(" ")" inner round ∧ Enclosed "\x7b" "\x7d" code braces ∧
  frame = round ++ braces

/-- What stands between the parentheses of a function literal: names, and commas anywhere. -/
inductive Parameters : List Token → List String → Prop where
  | nil : Parameters [] []
  | name {s : String} {ts : List Token} {names : List String} :
      Parameters ts names → Parameters (.name s :: ts) (s :: names)
  | comma {t : Token} {ts : List Token} {names : List String} :
      t.isName = false → t.reads "," = true →
      Parameters ts names → Parameters (t :: ts) names

/-- What can be assigned to: a name with subscripts behind it, whose brackets are matched from the
right. -/
inductive Target : List Token → Prop where
  | name {t : Token} : t.isName = true → Target [t]
  | subscript {o : Token} {ts inner : List Token} : Target ts → o.reads "[" = true →
      Level "]" "[" inner.reverse → Target (ts ++ o :: (inner ++ [Token.sym .rbracket]))

/-- A variable with its value, as it is written and as it is read. -/
structure Declarator where
  name : String
  written : List Token
  value : Expr

namespace Declarator

/-- The tokens of a variable in a `var` statement. -/
def tokens (d : Declarator) : List Token :=
  .name d.name :: .sym .assign :: d.written

/-- The statement that makes the variable. -/
def stmt (d : Declarator) : Stmt :=
  .init d.name d.value

end Declarator

/-- An assignment in a clause of a `for` statement, as it is written and as it is read. -/
structure Step where
  written : List Token
  target : Expr
  value : Expr

/-- The statement that a step is. -/
def Step.stmt (s : Step) : Stmt :=
  .assign s.target s.value

/-- What stands before the semicolon of a statement that no keyword starts. -/
structure Sentence (ts : List Token) : Prop where
  plain : ∃ t rest, ts = t :: rest ∧ Parser.isOpening t = false
  whole : Lacks (·.is .semi) ts

/-- What a list of tokens can be taken for, with what is made of it. -/
inductive Phrase where
  | expression (ts : List Token) (e : Expr)
  | assignment (ts : List Token) (target value : Expr)
  /-- An assignment with `+=` or `-=`. -/
  | shorthand (ts : List Token) (target value : Expr)
  /-- One assignment in a clause of a `for` statement. -/
  | step (ts : List Token) (target value : Expr)
  | block (ts : List Token) (p : Program)

/-- The rules of the grammar. -/
inductive Derives : Phrase → Prop where
  -- expressions
  | nil : Derives (.expression [] [])
  | token {t : Token} {ts : List Token} {e : Expr} : t.is .kwFunction = false →
      Derives (.expression ts e) → Derives (.expression (t :: ts) (t :: e))
  | function {params code frame ts : List Token} {names : List String} {body : Program} {e : Expr} :
      Framed params code frame → Parameters params names → code ≠ [] →
      Derives (.block (.sym .varMark :: code) body) → Derives (.expression ts e) →
      Derives (.expression (.sym .kwFunction :: (frame ++ ts)) (.func (.mk names body code) :: e))
  -- assignments: the first token with the text of the sign parts the two sides
  | assignment {t : Token} {left right : List Token} {target value : Expr} : t.reads "=" = true →
      (∀ u ∈ left, u.reads "=" = false) → Derives (.expression left target) →
      Derives (.expression right value) → Target target →
      Derives (.assignment (left ++ t :: right) target value)
  | plus {t : Token} {left right : List Token} {target value : Expr} : t.reads "+=" = true →
      (∀ u ∈ left, u.reads "+=" = false) →
      Derives (.assignment (left ++ Token.sym .assign :: right) target value) →
      Derives (.shorthand (left ++ t :: right) target (target ++ Token.sym .plus :: value))
  | minus {t : Token} {left right : List Token} {target value : Expr} : t.reads "-=" = true →
      (∀ u ∈ left, u.reads "-=" = false) → (∀ u ∈ left ++ t :: right, u.reads "+=" = false) →
      Derives (.assignment (left ++ Token.sym .assign :: right) target value) →
      Derives (.shorthand (left ++ t :: right) target (target ++ Token.sym .minus :: value))
  | set {ts : List Token} {target value : Expr} : Derives (.assignment ts target value) →
      Derives (.step ts target value)
  | change {ts : List Token} {target value : Expr} : (∀ u ∈ ts, u.reads "=" = false) →
      Derives (.shorthand ts target value) → Derives (.step ts target value)
  -- statements, each behind a block
  | empty : Derives (.block [] [])
  | mark {ts : List Token} {p : Program} :
      Derives (.block ts p) → Derives (.block (ts ++ [Token.sym .varMark]) p)
  | declared {ts inner : List Token} {p : Program} {ds : List Declarator} : Derives (.block ts p) →
      ts.getLast? = some (.sym .varMark) → Lacks (·.is .semi) inner →
      Separated (·.is .comma) (ds.map Declarator.tokens) inner → (∀ d ∈ ds, d.written ≠ []) →
      (∀ d ∈ ds, Derives (.expression d.written d.value)) →
      Derives (.block (ts ++ Token.sym .kwVar :: (inner ++ [Token.sym .semi]))
        (p ++ ds.map Declarator.stmt))
  | ladder {ts inner code frame : List Token} {p body : Program} {condition : Expr} :
      Derives (.block ts p) →
      Framed inner code frame → inner ≠ [] → code ≠ [] → Derives (.expression inner condition) →
      Derives (.block code body) →
      Derives (.block (ts ++ Token.sym .kwIf :: frame) (p ++ [ladder [(condition, body)]]))
  | elseIf {t : Token} {ts inner code frame : List Token} {p body : Program} {condition : Expr}
      {arms : List (Expr × Program)} : Derives (.block ts (p ++ [ladder arms])) →
      t.reads "if" = true →
      Framed inner code frame → inner ≠ [] → code ≠ [] → Derives (.expression inner condition) →
      Derives (.block code body) →
      Derives
      (.block (ts ++ Token.sym .kwElse :: t :: frame) (p ++ [ladder (arms ++ [(condition, body)])]))
  | otherwise {ts code braces : List Token} {p body : Program} {arms : List (Expr × Program)} :
      Derives (.block ts (p ++ [ladder arms])) → Enclosed "\x7b" "\x7d" code braces →
      Derives (.block code body) →
      Derives (.block (ts ++ Token.sym .kwElse :: braces)
        (p ++ [ladder (arms ++ [([.val (.bool true)], body)])]))
  | loop {ts inner code frame : List Token} {p body : Program} {condition : Expr} :
      Derives (.block ts p) →
      Framed inner code frame → inner ≠ [] → code ≠ [] → Derives (.expression inner condition) →
      Derives (.block code body) →
      Derives (.block (ts ++ Token.sym .kwWhile :: frame) (p ++ [loop condition body]))
  | counted {s₁ s₂ : Token} {ts first middle last code frame : List Token} {p body : Program}
      {condition : Expr} {before after : List Step} : Derives (.block ts p) →
      Framed (first ++ s₁ :: (middle ++ s₂ :: last)) code frame → s₁.reads ";" = true →
      s₂.reads ";" = true → (∀ u ∈ first ++ (middle ++ last), u.reads ";" = false) →
      middle ≠ [] → code ≠ [] →
      Separated (·.is .comma) (before.map Step.written) first →
      Separated (·.is .comma) (after.map Step.written) last →
      (∀ s ∈ before ++ after, Derives (.step s.written s.target s.value)) →
      Derives (.expression middle condition) → Derives (.block code body) →
      Derives (.block (ts ++ Token.sym .kwFor :: frame)
        (p ++ (before.map Step.stmt ++ [loop condition (body ++ after.map Step.stmt)])))
  | returned {ts inner : List Token} {p : Program} {e : Expr} :
      Derives (.block ts p) → Lacks (·.is .semi) inner →
      Derives (.expression inner e) →
      Derives (.block (ts ++ Token.sym .kwReturn :: (inner ++ [Token.sym .semi])) (p ++ [ret e]))
  | broken {ts : List Token} {p : Program} : Derives (.block ts p) →
      Derives (.block (ts ++ [Token.sym .kwBreak, .sym .semi]) (p ++ [brk]))
  | assign {ts inner : List Token} {p : Program} {target value : Expr} :
      Derives (.block ts p) → Sentence inner →
      Parted (·.is .assign) inner → Derives (.assignment inner target value) →
      Derives (.block (ts ++ (inner ++ [Token.sym .semi])) (p ++ [assign target value]))
  | assignShort {ts inner : List Token} {p : Program} {target value : Expr} :
      Derives (.block ts p) →
      Sentence inner → ¬Parted (·.is .assign) inner →
      Parted (·.is .plusAssign) inner ∨ Parted (·.is .minusAssign) inner →
      Derives (.shorthand inner target value) →
      Derives (.block (ts ++ (inner ++ [Token.sym .semi])) (p ++ [assign target value]))
  | exp {ts inner : List Token} {p : Program} {e : Expr} : Derives (.block ts p) → Sentence inner →
      ¬Parted (·.is .assign) inner → ¬Parted (·.is .plusAssign) inner →
      ¬Parted (·.is .minusAssign) inner →
      inner.head? ≠ some (.sym .kwFunction) → Derives (.expression inner e) →
      Derives (.block (ts ++ (inner ++ [Token.sym .semi])) (p ++ [exp e]))

/-! ## Neighbours

Whatever is read from a part of a list has the neighbours there that it had, except that the sign of
a shorthand assignment is put in the place of another. -/

/-- A token that may stand next to any other may take the place of any other. -/
theorem isChain_replace {R : Token → Token → Prop} {left right : List Token} {t u : Token}
    (h : (left ++ t :: right).IsChain R) (hleft : ∀ v, R v u) (hright : ∀ v, R u v) :
    (left ++ u :: right).IsChain R := by
  rw [isChain_append, isChain_cons] at h ⊢
  obtain ⟨hfront, ⟨_, hback⟩, _⟩ := h
  refine ⟨hfront, ⟨fun v _ => hright v, hback⟩, ?_⟩
  intro v _ w hw
  cases hw
  exact hleft v

/-! ## Brackets, parameters and targets -/

theorem Framed.isInfix {code frame : List Token} (h : Framed inner code frame) :
    inner <:+: frame ∧ code <:+: frame := by
  obtain ⟨round, braces, hround, hbraces, rfl⟩ := h
  exact ⟨hround.isInfix.trans (infix_append' [] round braces),
    hbraces.isInfix.trans (suffix_append round braces).isInfix⟩

theorem Target.head (h : Target ts) : ∃ t more, ts = t :: more ∧ t.isName = true := by
  induction h with
  | @name t ht => exact ⟨t, [], rfl, ht⟩
  | subscript _ _ _ ih =>
    obtain ⟨t, more, rfl, ht⟩ := ih
    exact ⟨t, _, cons_append, ht⟩

theorem Target.getLast? (h : Target ts) (hlen : ts.length ≠ 1) :
    ts.getLast? = some (.sym .rbracket) := by
  cases h with
  | name _ => exact absurd rfl hlen
  | subscript _ _ _ => rw [← cons_append, ← append_assoc, getLast?_concat]

theorem params?_eq_some_iff {names : List String} :
    Parser.params? ts = some names ↔ Parameters ts names := by
  constructor
  · intro h
    induction ts generalizing names with
    | nil =>
      cases h
      exact .nil
    | cons t ts ih =>
      cases t with
      | name s =>
        simp only [Parser.params?, Option.map_eq_some_iff] at h
        obtain ⟨rest, hrest, rfl⟩ := h
        exact .name (ih hrest)
      | _ =>
        simp only [Parser.params?] at h
        split at h
        · rename_i hcomma
          exact .comma rfl hcomma (ih h)
        · cases h
  · intro h
    induction h with
    | nil => rfl
    | name _ ih => rw [Parser.params?, ih]; rfl
    | @comma t ts names hname hcomma _ ih =>
      cases t with
      | name s => cases hname
      | _ => simp only [Parser.params?, hcomma, ih, if_true]

end Grammar

namespace Parser

open Grammar

variable {block : List Token → Parse Program}

theorem reads_of_startsWith {s : String} (h : startsWith s ts = true) :
    ∃ t rest, ts = t :: rest ∧ t.reads s = true := by
  cases ts with
  | nil => cases h
  | cons t ts => exact ⟨t, ts, rfl, h⟩

/-- A bracket at the start of a list and its partner. -/
theorem enclosed_of_startsWith {left right : String} (hcloser : closerOf? left = some right)
    (hleft : startsWith left ts = true) (h : partner? ts = some k) :
    Enclosed left right (inside k ts) (ts.take (k + 1)) := by
  obtain ⟨t, rest, rfl, ht⟩ := reads_of_startsWith hleft
  exact enclosed_of_partner? ht hcloser h

theorem Frame.framed {rp rc : Nat} (h : Frame ts rp rc) :
    Framed (inside rp ts) (inside rc (ts.drop (rp + 1))) (ts.take (rp + 1 + (rc + 1))) :=
  ⟨_, _, enclosed_of_startsWith rfl h.opensParen h.paren, enclosed_of_startsWith rfl h.opensBrace
    h.brace, take_add⟩

theorem Frame.le_length {rp rc : Nat} (h : Frame ts rp rc) : rp + 1 + (rc + 1) ≤ ts.length := by
  have hlt := (partner?_bounds h.brace).2
  rw [length_drop] at hlt
  omega

/-- Between brackets that are not next to each other there is something. -/
theorem inside_ne_nil (hk : 1 < k) (h : partner? ts = some k) : inside k ts ≠ [] := by
  have hlt := (partner?_bounds h).2
  refine ne_nil_of_length_pos ?_
  rw [inside, length_drop, length_take]
  omega

theorem exists_of_getD {o : Option Token} {f : Token → Bool} (h : (o.map f).getD false = true) :
    ∃ t, o = some t ∧ f t = true := by
  cases o with
  | none => cases h
  | some t => exact ⟨t, rfl, h⟩

theorem target_of_isTarget {fuel : Nat} (h : isTarget fuel ts = .ok true) : Target ts := by
  induction fuel generalizing ts with
  | zero => cases h
  | succ fuel ih =>
    match ts with
    | [] => cases h
    | [t] => exact .name (Except.ok.inj h)
    | t :: t' :: more =>
      rw [isTarget_cons_cons] at h
      split at h
      · cases h
      · rename_i hname
        split at h
        · rename_i hlast
          obtain ⟨y, hy, hbracket⟩ := exists_of_getD hlast
          obtain ⟨front, hfront⟩ := List.getLast?_eq_some_iff.1 hy
          rw [Token.is_iff.1 hbracket] at hfront
          rw [hfront] at h
          split at h
          · cases h
          · rename_i k hk
            have hreads : (Token.sym .rbracket).reads "]" = true := by decide
            obtain ⟨before, o, inner, rfl, ho, hlevel, rfl⟩ :=
              (opener?_eq_some_iff hreads (show openerOf? "]" = some "[" from rfl) (by decide)).1 hk
            have hform : before ++ o :: inner ++ [Token.sym .rbracket] =
                before ++ o :: (inner ++ [Token.sym .rbracket]) := by simp
            have hbefore : Target before := by
              split at h
              · rename_i hone
                -- the subscript stands right behind the name
                obtain ⟨u, rfl⟩ := List.length_eq_one_iff.1 (beq_iff_eq.1 hone)
                obtain rfl : t = u := (cons.inj hfront).1
                exact .name (by simpa using hname)
              · split at h
                · rw [append_assoc, take_left] at h
                  exact ih h
                · cases h
            rw [hfront, hform]
            exact .subscript hbefore ho hlevel
        · cases h

/-! ## Expressions -/

section

variable (hblock : ∀ {us : List Token} {q : Program}, block us = .ok q → Derives (.block us q))

include hblock

theorem derives_expressionFrom {skip : Nat} {e : Expr} (hskip : skip ≤ ts.length)
    (h : expressionFrom block skip ts = .ok e) : Derives (.expression (ts.drop skip) e) := by
  induction ts generalizing skip e with
  | nil =>
    rw [expressionFrom] at h
    cases h
    rw [drop_nil]
    exact .nil
  | cons t ts ih =>
    cases skip with
    | succ skip =>
      rw [expressionFrom] at h
      exact ih (Nat.le_of_succ_le_succ hskip) h
    | zero =>
      rw [expressionFrom] at h
      split at h
      · rename_i hfunction
        obtain ⟨⟨f, used⟩, hf, h⟩ := ok_of_bind h
        obtain ⟨rest, hrest, h⟩ := ok_of_bind h
        cases h
        obtain ⟨rp, rc, names, body, hframe, hone, hnames, hbody, rfl, rfl⟩ :=
          functionLiteral_inv hf
        have htail := ih hframe.le_length hrest
        have hliteral := Derives.function hframe.framed (params?_eq_some_iff.1 hnames)
          (inside_ne_nil hone hframe.brace) (hblock hbody) htail
        rw [take_append_drop] at hliteral
        rw [Token.is_iff.1 hfunction]
        exact hliteral
      · rename_i hplain
        obtain ⟨rest, hrest, h⟩ := ok_of_bind h
        cases h
        exact .token (Bool.eq_false_iff.mpr hplain) (ih (Nat.zero_le _) hrest)

theorem derives_expression {e : Expr} (h : expression block ts = .ok e) :
    Derives (.expression ts e) :=
  derives_expressionFrom hblock (Nat.zero_le _) h

/-! ## Assignments -/

theorem derives_assignment {target value : Expr} (h : assignment block ts = .ok (target, value)) :
    Derives (.assignment ts target value) := by
  obtain ⟨k, hk, hleft, hright, htarget⟩ := assignment_inv h
  obtain ⟨t, ht, hts⟩ := eq_of_findIdx? hk
  have hfront := forall_of_findIdx? hk
  rw [hts]
  exact .assignment ht hfront (derives_expression hblock hleft) (derives_expression hblock hright)
    (target_of_isTarget htarget)

theorem derives_shorthand {target value : Expr} (h : shorthand block ts = .ok (target, value)) :
    Derives (.shorthand ts target value) := by
  obtain ⟨word, op, k, right, hword, hk, hassign, rfl⟩ := shorthand_inv h
  obtain ⟨t, ht, hts⟩ := eq_of_findIdx? hk
  have hfront := forall_of_findIdx? hk
  have hsides := derives_assignment hblock hassign
  rcases hword with ⟨rfl, rfl⟩ | ⟨rfl, rfl, hnone⟩
  · rw [hts]
    exact .plus ht hfront hsides
  · rw [hts] at hnone ⊢
    exact .minus ht hfront hnone hsides

theorem derives_clauseAssignments {parts : List (List Token)}
    (h : clauseAssignments block parts = .ok p) :
    ∃ steps : List Step, parts = steps.map Step.written ∧ p = steps.map Step.stmt ∧
      ∀ s ∈ steps, Derives (.step s.written s.target s.value) := by
  induction parts generalizing p with
  | nil =>
    cases h
    exact ⟨[], rfl, rfl, by simp⟩
  | cons part parts ih =>
    obtain ⟨target, value, rest, hsides, hrest, rfl⟩ := clauseAssignments_inv h
    have hstep : Derives (.step part target value) := by
      rcases hsides with hassign | ⟨hnone, hshort⟩
      · exact .set (derives_assignment hblock hassign)
      · exact .change hnone (derives_shorthand hblock hshort)
    obtain ⟨steps, rfl, rfl, hsteps⟩ := ih hrest
    exact ⟨⟨part, target, value⟩ :: steps, rfl, rfl, List.forall_mem_cons.2 ⟨hstep, hsteps⟩⟩

theorem derives_clause (h : clause block ts = .ok p) :
    ∃ steps : List Step, Separated (·.is .comma) (steps.map Step.written) ts ∧
    p = steps.map Step.stmt ∧
      ∀ s ∈ steps, Derives (.step s.written s.target s.value) := by
  obtain ⟨parts, hparts, h⟩ := ok_of_bind h
  obtain ⟨steps, rfl, hp, hsteps⟩ := derives_clauseAssignments hblock h
  exact ⟨steps, (split_eq_ok_iff (sparesBrackets_is (by decide))).1 (ok_of_searched hparts), hp,
    hsteps⟩

theorem derives_declarations {parts : List (List Token)} (h : declarations block parts = .ok p) :
    ∃ ds : List Declarator, parts = ds.map Declarator.tokens ∧ p = ds.map Declarator.stmt ∧
      (∀ d ∈ ds, d.written ≠ []) ∧ ∀ d ∈ ds, Derives (.expression d.written d.value) := by
  induction parts generalizing p with
  | nil =>
    cases h
    exact ⟨[], rfl, rfl, by simp, by simp⟩
  | cons part parts ih =>
    obtain ⟨s, t, ts, value, rest, rfl, hvalue, hrest, rfl⟩ := declarations_inv h
    obtain ⟨ds, rfl, rfl, hwritten, hds⟩ := ih hrest
    exact ⟨⟨s, t :: ts, value⟩ :: ds, rfl, rfl, List.forall_mem_cons.2 ⟨cons_ne_nil _ _, hwritten⟩,
      List.forall_mem_cons.2 ⟨derives_expression hblock hvalue, hds⟩⟩

/-! ## Statements -/

omit hblock in
theorem lacks_of_upToSemicolon (h : upToSemicolon all ts = .ok (inner, k)) :
    Lacks (·.is .semi) inner ∧ k = inner.length ∧
    ∃ rest, ts = inner ++ Token.sym .semi :: rest := by
  unfold upToSemicolon at h
  obtain ⟨found, hfound, h⟩ := ok_of_bind h
  cases found with
  | none => exact absurd h failAt_ne_ok
  | some j =>
    cases h
    obtain ⟨front, t, rest, rfl, hlacks, ht, rfl⟩ :=
      (index?_eq_some_iff (sparesBrackets_is (by decide))).1 (ok_of_searched hfound)
    rw [take_left, Token.is_iff.1 ht]
    exact ⟨hlacks, rfl, rest, rfl⟩

theorem derives_guarded {word : String} {g : Guarded} (h : guarded block word ts = .ok g) :
    ∃ inner code, Framed inner code (ts.take g.used) ∧ inner ≠ [] ∧ code ≠ [] ∧
      Derives (.expression inner g.condition) ∧ Derives (.block code g.code) := by
  obtain ⟨rp, rc, hframe, hrp, hrc, hcondition, hcode, hused⟩ := guarded_inv h
  rw [hused]
  exact ⟨_, _, hframe.framed, inside_ne_nil hrp hframe.paren, inside_ne_nil hrc hframe.brace,
    derives_expression hblock hcondition, hblock hcode⟩

theorem derives_plainStatement {s : Stmt} (h : plainStatement block inner = .ok s)
    (hfront : Derives (.block front p)) (hinner : Sentence inner) :
    Derives (.block (front ++ (inner ++ [Token.sym .semi])) (p ++ [s])) := by
  have hassign := sparesBrackets_is (show isBracket (.sym .assign) = false by decide)
  have hplus := sparesBrackets_is (show isBracket (.sym .plusAssign) = false by decide)
  have hminus := sparesBrackets_is (show isBracket (.sym .minusAssign) = false by decide)
  rcases plainStatement_inv h with ⟨target, value, rfl, hassigns, hsides⟩ |
    ⟨target, value, adds, subtracts, rfl, hassigns, hadds, hsubtracts, hsome, hsides⟩ |
    ⟨e, rfl, hassigns, hadds, hsubtracts, hhead, he⟩
  · exact .assign hfront hinner ((isParted_eq_true_iff hassign).1 hassigns)
      (derives_assignment hblock hsides)
  · refine .assignShort hfront hinner (not_parted hassign hassigns) ?_
      (derives_shorthand hblock hsides)
    rcases Bool.or_eq_true _ _ ▸ hsome with rfl | rfl
    · exact .inl ((isParted_eq_true_iff hplus).1 hadds)
    · exact .inr ((isParted_eq_true_iff hminus).1 hsubtracts)
  · exact .exp hfront hinner (not_parted hassign hassigns) (not_parted hplus hadds)
      (not_parted hminus hsubtracts)
      hhead (derives_expression hblock he)

omit hblock in
theorem take_behind {α : Type} (xs : List α) (x : α) (ys : List α) :
    (xs ++ x :: ys).take (xs.length + 1) = xs ++ [x] := by
  rw [append_cons, take_left' (by simp)]

/-- A statement that is read behind a block makes a longer block. -/
theorem derives_statement {prev : Option Token} {done done' : Done} {t : Token} {used : Nat}
    (h : StatementRead block all prev done ts t done' used)
    (hfront : Derives (.block front done.reverse)) (hprev : ∀ u, prev = some u → u.reads "var?" =
      true → front.getLast? = some (.sym .varMark)) :
    Derives (.block (front ++ (t :: ts).take (used + 1)) done'.reverse) := by
  rw [take_succ_cons]
  cases h with
  | mark => exact .mark hfront
  | declared h =>
    obtain ⟨u, inner, k, parts, hu, hmark, hinner, hparts, hmade, rfl⟩ := varStatement_inv h
    obtain ⟨hlacks, rfl, rest, rfl⟩ := lacks_of_upToSemicolon hinner
    obtain ⟨ds, rfl, rfl, hwritten, hds⟩ := derives_declarations hblock hmade
    rw [take_behind, reverse_append, reverse_reverse]
    exact .declared hfront (hprev u hu hmark) hlacks
      ((split_eq_ok_iff (sparesBrackets_is (by decide))).1 hparts) hwritten hds
  | ladder h =>
    obtain ⟨inner, code, hframed, hinner, hcode, hcondition, hbody⟩ := derives_guarded hblock h
    rw [reverse_cons]
    exact .ladder hfront hframed hinner hcode hcondition hbody
  | arm hdone h =>
    subst hdone
    rw [reverse_cons] at hfront ⊢
    rcases elseArm_inv h with ⟨u, rest, g, rfl, hif, hg, rfl, rfl⟩ |
      ⟨rc, code, hbrace, hrc, hcode, rfl, rfl⟩
    · obtain ⟨inner, code, hframed, hinner, hcode, hcondition, hbody⟩ := derives_guarded hblock hg
      rw [take_succ_cons]
      exact .elseIf hfront hif hframed hinner hcode hcondition hbody
    · exact .otherwise hfront (enclosed_of_startsWith rfl hbrace hrc) (hblock hcode)
  | loop h =>
    obtain ⟨inner, code, hframed, hinner, hcode, hcondition, hbody⟩ := derives_guarded hblock h
    rw [reverse_cons]
    exact .loop hfront hframed hinner hcode hcondition hbody
  | returned h he =>
    obtain ⟨hlacks, rfl, rest, rfl⟩ := lacks_of_upToSemicolon h
    rw [take_behind, reverse_cons]
    exact .returned hfront hlacks (derives_expression hblock he)
  | broken hts hsemi =>
    subst hts
    rw [Token.is_iff.1 hsemi, reverse_cons]
    exact .broken hfront
  | counted h =>
    obtain ⟨rp, rc, first, middle, last, before, condition, after, code, hframe, hrc, hclauses,
        hbefore, hcondition,
      hafter, hcode, rfl, rfl⟩ := forStatement_inv h
    obtain ⟨s₁, s₂, hs₁, hs₂, hinner, hnone, hmiddle⟩ := threeClauses_inv hclauses
    obtain ⟨steps, hsteps, rfl, hmade⟩ := derives_clause hblock hbefore
    obtain ⟨steps', hsteps', rfl, hmade'⟩ := derives_clause hblock hafter
    have hframed := hframe.framed
    rw [hinner] at hframed
    rw [reverse_append, reverse_reverse]
    exact .counted hfront hframed hs₁ hs₂ hnone hmiddle (inside_ne_nil hrc hframe.brace)
      hsteps hsteps' (List.forall_mem_append.2 ⟨hmade, hmade'⟩)
      (derives_expression hblock hcondition) (hblock hcode)
  | @unmarked _ inner k s h hne hs hopening =>
    obtain ⟨hlacks, rfl, rest, hts⟩ := lacks_of_upToSemicolon h
    have hsentence : Sentence inner := by
      obtain ⟨u, us, rfl⟩ := exists_cons_of_ne_nil hne
      obtain ⟨rfl, _⟩ := cons.inj hts
      exact ⟨⟨t, us, rfl, hopening⟩, hlacks⟩
    rw [← take_succ_cons, hts, take_behind, reverse_cons]
    exact derives_plainStatement hblock hs hfront hsentence

theorem derives_statements {prev : Option Token} {done : Done} {skip : Nat}
    (h : statements block all done prev skip ts = .ok p) (hskip : skip ≤ ts.length)
    (hfront : Derives (.block (front ++ ts.take skip) done.reverse)) (hprev : front.getLast? = prev)
    (hmark : ∀ u, (front ++ ts.take skip).getLast? = some u → u.reads "var?" = true →
      u = .sym .varMark) :
    Derives (.block (front ++ ts) p) := by
  induction ts generalizing front done prev skip with
  | nil =>
    cases h
    rw [take_nil] at hfront
    exact hfront
  | cons t ts ih =>
    cases skip with
    | succ skip =>
      rw [statements] at h
      rw [take_succ_cons, append_cons] at hfront hmark
      rw [append_cons]
      exact ih h (Nat.le_of_succ_le_succ hskip) hfront getLast?_concat hmark
    | zero =>
      rw [statements] at h
      obtain ⟨⟨done', used⟩, hread, h⟩ := ok_of_bind h
      have hread := statement_inv hread
      obtain ⟨u, hu, hlast⟩ := hread.last
      have hused : used < (t :: ts).length := (List.getElem?_eq_some_iff.1 hu).1
      rw [take_zero, append_nil] at hfront hmark
      have hstep := derives_statement hblock hread hfront fun v hv hvar => by
        rw [hprev, hv, hmark v (hprev.trans hv) hvar]
      -- a statement other than the mark ends with a semicolon or a brace
      have hmark' : ∀ v, (front ++ (t :: ts).take (used + 1)).getLast? = some v →
          v.reads "var?" = true →
          v = .sym .varMark := by
        intro v hv hvar
        have hend : (front ++ (t :: ts).take (used + 1)).getLast? = some u := by
          rw [take_add_one, hu, Option.toList_some, ← append_assoc, getLast?_concat]
        obtain rfl : u = v := Option.some.inj (hend.symm.trans hv)
        rcases hlast with hsemi | hbrace | hvarMark
        · rw [Token.is_iff.1 hsemi] at hvar
          cases hvar
        · exact absurd (Token.reads_unique hbrace hvar) (by decide)
        · exact hvarMark
      rw [take_succ_cons, append_cons] at hstep hmark'
      rw [append_cons]
      exact ih h (Nat.le_of_lt_succ hused) hstep getLast?_concat hmark'

end

/-- Whatever is read as a block is one by the rules of the grammar. -/
theorem derives_block {n : Nat} (h : Parser.block n ts = .ok p) : Derives (.block ts p) := by
  induction n generalizing ts p with
  | zero => cases h
  | succ n ih =>
    have hempty : Derives (.block ([] ++ ts.take 0) ([] : Done).reverse) := .empty
    exact derives_statements ih h (Nat.zero_le _) hempty rfl (by simp)

end Parser

end LittleJ
