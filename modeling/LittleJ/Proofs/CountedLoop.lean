import LittleJ.Proofs.Concatenation

/-!
# A `for` statement is its loop

A `for` statement and the loop it stands for are read in different ways. The clauses are found by
the first two semicolons wherever they stand, the assignments of a clause by the commas at its top
level, and what kind of assignment each is by whether a sign is in it at all. As statements, the
assignments end at a semicolon at the top level, and must have their sign there. The increments of a
`for` statement are read on their own and put behind its body; in the loop they are part of the
body's text.

Both come to the same program where no sign is hidden: each assignment has one sign, at its top
level. The body may be anything that is read as a block, but its braces must be balanced if there
are increments. Otherwise the body ends early, and the increments stand behind something else.
-/

namespace LittleJ

open LittleJ.Bracket LittleJ.TopLevel LittleJ.Grammar LittleJ.Parser List Stmt

variable {p : Program} {t : Token} {target value : Expr} {rest : List Token}

theorem TopLevel.Lacks.of_forall {p q : Token → Bool} {ts : List Token} (h : Lacks q ts)
    (hp : ∀ t ∈ ts, p t = false) : Lacks p ts := by
  induction h with
  | nil => exact .nil
  | cons ht _ _ ih => exact .cons ht (hp _ (by simp)) (ih fun t ht => hp t (by simp [ht]))
  | pair hcloser hpair _ ih => exact .pair hcloser hpair (ih fun t ht => hp t (by simp [ht]))

namespace CountedLoop

/-! ## The parts of the statement -/

/-- The brackets of each kind are balanced. -/
def Balanced (ts : List Token) : Prop :=
  ∀ left right : Symbol, Pair left right → Level left.text right.text ts

/-- Only symbols have the text of a symbol. -/
def Spelled (ts : List Token) : Prop :=
  ∀ t ∈ ts, ∀ y : Symbol, t.reads y.text = true → t.is y = true

instance (ts : List Token) : Decidable (Spelled ts) :=
  decidable_of_iff (∀ t ∈ ts, ∀ y ∈ Symbol.all, t.reads y.text = true → t.is y = true)
    ⟨fun h t ht y => h t ht y y.mem_all, fun h t ht y _ => h t ht y⟩

/-- The signs of assignments. -/
inductive Sign
  | set
  | add
  | subtract
deriving DecidableEq, Repr

/-- How a sign is written. -/
def Sign.symbol : Sign → Symbol
  | set => .assign
  | add => .plusAssign
  | subtract => .minusAssign

/-- What may stand on a side of an assignment. -/
structure Side (ts : List Token) : Prop where
  balanced : Balanced ts
  spelled : Spelled ts
  commas : Lacks (·.is .comma) ts
  semis : ∀ t ∈ ts, t.is .semi = false
  signs : ∀ s : Sign, ∀ t ∈ ts, t.is s.symbol = false

/-- An assignment, as it is written. -/
structure Assignment where
  left : List Token
  sign : Sign
  right : List Token
  left_side : Side left
  right_side : Side right
  right_ne_nil : right ≠ []

/-- The tokens of an assignment. -/
def Assignment.tokens (a : Assignment) : List Token :=
  a.left ++ .sym a.sign.symbol :: a.right

/-- Assignments with commas between them. -/
def clauseTokens (as : List Assignment) : List Token :=
  [Token.sym .comma].intercalate (as.map Assignment.tokens)

/-- Assignments as statements. -/
def lineTokens (as : List Assignment) : List Token :=
  as.flatMap fun a => a.tokens ++ [.sym .semi]

/-- Parentheses around `inner` and braces around `code`. -/
def frame (inner code : List Token) : List Token :=
  .sym .lparen :: (inner ++ [.sym .rparen]) ++ .sym .lbrace :: (code ++ [.sym .rbrace])

/-- What stands between the parentheses of a `for` statement. -/
def clauses (before : List Assignment) (condition : List Token) (after : List Assignment) :
    List Token :=
  clauseTokens before ++ .sym .semi :: (condition ++ .sym .semi :: clauseTokens after)

/-- A `for` statement. -/
def forTokens (before : List Assignment) (condition : List Token) (after : List Assignment)
    (body : List Token) :
    List Token :=
  .sym .kwFor :: frame (clauses before condition after) body

/-- The assignments and the loop that a `for` statement stands for. -/
def whileTokens (before : List Assignment) (condition : List Token) (after : List Assignment)
    (body : List Token) :
    List Token :=
  lineTokens before ++ .sym .kwWhile :: frame condition (body ++ lineTokens after)

/-! ## Sides and assignments -/

section Balanced

variable {ts us : List Token}

theorem Balanced.append (h : Balanced ts) (h' : Balanced us) : Balanced (ts ++ us) :=
  fun _ _ hpair => (h _ _ hpair).append (h' _ _ hpair)

theorem balanced_nil : Balanced [] :=
  fun _ _ _ => level_nil

theorem balanced_single (h : isBracket t = false) : Balanced [t] :=
  fun _ _ hpair => level_single (hpair.reads_not_bracket h).1 (hpair.reads_not_bracket h).2

theorem Balanced.append_cons (h : Balanced ts) (ht : isBracket t = false) (h' : Balanced us) :
    Balanced (ts ++ t :: us) :=
  h.append ((balanced_single ht).append h')

end Balanced

theorem Spelled.reads {ts : List Token} (h : Spelled ts) {y : Symbol}
    (hy : ∀ t ∈ ts, t.is y = false) :
    ∀ t ∈ ts, t.reads y.text = false := by
  intro t ht
  rw [Bool.eq_false_iff]
  intro hreads
  have his := h t ht y hreads
  rw [hy t ht] at his
  cases his

theorem Sign.isBracket (s : Sign) : isBracket (.sym s.symbol) = false := by
  cases s <;> decide

namespace Assignment

variable (a : Assignment)

theorem balanced : Balanced a.tokens :=
  a.left_side.balanced.append_cons a.sign.isBracket a.right_side.balanced

theorem lacks {p : Token → Bool} (hleft : ∀ t ∈ a.left, p t = false)
    (hsign : p (.sym a.sign.symbol) = false) (hright : ∀ t ∈ a.right, p t = false) :
    Lacks p a.tokens :=
  (a.left_side.commas.of_forall hleft).append
    (.cons (opens_of_not_bracket a.sign.isBracket) hsign (a.right_side.commas.of_forall hright))

theorem tokens_ne_nil : a.tokens ≠ [] := by
  simp [tokens]

theorem lacks_comma : Lacks (·.is .comma) a.tokens :=
  a.left_side.commas.append
    (.cons (opens_of_not_bracket a.sign.isBracket) (by cases a.sign <;> rfl) a.right_side.commas)

theorem lacks_semi : Lacks (·.is .semi) a.tokens :=
  a.lacks a.left_side.semis (by cases a.sign <;> rfl) a.right_side.semis

theorem reads_semi : ∀ t ∈ a.tokens, t.reads ";" = false := by
  intro t ht
  rcases List.mem_append.1 ht with ht | ht
  · exact a.left_side.spelled.reads a.left_side.semis t ht
  · rcases List.mem_cons.1 ht with rfl | ht
    · cases a.sign <;> rfl
    · exact a.right_side.spelled.reads a.right_side.semis t ht

/-- No sign but its own is in an assignment. -/
theorem reads_sign {s : Sign} (hs : s ≠ a.sign) :
    ∀ t ∈ a.tokens, t.reads s.symbol.text = false := by
  intro t ht
  rcases List.mem_append.1 ht with ht | ht
  · exact a.left_side.spelled.reads (a.left_side.signs s) t ht
  · rcases List.mem_cons.1 ht with rfl | ht
    · revert hs
      cases s <;> cases a.sign <;> decide
    · exact a.right_side.spelled.reads (a.right_side.signs s) t ht

/-- The sign parts an assignment, for its right side is not empty. -/
theorem parted : Parted (·.is a.sign.symbol) a.tokens := by
  have hleft : Lacks (·.is a.sign.symbol) a.left :=
    a.left_side.commas.of_forall (a.left_side.signs _)
  have hright : Lacks (·.is a.sign.symbol) a.right :=
    a.right_side.commas.of_forall (a.right_side.signs _)
  exact ⟨[a.left, a.right], .cons hleft (Token.is_iff.2 rfl) (.last a.right_ne_nil hright), by simp⟩

theorem not_parted {s : Sign} (hs : s ≠ a.sign) : ¬Parted (·.is s.symbol) a.tokens := by
  intro hparted
  obtain ⟨t, ht, his⟩ := hparted.exists_mem a.tokens_ne_nil
  have hreads := a.reads_sign hs t ht
  rw [Token.is_iff.1 his, reads_text] at hreads
  cases hreads

end Assignment

/-- An assignment starts with a name. -/
theorem head_of_assignment {ts : List Token} (h : Derives (.assignment ts target value)) :
    ∃ u more, ts = u :: more ∧ u.isName = true := by
  cases h with
  | assignment _ _ hleft _ htarget =>
    obtain ⟨u, more, rfl, hu⟩ := head_of_derives hleft htarget
    exact ⟨u, _, rfl, hu⟩

theorem head_of_shorthand {ts : List Token} (h : Derives (.shorthand ts target value)) :
    ∃ u more, ts = u :: more ∧ u.isName = true := by
  have hleft : ∀ {left right : List Token} {t : Token} {target value : Expr},
      Derives (.assignment (left ++ Token.sym .assign :: right) target value) →
      ∃ u more, left ++ t :: right = u :: more ∧ u.isName = true := by
    intro left right t target value h
    obtain ⟨u, more, heq, hu⟩ := head_of_assignment h
    cases left with
    | nil =>
      -- the sign itself is no name
      rw [← (cons.inj heq).1] at hu
      cases hu
    | cons v left =>
      rw [← (cons.inj heq).1] at hu
      exact ⟨v, _, rfl, hu⟩
  cases h with
  | plus _ _ h => exact hleft h
  | minus _ _ _ h => exact hleft h

theorem sentence_of_head {a : Assignment} (h : ∃ u more, a.tokens = u :: more ∧ u.isName = true) :
    Sentence a.tokens := by
  obtain ⟨u, more, heq, hu⟩ := h
  refine ⟨⟨u, more, heq, ?_⟩, a.lacks_semi⟩
  cases u with
  | name s => rfl
  | _ => cases hu

/-- An assignment that is read in a clause is a statement of its own, and the same one. -/
theorem derives_line {block : List Token → Parse Program}
    (hblock : ∀ {us : List Token} {q : Program}, block us = .ok q → Derives (.block us q))
    {a : Assignment} (h : assignment block a.tokens = .ok (target, value) ∨
      (∀ t ∈ a.tokens, t.reads "=" = false) ∧ shorthand block a.tokens = .ok (target, value))
      {ts : List Token} (hts : Derives (.block ts p)) :
    Derives (.block (ts ++ (a.tokens ++ [.sym .semi])) (p ++ [.assign target value])) := by
  have hown : .sym a.sign.symbol ∈ a.tokens := by simp [Assignment.tokens]
  rcases h with h | ⟨hnone, h⟩
  · have hsides := derives_assignment hblock h
    have hset : a.sign = .set := by
      by_contra hne
      obtain ⟨k, hk, _⟩ := assignment_inv h
      obtain ⟨t, ht, hts⟩ := eq_of_findIdx? hk
      have hnone := a.reads_sign (Ne.symm hne) t (by rw [hts]; simp)
      rw [show Sign.set.symbol.text = "=" from rfl, ht] at hnone
      cases hnone
    refine .assign hts (sentence_of_head (head_of_assignment hsides)) ?_ hsides
    have hparted := a.parted
    rwa [hset] at hparted
  · have hsides := derives_shorthand hblock h
    have hset : a.sign ≠ .set := by
      intro heq
      have hreads := hnone _ hown
      rw [heq] at hreads
      cases hreads
    refine .assignShort hts (sentence_of_head (head_of_shorthand hsides))
      (a.not_parted (Ne.symm hset)) ?_ hsides
    have hparted := a.parted
    cases hsign : a.sign with
    | set => exact absurd hsign hset
    | add =>
      rw [hsign] at hparted
      exact .inl hparted
    | subtract =>
      rw [hsign] at hparted
      exact .inr hparted

/-! ## Clauses -/

theorem clauseTokens_cons_cons (a b : Assignment) (as : List Assignment) :
    clauseTokens (a :: b :: as) = a.tokens ++ .sym .comma :: clauseTokens (b :: as) := by
  simp [clauseTokens, intercalate]

theorem balanced_clause (as : List Assignment) : Balanced (clauseTokens as) := by
  induction as with
  | nil => exact balanced_nil
  | cons a as ih =>
    cases as with
    | nil => simpa [clauseTokens, intercalate] using a.balanced
    | cons b as =>
      rw [clauseTokens_cons_cons]
      exact a.balanced.append_cons (by decide) ih

theorem separated_clause (as : List Assignment) :
    Separated (·.is .comma) (as.map Assignment.tokens) (clauseTokens as) := by
  induction as with
  | nil => exact .nil
  | cons a as ih =>
    cases as with
    | nil => simpa [clauseTokens, intercalate] using Separated.last a.tokens_ne_nil a.lacks_comma
    | cons b as =>
      rw [clauseTokens_cons_cons]
      exact .cons a.lacks_comma rfl ih

theorem reads_semi_clause (as : List Assignment) : ∀ t ∈ clauseTokens as, t.reads ";" = false := by
  induction as with
  | nil => simp [clauseTokens]
  | cons a as ih =>
    cases as with
    | nil => simpa [clauseTokens, intercalate] using a.reads_semi
    | cons b as =>
      rw [clauseTokens_cons_cons, forall_mem_append, forall_mem_cons]
      exact ⟨a.reads_semi, rfl, ih⟩

theorem balanced_lines (as : List Assignment) : Balanced (lineTokens as) := by
  induction as with
  | nil => exact balanced_nil
  | cons a as ih =>
    rw [lineTokens, flatMap_cons]
    exact (a.balanced.append (balanced_single (by decide))).append ih

/-- The assignments of a clause, put behind a block as statements. -/
theorem derives_lines {block : List Token → Parse Program}
    (hblock : ∀ {us : List Token} {q : Program}, block us = .ok q → Derives (.block us q))
    {as : List Assignment} {made : Program} (h : clause block (clauseTokens as) = .ok made)
    {ts : List Token} (hts : Derives (.block ts p)) :
    Derives (.block (ts ++ lineTokens as) (p ++ made)) := by
  have hsplit := (split_eq_ok_iff (sparesBrackets_is (by decide))).2 (separated_clause as)
  rw [clause, hsplit] at h
  replace h : clauseAssignments block (as.map Assignment.tokens) = .ok made := h
  clear hsplit
  induction as generalizing made ts p with
  | nil =>
    cases h
    simpa [lineTokens] using hts
  | cons a as ih =>
    obtain ⟨target, value, rest, hsides, hrest, rfl⟩ := clauseAssignments_inv h
    have hmore := ih (derives_line hblock hsides hts) hrest
    rw [lineTokens, flatMap_cons, ← append_assoc, append_cons p]
    exact hmore

/-! ## The two statements -/

theorem enclosed_round {inner : List Token} (h : Balanced inner) :
    Enclosed "(" ")" inner (.sym .lparen :: (inner ++ [.sym .rparen])) :=
  ⟨_, _, rfl, rfl, rfl, h _ _ .round⟩

theorem framed {inner code : List Token} (hinner : Balanced inner)
    (hcode : Level "\x7b" "\x7d" code) :
    Framed inner code (frame inner code) :=
  ⟨_, _, enclosed_round hinner, ⟨.sym .lbrace, .sym .rbrace, rfl, rfl, rfl, hcode⟩, rfl⟩

/-- What may stand between the parentheses of a loop. -/
structure Condition (ts : List Token) : Prop where
  ne_nil : ts ≠ []
  balanced : Balanced ts
  spelled : Spelled ts
  semis : ∀ t ∈ ts, t.is .semi = false

section Statements

variable {before after : List Assignment} {condition body : List Token}

theorem balanced_clauses (before after : List Assignment) (h : Balanced condition) :
    Balanced (clauses before condition after) :=
  (balanced_clause before).append_cons (by decide)
  (h.append_cons (by decide) (balanced_clause after))

theorem threeClauses_clauses (h : Condition condition) :
    threeClauses (clauses before condition after) =
      .ok (clauseTokens before, condition, clauseTokens after) := by
  refine threeClauses_of_forall rfl rfl ?_ h.ne_nil
  rw [forall_mem_append, forall_mem_append]
  exact ⟨reads_semi_clause before, h.spelled.reads h.semis, reads_semi_clause after⟩

/-- The parts of a `for` statement and of its loop as they are read with fuel `n`. -/
structure Parts (n : Nat) (before : List Assignment) (condition : List Token)
    (after : List Assignment) (body : List Token) (first : Program) (e : Expr)
    (last code : Program) : Prop where
  first : clause (block n) (clauseTokens before) = .ok first
  condition : expression (block n) condition = .ok e
  last : clause (block n) (clauseTokens after) = .ok last
  code : block n body = .ok code
  body_ne_nil : body ≠ []

variable {n : Nat} {first last code : Program} {e : Expr}

/-- The parts of a `for` statement that is read. -/
theorem forStatement_frame (hcondition : Condition condition) (hbody : Level "\x7b" "\x7d" body)
    {made : Program} {used : Nat}
    (h : forStatement (block n) (frame (clauses before condition after) body ++ rest) =
      .ok (made, used)) :
    ∃ first e last code, Parts n before condition after body first e last code ∧
      made = first ++ [.loop e (code ++ last)] := by
  obtain ⟨rp, rc, f, m, l, first, e, last, code, hframe, hrc, hclauses, hfirst, he, hlast,
      hcode, rfl, -⟩ :=
    forStatement_inv h
  obtain ⟨round, braces, hround, hbraces, heq⟩ :=
    framed (balanced_clauses before after hcondition.balanced) hbody
  rw [heq, append_assoc] at hframe hclauses hcode
  have hpartner := hround.partner? rfl (braces ++ rest)
  obtain rfl : rp = _ := Option.some.inj (hframe.paren.symm.trans hpartner)
  have hbrace := hframe.brace
  rw [drop_of_enclosed hround] at hbrace hcode
  obtain rfl : rc = _ := Option.some.inj (hbrace.symm.trans (hbraces.partner? rfl rest))
  rw [inside_of_enclosed hround, threeClauses_clauses hcondition] at hclauses
  rw [inside_of_enclosed hbraces] at hcode
  cases hclauses
  refine ⟨first, e, last, code, ⟨hfirst, he, hlast, hcode, ?_⟩, rfl⟩
  rintro rfl
  simp at hrc

theorem getLast_frame (ts inner code : List Token) :
    (ts ++ frame inner code).getLast? = some (.sym .rbrace) := by
  simp [frame, getLast?_cons, getLast?_append]

/-- A `for` statement is read first, and then what stands behind it. -/
theorem for_read (hcondition : Condition condition) (hbody : Level "\x7b" "\x7d" body)
    (hn : (forTokens before condition after body ++ rest).length ≤ n)
    (h : parse (forTokens before condition after body ++ rest) = .ok p) :
    ∃ first e last code, Parts n before condition after body first e last code ∧
      statements (block n) (forTokens before condition after body ++ rest)
        (first ++ [loop e (code ++ last)]).reverse (some (.sym .rbrace)) 0 rest = .ok p := by
  have hread : block (n + 1) (forTokens before condition after body ++ rest) = .ok p :=
    below_block (Nat.lt_succ_of_le hn) p h
  have hstart := hread
  rw [block, forTokens, cons_append, statements] at hstart
  obtain ⟨⟨done, used⟩, hstatement, -⟩ := ok_of_bind hstart
  obtain ⟨⟨made, used⟩, hmade, -⟩ := ok_of_bind hstatement
  obtain ⟨first, e, last, code, hparts, rfl⟩ := forStatement_frame hcondition hbody hmade
  refine ⟨first, e, last, code, hparts, ?_⟩
  have hnil : block (n + 1) [] = .ok [] := rfl
  have hcounted : block (n + 1) (forTokens before condition after body) =
      .ok (first ++ [loop e (code ++ last)]) :=
    block_counted hnil (framed (balanced_clauses before after hcondition.balanced) hbody)
    (by simp [clauses])
      hparts.body_ne_nil (threeClauses_clauses hcondition) hparts.first hparts.condition
      hparts.last hparts.code
  rw [block] at hread hcounted
  rwa [statements_past hcounted (Nat.zero_le _), forTokens, ← singleton_append, getLast_frame,
    Option.some_or] at hread

/-- The assignments and the loop are read first, and then what stands behind them. -/
theorem while_read (hcondition : Condition condition) (hbody : Level "\x7b" "\x7d" body)
    (hn : (whileTokens before condition after body).length ≤ n)
    (h : Parts n before condition after body first e last code) (rest : List Token) :
    block (n + 1) (whileTokens before condition after body ++ rest) =
      statements (block n) (whileTokens before condition after body ++ rest)
        (first ++ [loop e (code ++ last)]).reverse (some (.sym .rbrace)) 0 rest := by
  have hbefore : Derives (.block (lineTokens before) first) :=
    derives_lines derives_block h.first .empty
  have hinner : Derives (.block (body ++ lineTokens after) (code ++ last)) :=
    derives_lines derives_block h.last (derives_block h.code)
  have hlevel : Level "\x7b" "\x7d" (body ++ lineTokens after) :=
    hbody.append (balanced_lines after _ _ .curly)
  have hall : Derives (.block (whileTokens before condition after body)
      (first ++ [loop e (code ++ last)])) :=
    .loop hbefore (framed hcondition.balanced hlevel) hcondition.ne_nil (by simp [h.body_ne_nil])
      (derives_expression derives_block h.condition) hinner
  have hloop := read_of_derives hall (n + 1) (Nat.lt_succ_of_le hn)
  rw [block] at hloop ⊢
  rw [statements_past hloop (Nat.zero_le _), whileTokens, append_cons, getLast_frame,
    Option.some_or]

/-- What is read behind a `for` statement is read the same behind its loop. -/
theorem parse_while_append (hcondition : Condition condition) (hbody : Level "\x7b" "\x7d" body)
    (h : parse (forTokens before condition after body ++ rest) = .ok p) :
    parse (whileTokens before condition after body ++ rest) = .ok p := by
  -- fuel that is enough for both lists
  obtain ⟨n, hfor, hwhile⟩ : ∃ n, (forTokens before condition after body ++ rest).length ≤ n ∧
      (whileTokens before condition after body).length ≤ n :=
      ⟨max _ _, Nat.le_max_left _ _, Nat.le_max_right _ _⟩
  obtain ⟨first, e, last, code, hparts, hrest⟩ := for_read hcondition hbody hfor h
  refine parse_of_block (n := n + 1) ?_
  rw [while_read hcondition hbody hwhile hparts]
  simpa using statements_behind (.inr rfl) hrest (whileTokens before condition after body ++ rest)
    []

end Statements

/-! ## A body that ends early -/

/-- Statements are added to the end of a program. Only a ladder that stands there is changed. -/
theorem suffix_of_statementRead {block : List Token → Parse Program} {all ts : List Token}
    {prev : Option Token} {done done' base : Done} {used : Nat}
    (hbase : ∀ arms, base.head? ≠ some (.ladder arms))
    (h : StatementRead block all prev done ts t done' used) (hdone : base <:+ done) :
    base <:+ done' := by
  cases h with
  | mark => exact hdone
  | declared _ => exact hdone.trans (suffix_append _ _)
  | ladder _ => exact hdone.trans (suffix_cons _ _)
  | @arm arms before arm _ heq _ =>
    subst heq
    rcases List.suffix_cons_iff.1 hdone with rfl | hbefore
    · exact absurd rfl (hbase arms)
    · exact hbefore.trans (suffix_cons _ _)
  | loop _ => exact hdone.trans (suffix_cons _ _)
  | returned _ _ => exact hdone.trans (suffix_cons _ _)
  | broken _ _ => exact hdone.trans (suffix_cons _ _)
  | counted _ => exact hdone.trans (suffix_append _ _)
  | unmarked _ _ _ _ => exact hdone.trans (suffix_cons _ _)

theorem prefix_of_statements {block : List Token → Parse Program} {all ts : List Token}
    {prev : Option Token} {done base : Done} {skip : Nat}
    (hbase : ∀ arms, base.head? ≠ some (.ladder arms)) (h : statements block all done prev skip ts =
      .ok p) (hdone : base <:+ done) : base.reverse <+: p := by
  induction ts generalizing done prev skip with
  | nil =>
    cases h
    exact List.reverse_prefix.2 hdone
  | cons t ts ih =>
    cases skip with
    | succ skip => exact ih h hdone
    | zero =>
      rw [statements] at h
      obtain ⟨⟨done', used⟩, hread, h⟩ := ok_of_bind h
      exact ih h (suffix_of_statementRead hbase (statement_inv hread) hdone)

/-- The brace before a body is closed behind a part of it that is balanced. -/
theorem exists_level {before after : List Assignment} {condition body : List Token}
    (hcondition : Condition condition) (hspelled : Spelled body)
    (h : parse (forTokens before condition after body) = .ok p) :
    ∃ inner rest, body ++ [.sym .rbrace] = inner ++ .sym .rbrace :: rest ∧
    Level "\x7b" "\x7d" inner := by
  rw [parse, block, forTokens, statements] at h
  obtain ⟨⟨done, used⟩, hstatement, -⟩ := ok_of_bind h
  obtain ⟨⟨made, used⟩, hmade, -⟩ := ok_of_bind hstatement
  obtain ⟨rp, rc, f, m, l, first, e, last, code, hframe, -⟩ := forStatement_inv hmade
  have hround := enclosed_round (balanced_clauses before after hcondition.balanced)
  obtain rfl : rp = _ := Option.some.inj (hframe.paren.symm.trans (hround.partner? rfl _))
  have hbrace := hframe.brace
  have hopen : (Token.sym .lbrace).reads "\x7b" = true := rfl
  rw [frame, drop_of_enclosed hround, partner?_of_reads hopen rfl, balanceFrom_eq_some_iff rfl
    (by decide)] at hbrace
  obtain ⟨inner, c, rest, heq, hlevel, hc, -⟩ := hbrace
  have hmem : c ∈ body ++ [.sym .rbrace] := by rw [heq]; simp
  have hsymbol : c = .sym .rbrace := by
    rcases List.mem_append.1 hmem with hmem | hmem
    · exact Token.is_iff.1 (hspelled c hmem .rbrace hc)
    · exact List.mem_singleton.1 hmem
  exact ⟨inner, rest, by rw [heq, hsymbol], hlevel⟩

theorem not_level {inner : List Token} (h : Level "\x7b" "\x7d" inner) :
    ¬Level "\x7b" "\x7d" (inner ++ .sym .rbrace :: rest) := by
  intro hall
  have hnone := hall 0 []
  rw [append_nil, h 0] at hnone
  have hclosed : balanceFrom "\x7b" "\x7d" (0 + 1) (.sym .rbrace :: rest) = some 0 := rfl
  rw [hclosed] at hnone
  cases hnone

section EarlyEnd

variable {before after : List Assignment} {condition inner more : List Token}

theorem forTokens_early : forTokens before condition after (inner ++ .sym .rbrace :: more) =
    forTokens before condition after inner ++ (more ++ [.sym .rbrace]) := by
  simp [forTokens, frame]

theorem whileTokens_early : whileTokens before condition after (inner ++ .sym .rbrace :: more) =
    whileTokens before condition [] inner ++ (more ++ lineTokens after ++ [.sym .rbrace]) := by
  simp [whileTokens, frame, lineTokens]

/-- If the body ends early the loop does without the increments. -/
theorem parse_while_early (hcondition : Condition condition) (hlevel : Level "\x7b" "\x7d" inner)
    (h : parse (forTokens before condition after (inner ++ .sym .rbrace :: more)) = .ok p)
    (hafter : after ≠ []) :
    parse (whileTokens before condition after (inner ++ .sym .rbrace :: more)) ≠ .ok p := by
  rw [forTokens_early] at h
  rw [whileTokens_early]
  intro hwhile
  obtain ⟨n, hfor, hlength⟩ : ∃ n,
      (forTokens before condition after inner ++ (more ++ [Token.sym .rbrace])).length ≤ n ∧
      (whileTokens before condition [] inner ++
        (more ++ lineTokens after ++ [Token.sym .rbrace])).length ≤ n :=
    ⟨max _ _, Nat.le_max_left _ _, Nat.le_max_right _ _⟩
  obtain ⟨first, e, last, code, hparts, hrest⟩ := for_read hcondition hlevel hfor h
  have hshort : Parts n before condition [] inner first e [] code :=
    ⟨hparts.first, hparts.condition, rfl, hparts.code, hparts.body_ne_nil⟩
  have hread := below_block (Nat.lt_succ_of_le hlength) p hwhile
  rw [while_read hcondition hlevel (Nat.le_trans (by simp) hlength) hshort] at hread
  -- both programs go on behind the loops, which differ by the increments
  have hlong : first ++ [loop e (code ++ last)] <+: p := by
    simpa using prefix_of_statements (by simp) hrest (suffix_refl _)
  have hnone : first ++ [loop e (code ++ [])] <+: p := by
    simpa using prefix_of_statements (by simp) hread (suffix_refl _)
  have hsame := append_inj_right
    ((prefix_of_prefix_length_le hlong hnone (by simp)).eq_of_length (by simp)) rfl
  simp only [append_nil, cons.injEq, loop.injEq, append_right_eq_self, true_and, and_true] at hsame
  have hlast := hparts.last
  obtain ⟨a, as, rfl⟩ := exists_cons_of_ne_nil hafter
  rw [clause, (split_eq_ok_iff (sparesBrackets_is (by decide))).2 (separated_clause (a :: as)),
    hsame] at hlast
  obtain ⟨target, value, made, -, -, hmade⟩ := clauseAssignments_inv hlast
  cases hmade

end EarlyEnd

/-- **A `for` statement is its loop.** If it is read, then the assignments and the loop that it
stands for are read as the same program, unless there are increments and the braces of the body are
not balanced. -/
theorem parse_while_iff {before after : List Assignment} {condition body : List Token} {p : Program}
    (hcondition : Condition condition) (hspelled : Spelled body)
    (h : parse (forTokens before condition after body) = .ok p) :
    parse (whileTokens before condition after body) = .ok p ↔ after = [] ∨
    Level "\x7b" "\x7d" body := by
  obtain ⟨inner, rest, heq, hlevel⟩ := exists_level hcondition hspelled h
  rcases eq_nil_or_concat rest with rfl | ⟨more, last, rfl⟩
  · -- the body ends where it seems to
    obtain rfl : body = inner := (append_inj' heq rfl).1
    refine ⟨fun _ => .inr hlevel, fun _ => ?_⟩
    rw [← append_nil (forTokens before condition after body)] at h
    simpa using parse_while_append hcondition hlevel h
  · obtain rfl : body = inner ++ .sym .rbrace :: more := by
      have hconcat : body ++ [.sym .rbrace] = (inner ++ .sym .rbrace :: more) ++ [last] := by
        simpa using heq
      exact (append_inj' hconcat rfl).1
    constructor
    · intro hwhile
      by_contra hneither
      exact parse_while_early hcondition hlevel h (fun hnil => hneither (.inl hnil)) hwhile
    · rintro (rfl | hbody)
      · rw [forTokens_early] at h
        rw [whileTokens_early]
        simpa [lineTokens] using parse_while_append hcondition hlevel h
      · exact absurd hbody (not_level hlevel)

/-! ## Two statements -/

theorem side_of_clear {ts : List Token} (h : Clear (·.is .comma) ts) (hspelled : Spelled ts)
    (hsigns : ∀ t ∈ ts, ∀ y ∈ [Symbol.semi, .assign, .plusAssign, .minusAssign], t.is y = false) :
    Side ts where
  balanced _ _ hpair := h.level hpair
  spelled := hspelled
  commas := lacks_of_clear h
  semis t ht := hsigns t ht _ (by simp)
  signs s t ht := hsigns t ht _ (by cases s <;> simp [Sign.symbol])

/-- The assignment `i = 0`. -/
def startAtZero : Assignment where
  left := [.name "i"]
  sign := .set
  right := [.val (.num 0)]
  left_side := side_of_clear (by decide) (by decide) (by decide)
  right_side := side_of_clear (by decide) (by decide) (by decide)
  right_ne_nil := by simp

/-- The assignment `a[j] -= f(2, [1, 2])`. -/
def takeAway : Assignment where
  left := [.name "a", .sym .lbracket, .name "j", .sym .rbracket]
  sign := .subtract
  right := [.name "f", .sym .lparen, .val (.num 2), .sym .comma, .sym .lbracket,
    .val (.num 1), .sym .comma, .val (.num 2), .sym .rbracket, .sym .rparen]
  left_side := side_of_clear (by decide) (by decide) (by decide)
  right_side := side_of_clear (by decide) (by decide) (by decide)
  right_ne_nil := by simp

/-- The assignment `i += 1`. -/
def countUp : Assignment where
  left := [.name "i"]
  sign := .add
  right := [.val (.num 1)]
  left_side := side_of_clear (by decide) (by decide) (by decide)
  right_side := side_of_clear (by decide) (by decide) (by decide)
  right_ne_nil := by simp

/-- The condition `i < 2`. -/
def belowTwo : List Token :=
  [.name "i", .sym .lt, .val (.num 2)]

theorem condition_belowTwo : Condition belowTwo where
  ne_nil := by simp [belowTwo]
  balanced _ _ hpair := (show Nested belowTwo by decide).level hpair
  spelled := by decide
  semis := by decide

/-- Two clauses of two assignments each, and a ladder in the body. -/
theorem parse_while_iff_ladder : Condition belowTwo ∧
    Spelled [.sym .kwIf, .sym .lparen, .name "b", .sym .rparen, .sym .lbrace, .name "c", .sym .semi,
      .sym .rbrace] ∧
    ∃ p, parse (forTokens [startAtZero, takeAway] belowTwo [takeAway, countUp]
        [.sym .kwIf, .sym .lparen, .name "b", .sym .rparen, .sym .lbrace, .name "c", .sym .semi,
          .sym .rbrace]) = .ok p ∧
      parse (whileTokens [startAtZero, takeAway] belowTwo [takeAway, countUp]
        [.sym .kwIf, .sym .lparen, .name "b", .sym .rparen, .sym .lbrace, .name "c", .sym .semi,
          .sym .rbrace]) = .ok p := by
  refine ⟨condition_belowTwo, by decide, _, rfl, ?_⟩
  refine (parse_while_iff condition_belowTwo (by decide) rfl).2 (.inr ?_)
  have hnested : Nested [.sym .kwIf, .sym .lparen, .name "b", .sym .rparen, .sym .lbrace,
      .name "c", .sym .semi, .sym .rbrace] := by decide
  exact hnested.level .curly

/-- The tokens of `a; } b; if (x) { c;`. -/
def earlyEnd : List Token :=
  [.name "a", .sym .semi, .sym .rbrace, .name "b", .sym .semi, .sym .kwIf, .sym .lparen,
    .name "x", .sym .rparen, .sym .lbrace, .name "c", .sym .semi]

/-- Braces may close and open again in what stands between the braces of a `for` statement. Then the
increment of the loop stands in the last block and not in the first. -/
theorem early_end_moves_increment : Condition belowTwo ∧ Spelled earlyEnd ∧
    parse (forTokens [startAtZero] belowTwo [countUp] earlyEnd) =
      .ok [.assign [.name "i"] [.val (.num 0)],
        .loop belowTwo
        [.exp [.name "a"], .assign [.name "i"] [.name "i", .sym .plus, .val (.num 1)]],
        .exp [.name "b"], .ladder [([.name "x"], [.exp [.name "c"]])]] ∧
    parse (whileTokens [startAtZero] belowTwo [countUp] earlyEnd) =
      .ok [.assign [.name "i"] [.val (.num 0)], .loop belowTwo [.exp [.name "a"]], .exp [.name "b"],
        .ladder
        [([.name "x"],
          [.exp [.name "c"], .assign [.name "i"] [.name "i", .sym .plus, .val (.num 1)]])]] ∧
    parse (whileTokens [startAtZero] belowTwo [countUp] earlyEnd) ≠
      parse (forTokens [startAtZero] belowTwo [countUp] earlyEnd) := by
  have hfor : parse (forTokens [startAtZero] belowTwo [countUp] earlyEnd) =
      .ok [.assign [.name "i"] [.val (.num 0)],
        .loop belowTwo
        [.exp [.name "a"], .assign [.name "i"] [.name "i", .sym .plus, .val (.num 1)]],
        .exp [.name "b"], .ladder [([.name "x"], [.exp [.name "c"]])]] := rfl
  have hwhile : parse (whileTokens [startAtZero] belowTwo [countUp] earlyEnd) =
      .ok [.assign [.name "i"] [.val (.num 0)], .loop belowTwo [.exp [.name "a"]], .exp [.name "b"],
        .ladder
        [([.name "x"],
          [.exp [.name "c"], .assign [.name "i"] [.name "i", .sym .plus, .val (.num 1)]])]] := rfl
  refine ⟨condition_belowTwo, by decide, hfor, hwhile, ?_⟩
  rw [hfor, hwhile]
  intro heq
  cases heq

end CountedLoop

end LittleJ
