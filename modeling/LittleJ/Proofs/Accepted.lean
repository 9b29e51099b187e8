import LittleJ.Proofs.Continuation
import LittleJ.Proofs.Shapes

/-!
# What is accepted

Whatever the rules of the grammar make a program is read as one, and read as what the rules say.
With the other direction this gives the exact language: a list of tokens is accepted if and only if
it has a derivation.

The induction is on the derivation. Each rule says where the brackets, separators and keywords
stand, so each search of a reader finds them there, and what lies between them is read by induction.
A statement is read behind those before it, since these are read the same with more tokens behind
them. The rules know of no fuel, so what is read with some fuel is read alike with any that is more
than the tokens.
-/

namespace LittleJ

open LittleJ.Bracket LittleJ.TopLevel LittleJ.Grammar LittleJ.Parser List Except Declarator Stmt

namespace Parser

/-! ## Blocks -/

variable {inner code frame : List Token}

/-- A statement that is read to the end of the list makes a longer block. -/
theorem block_snoc {n : Nat} {t : Token} {ts us : List Token} {p : Program} {done : Done}
    (hts : block (n + 1) ts = .ok p)
    (h : ∀ all, statement (block n) all ts.getLast? p.reverse t us = .ok (done, us.length)) :
    block (n + 1) (ts ++ t :: us) = .ok done.reverse := by
  rw [block] at hts ⊢
  rw [statements_past hts (Nat.zero_le _), Option.or_none, statements, h]
  obtain ⟨prev, hend⟩ :
      ∃ prev, statements (block n) (ts ++ t :: us) done (some t) us.length (us ++ []) =
      statements (block n) (ts ++ t :: us) done prev 0 [] := statements_skip us [] done (some t)
  rw [append_nil] at hend
  exact hend

theorem block_behind {n : Nat} {t : Token} {ts us : List Token} {p made : Program}
    (hts : block (n + 1) ts = .ok p)
    (h : ∀ all, statement (block n) all ts.getLast? p.reverse t us =
      .ok (made.reverse ++ p.reverse, us.length)) :
    block (n + 1) (ts ++ t :: us) = .ok (p ++ made) := by
  rw [block_snoc hts h, reverse_append, reverse_reverse, reverse_reverse]

section

variable {n : Nat} {ts : List Token} {p : Program} (hts : block (n + 1) ts = .ok p)

include hts

/-- A statement that no keyword starts is read behind a block. -/
theorem block_sentence {s : Stmt} (hinner : Sentence inner)
    (h : plainStatement (Parser.block n) inner = .ok s) :
    Parser.block (n + 1) (ts ++ (inner ++ [Token.sym .semi])) = .ok (p ++ [s]) := by
  obtain ⟨⟨t, rest, rfl, ht⟩, hlacks⟩ := hinner
  have hread :
      ∀ all, statement (Parser.block n) all ts.getLast? p.reverse t (rest ++ [Token.sym .semi]) =
      .ok ([s].reverse ++ p.reverse, (rest ++ [Token.sym .semi]).length) := by
    intro all
    have hsemi := upToSemicolon_of_lacks hlacks all []
    rw [statement_eq_unmarked ht, unmarked, ← List.cons_append, hsemi]
    simp only [bind, Except.bind, h, List.length_append]
    rfl
  exact block_behind hts hread

theorem block_variables {ds : List Declarator} (hlast : ts.getLast? = some (.sym .varMark))
    (hlacks : Lacks (·.is .semi) inner) (hparts : Separated (·.is .comma) (ds.map tokens) inner)
    (h : declarations (block n) (ds.map tokens) = .ok (ds.map stmt)) :
    block (n + 1) (ts ++ Token.sym .kwVar :: (inner ++ [Token.sym .semi])) =
      .ok (p ++ ds.map stmt) := by
  refine block_behind hts fun all => ?_
  have hsplit := (split_eq_ok_iff (sparesBrackets_is (by decide))).2 hparts
  rw [hlast, statement_var hlacks hsplit h, length_append]
  rfl

theorem block_ladder {condition : Expr} {body : Program} (hframed : Framed inner code frame)
    (hinner : inner ≠ []) (hcode : code ≠ [])
    (hcondition : expression (block n) inner = .ok condition) (hbody : block n code = .ok body) :
    block (n + 1) (ts ++ Token.sym .kwIf :: frame) = .ok (p ++ [ladder [(condition, body)]]) := by
  refine block_behind hts fun all => ?_
  have hguarded := guarded_of_framed hframed hinner hcode hcondition hbody "if" []
  rw [append_nil] at hguarded
  simp only [statement, hguarded, bind, bind]
  rfl

theorem block_loop {condition : Expr} {body : Program} (hframed : Framed inner code frame)
    (hinner : inner ≠ []) (hcode : code ≠ [])
    (hcondition : expression (block n) inner = .ok condition) (hbody : block n code = .ok body) :
    block (n + 1) (ts ++ Token.sym .kwWhile :: frame) = .ok (p ++ [loop condition body]) := by
  refine block_behind hts fun all => ?_
  have hguarded := guarded_of_framed hframed hinner hcode hcondition hbody "while" []
  rw [append_nil] at hguarded
  simp only [statement, hguarded, bind, bind]
  rfl

theorem block_counted {first middle last : List Token} {before after body : Program}
    {condition : Expr} (hframed : Framed inner code frame) (hinner : inner ≠ []) (hcode : code ≠ [])
    (hclauses : threeClauses inner = .ok (first, middle, last))
    (hbefore : clause (block n) first = .ok before)
    (hcondition : expression (block n) middle = .ok condition)
    (hafter : clause (block n) last = .ok after) (hbody : block n code = .ok body) :
    block (n + 1) (ts ++ Token.sym .kwFor :: frame) =
      .ok (p ++ (before ++ [loop condition (body ++ after)])) := by
  refine block_behind hts fun all => ?_
  have hfor := forStatement_of_framed hframed hinner hcode hclauses hbefore hcondition hafter hbody
      []
  rw [append_nil] at hfor
  simp only [statement, hfor, bind, bind]
  rfl

theorem block_returned {e : Expr} (hlacks : Lacks (·.is .semi) inner)
    (h : expression (Parser.block n) inner = .ok e) :
    Parser.block (n + 1) (ts ++ Token.sym .kwReturn :: (inner ++ [Token.sym .semi])) =
      .ok (p ++ [Stmt.ret e]) := by
  refine block_behind hts fun all => ?_
  have hsemi := upToSemicolon_of_lacks hlacks all []
  simp only [statement, hsemi, h, bind, Except.bind, List.length_append]
  rfl

end

/-- One more arm is added to the ladder that stands last. -/
theorem block_arm {n : Nat} {ts us : List Token} {p : Program} {arms : List (Expr × Program)}
    {arm : Expr × Program} (hts : block (n + 1) ts = .ok (p ++ [ladder arms]))
    (h : elseArm (block n) us = .ok (arm, us.length)) :
    block (n + 1) (ts ++ Token.sym .kwElse :: us) = .ok (p ++ [ladder (arms ++ [arm])]) := by
  have hread : ∀ all, statement (block n) all ts.getLast? (p ++ [ladder arms]).reverse
      (.sym .kwElse) us =
      .ok (.ladder (arms ++ [arm]) :: p.reverse, us.length) := by
    intro all
    rw [reverse_concat]
    simp only [statement, h, bind, bind]
    rfl
  rw [block_snoc hts hread, reverse_cons, reverse_reverse]

end Parser

/-! ## Derivations -/

open LittleJ.Parser

namespace Grammar

/-- The phrase is read as it should be, with as much fuel as it has tokens. -/
def Phrase.Read : Phrase → Prop
  | .expression ts e => ∀ n, ts.length ≤ n → Parser.expression (Parser.block n) ts = .ok e
  | .assignment ts target value => ∀ n, ts.length ≤ n → Parser.assignment (Parser.block n) ts =
      .ok (target, value)
  | .shorthand ts target value => ∀ n, ts.length ≤ n → Parser.shorthand (Parser.block n) ts =
      .ok (target, value)
  | .step ts target value =>
    ∀ n, ts.length ≤ n → ∀ parts rest, clauseAssignments (Parser.block n) parts = .ok rest →
      clauseAssignments (Parser.block n) (ts :: parts) = .ok (.assign target value :: rest)
  | .block ts p => ∀ n, ts.length < n → Parser.block n ts = .ok p

theorem clause_of_steps {n : Nat} {ts : List Token} {steps : List Step}
    (hparts : Separated (·.is .comma) (steps.map Step.written) ts) (hlen : ts.length ≤ n)
    (h : ∀ s ∈ steps, (Phrase.step s.written s.target s.value).Read) :
    clause (block n) ts = .ok (steps.map Step.stmt) := by
  have hsplit := (split_eq_ok_iff (sparesBrackets_is (by decide))).2 hparts
  have hshort : ∀ part ∈ steps.map Step.written, part.length ≤ n := by
    intro part hpart
    exact Nat.le_trans (length_le_of_mem_split hsplit part hpart) hlen
  rw [clause, hsplit]
  clear hparts hsplit
  show clauseAssignments (block n) (steps.map Step.written) = _
  induction steps with
  | nil => rfl
  | cons s steps ih =>
    obtain ⟨hs, hsteps⟩ := List.forall_mem_cons.1 h
    rw [map_cons, forall_mem_cons] at hshort
    exact hs n hshort.1 _ _ (ih hsteps hshort.2)

theorem declarations_of_declarators {n : Nat} {ds : List Declarator}
    (hwritten : ∀ d ∈ ds, d.written ≠ []) (hlen : ∀ d ∈ ds, d.written.length ≤ n)
    (h : ∀ d ∈ ds, (Phrase.expression d.written d.value).Read) :
    declarations (block n) (ds.map tokens) = .ok (ds.map stmt) := by
  induction ds with
  | nil => rfl
  | cons d ds ih =>
    rw [forall_mem_cons] at hwritten hlen h
    obtain ⟨name, written, value⟩ := d
    obtain ⟨t, more, rfl⟩ := exists_cons_of_ne_nil hwritten.1
    have hvalue := h.1 n hlen.1
    have hrest := ih hwritten.2 hlen.2 h.2
    rw [map_cons, tokens, declarations, hvalue]
    simp only [bind, bind, hrest]
    rfl

/-- **Whatever has a derivation is read as the derivation says.** -/
theorem read_of_derives {phrase : Phrase} (h : Derives phrase) : phrase.Read := by
  induction h with
  | nil => exact fun _ _ => rfl
  | @token t ts e ht _ ih =>
    intro n hlen
    have hrest := ih n (Nat.le_of_succ_le hlen)
    rw [expression] at hrest
    rw [expression, expressionFrom, ht, if_neg Bool.false_ne_true, hrest]
    rfl
  | @function params code frame ts names body e hframed hparams hcode _ _ ihbody ihrest =>
    intro n hlen
    rw [List.length_cons, List.length_append, length_of_framed hframed] at hlen
    have hbody := ihbody n (by rw [List.length_cons]; omega)
    have hrest := ihrest n (by omega)
    rw [expression] at hrest
    rw [expression, expressionFrom, if_pos (by rfl),
      functionLiteral_of_framed hframed hparams hcode hbody]
    simp only [bind, Except.bind, expressionFrom_skip, hrest]
    rfl
  | assignment ht hnone hleft _ htarget ihleft ihright =>
    intro n hlen
    rw [List.length_append, List.length_cons] at hlen
    exact assignment_of_target ht hnone (head_of_derives hleft htarget) (ihleft n (by omega))
      (ihright n (by omega)) htarget
  | plus ht hnone _ ih =>
    intro n hlen
    refine shorthand_plus ht hnone (ih n ?_)
    rwa [List.length_append, List.length_cons] at hlen ⊢
  | minus ht hnone hplus _ ih =>
    intro n hlen
    refine shorthand_minus ht hnone hplus (ih n ?_)
    rwa [List.length_append, List.length_cons] at hlen ⊢
  | set hassign ih =>
    intro n hlen parts rest hrest
    refine clauseAssignments_set ?_ (ih n hlen) hrest
    cases hassign with
    | assignment ht => simp [ht]
  | change hnone hshort ih =>
    intro n hlen parts rest hrest
    refine clauseAssignments_change ?_ ?_ (ih n hlen) hrest
    · rw [List.any_eq_false]
      intro u hu
      rw [hnone u hu]
      exact Bool.false_ne_true
    · cases hshort with
      | plus ht => simp [ht]
      | minus ht => simp [ht]
  | empty =>
    intro n hlen
    obtain ⟨m, rfl⟩ : ∃ m, n = m + 1 := ⟨n - 1, by omega⟩
    rfl
  | @mark ts p _ ih =>
    intro n hlen
    obtain ⟨m, rfl⟩ : ∃ m, n = m + 1 := ⟨n - 1, by omega⟩
    rw [List.length_append] at hlen
    have hread : ∀ all, statement (block m) all ts.getLast? p.reverse (.sym .varMark) [] =
        .ok (p.reverse, 0) :=
      fun _ => rfl
    rw [block_snoc (ih (m + 1) (by omega)) hread, List.reverse_reverse]
  | @declared ts inner p ds _ hlast hlacks hparts hwritten _ ih ihds =>
    intro n hlen
    obtain ⟨m, rfl⟩ : ∃ m, n = m + 1 := ⟨n - 1, by omega⟩
    simp only [List.length_append, List.length_cons, List.length_nil] at hlen
    refine block_variables (ih (m + 1) (by omega)) hlast hlacks hparts
      (declarations_of_declarators hwritten ?_ ihds)
    intro d hd
    have hpart :=
      length_le_of_mem_split ((split_eq_ok_iff (sparesBrackets_is (by decide))).2 hparts) d.tokens
      (List.mem_map_of_mem hd)
    simp only [Declarator.tokens, List.length_cons] at hpart
    omega
  | ladder _ hframed hinner hcode _ _ ih ihcondition ihbody =>
    intro n hlen
    obtain ⟨m, rfl⟩ : ∃ m, n = m + 1 := ⟨n - 1, by omega⟩
    rw [List.length_append, List.length_cons, length_of_framed hframed] at hlen
    exact block_ladder (ih (m + 1) (by omega)) hframed hinner hcode (ihcondition m (by omega))
      (ihbody m (by omega))
  | elseIf _ ht hframed hinner hcode _ _ ih ihcondition ihbody =>
    intro n hlen
    obtain ⟨m, rfl⟩ : ∃ m, n = m + 1 := ⟨n - 1, by omega⟩
    rw [List.length_append, List.length_cons, List.length_cons, length_of_framed hframed] at hlen
    exact block_arm (ih (m + 1) (by omega))
      (elseArm_if ht hframed hinner hcode (ihcondition m (by omega)) (ihbody m (by omega)))
  | otherwise _ hbraces _ ih ihbody =>
    intro n hlen
    obtain ⟨m, rfl⟩ : ∃ m, n = m + 1 := ⟨n - 1, by omega⟩
    rw [List.length_append, List.length_cons, hbraces.length] at hlen
    exact block_arm (ih (m + 1) (by omega)) (elseArm_otherwise hbraces (ihbody m (by omega)))
  | loop _ hframed hinner hcode _ _ ih ihcondition ihbody =>
    intro n hlen
    obtain ⟨m, rfl⟩ : ∃ m, n = m + 1 := ⟨n - 1, by omega⟩
    rw [List.length_append, List.length_cons, length_of_framed hframed] at hlen
    exact block_loop (ih (m + 1) (by omega)) hframed hinner hcode (ihcondition m (by omega))
      (ihbody m (by omega))
  | counted _ hframed hs₁ hs₂ hnone hmiddle hcode hbefore hafter _ _ _ ih ihsteps
      ihcondition ihbody =>
    intro n hlen
    obtain ⟨m, rfl⟩ : ∃ m, n = m + 1 := ⟨n - 1, by omega⟩
    rw [List.length_append, List.length_cons, length_of_framed hframed] at hlen
    simp only [List.length_append, List.length_cons] at hlen
    rw [List.forall_mem_append] at ihsteps
    exact block_counted (ih (m + 1) (by omega)) hframed (by simp) hcode
      (threeClauses_of_forall hs₁ hs₂ hnone hmiddle)
      (clause_of_steps hbefore (show _ ≤ m by omega) ihsteps.1) (ihcondition m (by omega))
      (clause_of_steps hafter (show _ ≤ m by omega) ihsteps.2) (ihbody m (by omega))
  | returned _ hlacks _ ih ihe =>
    intro n hlen
    obtain ⟨m, rfl⟩ : ∃ m, n = m + 1 := ⟨n - 1, by omega⟩
    simp only [List.length_append, List.length_cons, List.length_nil] at hlen
    exact block_returned (ih (m + 1) (by omega)) hlacks (ihe m (by omega))
  | @broken ts p _ ih =>
    intro n hlen
    obtain ⟨m, rfl⟩ : ∃ m, n = m + 1 := ⟨n - 1, by omega⟩
    rw [List.length_append] at hlen
    have hread : ∀ all, statement (block m) all ts.getLast? p.reverse (.sym .kwBreak) [.sym .semi] =
        .ok ([Stmt.brk].reverse ++ p.reverse, 1) := fun _ => rfl
    exact block_behind (ih (m + 1) (by omega)) hread
  | assign _ hinner hparted _ ih ihsides =>
    intro n hlen
    obtain ⟨m, rfl⟩ : ∃ m, n = m + 1 := ⟨n - 1, by omega⟩
    simp only [List.length_append, List.length_cons, List.length_nil] at hlen
    exact block_sentence (ih (m + 1) (by omega)) hinner
      (plainStatement_of_assignment hparted (ihsides m (by omega)))
  | assignShort _ hinner hnot hparted _ ih ihsides =>
    intro n hlen
    obtain ⟨m, rfl⟩ : ∃ m, n = m + 1 := ⟨n - 1, by omega⟩
    simp only [List.length_append, List.length_cons, List.length_nil] at hlen
    exact block_sentence (ih (m + 1) (by omega)) hinner
      (plainStatement_of_shorthand hinner.whole hnot hparted (ihsides m (by omega)))
  | exp _ hinner hassign hplus hminus hhead _ ih ihe =>
    intro n hlen
    obtain ⟨m, rfl⟩ : ∃ m, n = m + 1 := ⟨n - 1, by omega⟩
    simp only [List.length_append, List.length_cons, List.length_nil] at hlen
    exact block_sentence (ih (m + 1) (by omega)) hinner
      (plainStatement_of_expression hinner.whole hassign hplus hminus hhead (ihe m (by omega)))

end Grammar

namespace Parser

/-- **A block that is read with some fuel is read alike with more fuel than it has tokens.** -/
theorem below_block {n m : Nat} {ts : List Token} (hlen : ts.length < m) :
    Below (block n ts) (block m ts) :=
  fun _ h => read_of_derives (derives_block h) m hlen

/-- The fuel of a program is enough for each of its blocks. -/
theorem parse_of_block {n : Nat} {ts : List Token} {p : Program} (h : block n ts = .ok p) :
    parse ts = .ok p :=
  below_block (Nat.lt_succ_self _) p h

end Parser

/-- **A list of tokens is a program exactly if it has a derivation, and it is read as the derivation
says.** The rules ask for tokens in every block but that of an `else`. -/
theorem parse_eq_ok_iff_derives (ts : List Token) (p : Program) :
    parse ts = .ok p ↔ Grammar.Derives (.block ts p) := by
  constructor
  · intro h
    exact derives_block h
  · intro h
    exact read_of_derives h (ts.length + 1) (Nat.lt_succ_self _)

/-- An `else` with an empty block, an `else` behind another, parameters with a comma missing and two
too many, and a `var` statement with a comma behind its last variable: all four are accepted. -/
theorem lenient_texts_accepted :
    parseText "if (a) \x7b b; \x7d else \x7b \x7d" =
      .ok [.ladder [([.name "a"], [.exp [.name "b"]]), ([.val (.bool true)], [])]] ∧
    parseText "if (a) \x7b b; \x7d else \x7b c; \x7d else \x7b d; \x7d" =
      .ok [.ladder [([.name "a"], [.exp [.name "b"]]), ([.val (.bool true)], [.exp [.name "c"]]),
        ([.val (.bool true)], [.exp [.name "d"]])]] ∧
    parseText "f = function (a b,,) \x7b c; \x7d;" =
      .ok
      [.assign [.name "f"] [.func (.mk ["a", "b"] [.exp [.name "c"]] [.name "c", .sym .semi])]] ∧
    parseText "var a = b, ;" = .ok [.init "a" [.name "b"]] :=
  ⟨rfl, rfl, rfl, rfl⟩

end LittleJ
