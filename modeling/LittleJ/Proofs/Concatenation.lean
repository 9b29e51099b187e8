import LittleJ.Proofs.Accepted

/-!
# Programs behind each other

An `else` goes back to the statement before it. Yet a program is read the same with other statements
before it, for it found an `if` of its own for each `else`, and a mark of its own before each `var`.
And it is read the same with more tokens behind it. So the statements of two programs that stand
behind each other are those of the first and then those of the second.
-/

namespace LittleJ

open LittleJ.Parser List Except

variable {skip : Nat} {p : Program}

namespace Parser

variable {block : List Token → Parse Program} {all ts : List Token}

/-! ## Other statements before -/

/-- A statement that is read where nothing stands before it, or after the same token as before, is
read the same behind other statements. -/
theorem statement_behind {prev prev' : Option Token} (hprev : prev = none ∨ prev' = prev)
    {done done' : Done} {t : Token} {used : Nat}
    (h : statement block all prev done t ts = .ok (done', used)) (before : Done) :
    statement block all prev' (done ++ before) t ts = .ok (done' ++ before, used) := by
  have hunmarked : ∀ {ts : List Token}, unmarked block all done ts = .ok (done', used) →
      unmarked block all (done ++ before) ts = .ok (done' ++ before, used) := by
    intro ts h
    obtain ⟨⟨inner, k⟩, hinner, h⟩ := ok_of_bind h
    obtain ⟨hne, h⟩ := ok_of_check h
    obtain ⟨s, hs, h⟩ := ok_of_bind h
    cases h
    simp only [unmarked, hinner, if_neg hne, hs, bind, Except.bind]
    rfl
  cases t with
  | sym y =>
    cases y with
    | varMark =>
      cases h
      rfl
    | kwVar =>
      obtain ⟨⟨made, k⟩, hmade, h⟩ := ok_of_bind h
      cases h
      -- at the very start no `var` may stand, for the mark is missing
      rcases hprev with rfl | rfl
      · cases hmade
      · simp only [statement, hmade, bind, Except.bind, pure, Except.pure, List.append_assoc]
    | kwIf =>
      obtain ⟨g, hg, h⟩ := ok_of_bind h
      cases h
      simp only [statement, hg, bind, Except.bind]
      rfl
    | kwElse =>
      cases done with
      | nil => cases h
      | cons s earlier =>
        cases s with
        | ladder arms =>
          obtain ⟨⟨arm, k⟩, harm, h⟩ := ok_of_bind h
          cases h
          simp only [statement, List.cons_append, harm, bind, Except.bind]
          rfl
        | _ => cases h
    | kwWhile =>
      obtain ⟨g, hg, h⟩ := ok_of_bind h
      cases h
      simp only [statement, hg, bind, Except.bind]
      rfl
    | kwReturn =>
      obtain ⟨⟨inner, k⟩, hinner, h⟩ := ok_of_bind h
      obtain ⟨e, he, h⟩ := ok_of_bind h
      cases h
      simp only [statement, hinner, he, bind, Except.bind]
      rfl
    | kwBreak =>
      cases ts with
      | nil => cases h
      | cons s rest =>
        simp only [statement] at h ⊢
        split at h
        · rename_i hs
          cases h
          rw [if_pos hs]
          rfl
        · cases h
    | kwFor =>
      obtain ⟨⟨made, k⟩, hmade, h⟩ := ok_of_bind h
      cases h
      simp only [statement, hmade, bind, Except.bind, pure, Except.pure, List.append_assoc]
    | _ => exact hunmarked h
  | _ => exact hunmarked h

/-- Statements that are read where nothing stands before them are read the same behind others. -/
theorem statements_behind {prev prev' : Option Token} (hprev : prev = none ∨ prev' = prev)
    {done : Done} (h : statements block all done prev skip ts = .ok p) (all' : List Token)
    (before : Done) :
    statements block all' (done ++ before) prev' skip ts = .ok (before.reverse ++ p) := by
  induction ts generalizing prev prev' done skip with
  | nil =>
    cases h
    rw [statements, reverse_append]
  | cons t ts ih =>
    cases skip with
    | succ skip =>
      rw [statements] at h ⊢
      exact ih (.inr rfl) h
    | zero =>
      rw [statements] at h ⊢
      obtain ⟨⟨done', used⟩, hread, h⟩ := ok_of_bind h
      have hread' : statement block all' prev done t (ts ++ []) = .ok (done', used) :=
        below_statement_append prev done t [] _ hread
      rw [append_nil] at hread'
      rw [statement_behind hprev hread' before]
      exact ih (.inr rfl) h

end Parser

/-! ## Two programs -/

theorem Parser.parse_both {xs ys : List Token} {p q : Program} (hxs : parse xs = .ok p)
    (hys : parse ys = .ok q) :
    parse (xs ++ ys) = .ok (p ++ q) := by
  -- the fuel for both lists is enough for each of them
  have hx : block ((xs ++ ys).length + 1) xs = .ok p :=
    below_block (by rw [length_append]; omega) p hxs
  have hy : block ((xs ++ ys).length + 1) ys = .ok q :=
    below_block (by rw [length_append]; omega) q hys
  rw [block] at hx hy
  rw [parse, block]
  obtain ⟨prev, happend⟩ := statements_append hx (Nat.zero_le _) (xs ++ ys) ys
  have hbehind : statements _ (xs ++ ys) ([] ++ p.reverse) prev 0 ys =
      .ok (p.reverse.reverse ++ q) :=
    statements_behind (.inl rfl) hy (xs ++ ys) p.reverse
  rw [nil_append, reverse_reverse] at hbehind
  rw [happend, hbehind]

/-- **Programs behind each other are read one after the other.** If two lists of tokens are programs
then so are the first and the second together, and the statements are those of the first followed by
those of the second. -/
theorem parse_append {xs ys : List Token} {p q : Program} (hxs : parse xs = .ok p)
    (hys : parse ys = .ok q) :
    parse (xs ++ ys) = .ok (p ++ q) :=
  parse_both hxs hys

/-- A ladder, and behind it a scope with a variable and a ladder of its own that has an `else`. -/
theorem parse_append_ladders :
    parse [.sym .kwIf, .sym .lparen, .name "a", .sym .rparen, .sym .lbrace, .name "b", .sym .semi,
      .sym .rbrace] =
      .ok [.ladder [([.name "a"], [.exp [.name "b"]])]] ∧
    parse [.sym .varMark, .sym .kwVar, .name "c", .sym .assign, .val .null, .sym .semi,
      .sym .kwIf, .sym .lparen,
      .name "c", .sym .rparen, .sym .lbrace, .sym .kwBreak, .sym .semi, .sym .rbrace,
      .sym .kwElse, .sym .lbrace, .sym .kwReturn, .name "c", .sym .semi, .sym .rbrace] =
      .ok [.init "c" [.val .null],
        .ladder [([.name "c"], [.brk]), ([.val (.bool true)], [.ret [.name "c"]])]] ∧
    parse ([.sym .kwIf, .sym .lparen, .name "a", .sym .rparen, .sym .lbrace, .name "b", .sym .semi,
      .sym .rbrace] ++ [.sym .varMark, .sym .kwVar, .name "c", .sym .assign, .val .null, .sym .semi,
      .sym .kwIf, .sym .lparen,
        .name "c", .sym .rparen, .sym .lbrace, .sym .kwBreak, .sym .semi, .sym .rbrace,
        .sym .kwElse, .sym .lbrace, .sym .kwReturn, .name "c", .sym .semi, .sym .rbrace]) =
      .ok ([.ladder [([.name "a"], [.exp [.name "b"]])]] ++ [.init "c" [.val .null],
        .ladder [([.name "c"], [.brk]), ([.val (.bool true)], [.ret [.name "c"]])]]) :=
  ⟨rfl, rfl, parse_append rfl rfl⟩

end LittleJ
