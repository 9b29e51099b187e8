import LittleJ.Proofs.Gap
import LittleJ.Proofs.Readers

/-!
# Reading code with a gap

Reading code with a gap and then filling the gap gives what reading the filled code gives, for every
plain string; if one of the two fails then so does the other. There is one lemma for each reader. A
reader takes the reader of blocks as an argument, so each lemma assumes the statement for blocks,
and the induction on the nesting of blocks comes last.

One comparison is by a text that plain strings may have: a `var` must stand right after the mark of
a scope's start. What stands before a statement is never a gap, because a statement ends with a
semicolon or a closing brace.
-/

namespace LittleJ

open Token TopLevel List

namespace Parser

variable {w : String} {α β γ : Type} {f : α → β}

/-- What a check fails with is not compared. -/
theorem alike_fail {e e' : Error} : Alike f (fail e : Parse α) (fail e' : Parse β) :=
  .error _ _

/-- A check that fails if `p` holds, and what follows if it does not. -/
theorem alike_check {p : Prop} [Decidable p] {e e' : Error} {k : Unit → Parse α}
    {k' : Unit → Parse β} (h : ¬p → Alike f (k ()) (k' ())) :
    Alike f (if p then fail e >>= k else k ()) (if p then fail e' >>= k' else k' ()) :=
  Alike.ite (fun _ => .error _ _) h

theorem alike_failAt {e e' : String → Error} {ts ts' : List Token} :
    Alike f (failAt e ts : Parse α) (failAt e' ts' : Parse β) := by
  obtain ⟨x, hx⟩ := failAt_eq e ts
  obtain ⟨y, hy⟩ := failAt_eq e' ts'
  rw [hx, hy]
  exact .error x y

theorem alike_searched {x : Except (List Token) α} {y : Except (List Token) β} (h : Alike f x y) :
    Alike f (searched x) (searched y) := by
  cases h with
  | ok a => exact .ok a
  | error rest rest' => exact alike_failAt

section

variable (hw : Plain w)

include hw

theorem alike_partner (ts : List Token) :
    Alike id (partner ts) (partner (ts.map (Token.fill w))) := by
  unfold partner
  rw [Bracket.partner?_fill hw]
  cases Bracket.partner? ts with
  | none => exact alike_failAt
  | some k => exact .ok k

theorem alike_upToSemicolon (all all' ts : List Token) :
    Alike (fun r => (r.1.map (Token.fill w), r.2)) (upToSemicolon all ts)
      (upToSemicolon all' (ts.map (Token.fill w))) := by
  unfold upToSemicolon
  refine (alike_searched (index?_fill hw (fun t => is_fill t .semi) ts)).same
    fun k _ => ?_
  cases k with
  | none => exact alike_failAt
  | some k => dsimp only; rw [← map_take]; exact .ok (ts.take k, k)

theorem startsWith_fill {s : String} (hs : s ∈ searchedTexts) (ts : List Token) :
    startsWith s (ts.map (Token.fill w)) = startsWith s ts := by
  cases ts with
  | nil => rfl
  | cons t ts => exact reads_fill hw hs t

omit hw in
theorem inside_fill (k : Nat) (ts : List Token) :
    inside k (ts.map (Token.fill w)) = (inside k ts).map (Token.fill w) := by
  rw [inside, inside, map_drop, map_take]

theorem params?_fill (ts : List Token) : params? (ts.map (Token.fill w)) = params? ts := by
  induction ts with
  | nil => rfl
  | cons t ts ih =>
    have hcomma := reads_fill hw (s := ",") (by decide) t
    cases t with
    | name s => simp only [map_cons, Token.fill, params?, ih]
    | row us =>
      cases us with
      | nil =>
        simp only [Token.fill] at hcomma
        simp only [map_cons, Token.fill, params?, hcomma, ih]
      | cons u us => simp only [map_cons, Token.fill, params?, ih]
    | _ =>
      simp only [Token.fill] at hcomma
      simp only [map_cons, Token.fill, params?, hcomma, ih]

theorem any_reads_fill {s : String} (hs : s ∈ searchedTexts) (ts : List Token) :
    (ts.map (Token.fill w)).any (·.reads s) = ts.any (·.reads s) := by
  rw [any_map]
  exact any_congr rfl fun t => reads_fill hw hs t

theorem findIdx?_reads_fill {s : String} (hs : s ∈ searchedTexts) (ts : List Token) :
    (ts.map (Token.fill w)).findIdx? (·.reads s) = ts.findIdx? (·.reads s) := by
  rw [findIdx?_map]
  congr 1
  funext t
  exact reads_fill hw hs t

/-! ## Expressions -/

variable {block block' : List Token → Parse Program}
  (hblock : ∀ ts, Alike (map (Stmt.fill w)) (block ts) (block' (ts.map (Token.fill w))))

include hblock

theorem alike_functionLiteral (ts : List Token) :
    Alike (fun r => (r.1.fill w, r.2)) (functionLiteral block ts)
      (functionLiteral block' (ts.map (Token.fill w))) := by
  unfold functionLiteral
  rw [startsWith_fill hw (by decide)]
  refine alike_check fun _ => (alike_partner hw ts).same fun rp _ => ?_
  dsimp only
  rw [← map_drop, startsWith_fill hw (by decide)]
  refine alike_check fun _ => (alike_partner hw _).same fun rc _ => ?_
  refine alike_check fun _ => ?_
  rw [inside_fill, inside_fill, params?_fill hw]
  cases params? (inside rp ts) with
  | none => exact alike_fail
  | some params =>
    refine (hblock (.sym .varMark :: inside rc (ts.drop (rp + 1)))).bind fun body _ => ?_
    refine Alike.of_eq ?_
    simp [Function.fill]

theorem alike_expressionFrom (skip : Nat) (ts : List Token) :
    Alike (map (Token.fill w)) (expressionFrom block skip ts)
      (expressionFrom block' skip (ts.map (Token.fill w))) := by
  induction ts generalizing skip with
  | nil => rw [map_nil, expressionFrom, expressionFrom]; exact .ok []
  | cons t ts ih =>
    rw [map_cons]
    cases skip with
    | succ skip => rw [expressionFrom, expressionFrom]; exact ih skip
    | zero =>
      rw [expressionFrom, expressionFrom, is_fill]
      refine Alike.ite (fun _ => ?_) fun _ => ?_
      · refine (alike_functionLiteral hw hblock ts).bind fun r _ => ?_
        refine (ih r.2).bind fun e _ => ?_
        exact .ok (.func r.1 :: e)
      · exact (ih 0).bind fun e _ => .ok (t :: e)

theorem alike_expression (ts : List Token) : Alike (map (Token.fill w)) (expression block ts)
      (expression block' (ts.map (Token.fill w))) :=
  alike_expressionFrom hw hblock 0 ts

/-! ## Statements -/

omit hw hblock in
/-- What a guarded statement comes to, with its gaps filled. -/
def Guarded.fill (w : String) (g : Guarded) : Guarded :=
  ⟨g.condition.map (Token.fill w), g.code.map (Stmt.fill w), g.used⟩

theorem alike_guarded (word : String) (ts : List Token) :
    Alike (Guarded.fill w) (guarded block word ts)
      (guarded block' word (ts.map (Token.fill w))) := by
  unfold guarded
  rw [startsWith_fill hw (by decide)]
  refine alike_check fun _ => (alike_partner hw ts).same fun rp _ => ?_
  refine alike_check fun _ => ?_
  dsimp only
  rw [← map_drop, startsWith_fill hw (by decide)]
  refine alike_check fun _ => (alike_partner hw _).same fun rc _ => ?_
  refine alike_check fun _ => ?_
  rw [inside_fill, inside_fill]
  refine (alike_expression hw hblock _).bind fun condition _ => ?_
  exact (hblock _).bind fun code _ => .ok (Guarded.mk condition code (rp + 1 + (rc + 1)))

omit hblock in
theorem alike_isTarget (fuel : Nat) (ts : List Token) :
    Alike id (isTarget fuel ts) (isTarget fuel (ts.map (Token.fill w))) := by
  induction fuel generalizing ts with
  | zero => rw [isTarget, isTarget]; exact .ok false
  | succ fuel ih =>
    cases ts with
    | nil => rw [map_nil, isTarget]; exact .ok false
    | cons t ts =>
      cases ts with
      | nil =>
        rw [map_cons, map_nil, isTarget, isTarget, isName_fill]
        exact .ok _
      | cons t' ts =>
        have hopener := Bracket.opener?_fill hw (t :: t' :: ts)
        have hlast : ((t :: t' :: ts).map (Token.fill w)).getLast?.map (·.is .rbracket) =
            (t :: t' :: ts).getLast?.map (·.is .rbracket) := by
          rw [getLast?_map, Option.map_map]
          congr 1
          funext u
          exact is_fill u .rbracket
        have hat : ∀ k : Nat, ((t :: t' :: ts).map (Token.fill w))[k]?.map (·.is .rbracket) =
            (t :: t' :: ts)[k]?.map (·.is .rbracket) := by
          intro k
          rw [getElem?_map, Option.map_map]
          congr 1
          funext u
          exact is_fill u .rbracket
        have htake := fun k => map_take (f := Token.fill w) (l := t :: t' :: ts) (i := k)
        simp only [map_cons] at hopener hlast hat htake ⊢
        rw [isTarget_cons_cons, isTarget_cons_cons, hopener, hlast, isName_fill]
        refine Alike.ite (fun _ => .ok false) fun _ => Alike.ite (fun _ => ?_) fun _ => .ok false
        cases Bracket.opener? (t :: t' :: ts) with
        | none => exact alike_fail
        | some k =>
          dsimp only
          rw [hat, ← htake]
          exact Alike.ite (fun _ => .ok true) fun _ =>
            Alike.ite (fun _ => ih _) fun _ => .ok false

/-- The two sides of an assignment with their gaps filled. -/
abbrev fillSides (w : String) (sides : Expr × Expr) : Expr × Expr :=
  (sides.1.map (Token.fill w), sides.2.map (Token.fill w))

theorem alike_assignment (ts : List Token) :
    Alike (fillSides w) (assignment block ts) (assignment block' (ts.map (Token.fill w))) := by
  unfold assignment
  have hhead : (ts.map (Token.fill w)).head?.map isName = ts.head?.map isName := by
    cases ts with
    | nil => rfl
    | cons t ts => simp [isName_fill]
  rw [hhead, findIdx?_reads_fill hw (by decide)]
  refine Alike.ite (fun _ => ?_) fun _ => ?_
  · obtain ⟨x, hx⟩ := failAt_eq .badTarget ts
    obtain ⟨y, hy⟩ := failAt_eq .badTarget (ts.map (Token.fill w))
    rw [hx, hy]
    exact .error x y
  · cases ts.findIdx? (·.reads "=") with
    | none => exact .error _ _
    | some k =>
      dsimp only
      rw [← map_take, ← map_drop]
      refine (alike_expression hw hblock _).bind fun target _ => ?_
      refine (alike_expression hw hblock _).bind fun value _ => ?_
      rw [length_map]
      refine (alike_isTarget hw target.length target).same fun b _ => ?_
      exact Alike.ite (fun _ => .ok (target, value)) fun _ => alike_failAt

theorem alike_shorthand (ts : List Token) :
    Alike (fillSides w) (shorthand block ts) (shorthand block' (ts.map (Token.fill w))) := by
  unfold shorthand
  rw [any_reads_fill hw (by decide)]
  generalize hword : (if ts.any (·.reads "+=") then ("+=", Symbol.plus) else ("-=", Symbol.minus)) =
    p
  have hmem : p.1 ∈ searchedTexts := by
    rw [← hword]
    split <;> decide
  obtain ⟨word, op⟩ := p
  dsimp only at hmem ⊢
  rw [findIdx?_reads_fill hw hmem]
  cases ts.findIdx? (·.reads word) with
  | none => exact .error _ _
  | some k =>
    dsimp only
    have hjoined :
        (ts.map (Token.fill w)).take k ++ .sym .assign :: (ts.map (Token.fill w)).drop (k + 1) =
        (ts.take k ++ .sym .assign :: ts.drop (k + 1)).map (Token.fill w) := by
      simp [map_take, map_drop, Token.fill]
    rw [hjoined]
    refine (alike_assignment hw hblock _).bind fun sides _ => ?_
    refine Alike.of_eq ?_
    simp [Token.fill]

theorem alike_clauseAssignments (parts : List (List Token)) :
    Alike (map (Stmt.fill w)) (clauseAssignments block parts)
      (clauseAssignments block' (parts.map (map (Token.fill w)))) := by
  induction parts with
  | nil => rw [map_nil, clauseAssignments, clauseAssignments]; exact .ok []
  | cons part parts ih =>
    rw [map_cons, clauseAssignments, clauseAssignments, any_reads_fill hw (by decide),
      any_reads_fill hw (by decide), any_reads_fill hw (by decide)]
    have hrest : ∀ sides : Expr × Expr, Alike (map (Stmt.fill w))
        (do return .assign sides.1 sides.2 :: (← clauseAssignments block parts))
        (do return .assign (fillSides w sides).1 (fillSides w sides).2 ::
          (← clauseAssignments block' (parts.map (map (Token.fill w))))) := by
      intro sides
      refine ih.bind fun p _ => Alike.of_eq ?_
      simp [Stmt.fill]
    refine Alike.ite (fun _ => ?_) fun _ => Alike.ite (fun _ => ?_) fun _ => ?_
    · exact (alike_assignment hw hblock part).bind fun sides _ => hrest sides
    · exact (alike_shorthand hw hblock part).bind fun sides _ => hrest sides
    · exact .error _ _

theorem alike_clause (ts : List Token) :
    Alike (map (Stmt.fill w)) (clause block ts) (clause block' (ts.map (Token.fill w))) := by
  unfold clause
  refine (alike_searched (split_fill hw (fun t => is_fill t .comma) ts)).bind
    fun parts _ => ?_
  exact alike_clauseAssignments hw hblock parts

omit hblock in
theorem alike_threeClauses (ts : List Token) :
    Alike (fun r => (r.1.map (Token.fill w), r.2.1.map (Token.fill w), r.2.2.map (Token.fill w)))
      (threeClauses ts) (threeClauses (ts.map (Token.fill w))) := by
  unfold threeClauses
  rw [findIdx?_reads_fill hw (by decide)]
  cases ts.findIdx? (·.reads ";") with
  | none => exact alike_fail
  | some s₁ =>
    dsimp only
    rw [← map_drop, findIdx?_reads_fill hw (by decide)]
    cases (ts.drop (s₁ + 1)).findIdx? (·.reads ";") with
    | none => exact alike_fail
    | some s₂ =>
      dsimp only
      rw [← map_drop, any_reads_fill hw (by decide), ← map_take, ← map_take]
      exact Alike.ite (fun _ => alike_fail) fun _ =>
        .ok (ts.take s₁, (ts.drop (s₁ + 1)).take s₂, (ts.drop (s₁ + 1)).drop (s₂ + 1))

omit hw hblock in
/-- Statements read by a reader, with their gaps filled, and the number of tokens used. -/
abbrev fillRead (w : String) (r : Program × Nat) : Program × Nat :=
  (r.1.map (Stmt.fill w), r.2)

theorem alike_forStatement (ts : List Token) : Alike (fillRead w) (forStatement block ts)
      (forStatement block' (ts.map (Token.fill w))) := by
  unfold forStatement
  rw [startsWith_fill hw (by decide)]
  refine alike_check fun _ => (alike_partner hw ts).same fun rp _ => ?_
  refine alike_check fun _ => ?_
  dsimp only
  rw [← map_drop, startsWith_fill hw (by decide)]
  refine alike_check fun _ => (alike_partner hw _).same fun rc _ => ?_
  refine alike_check fun _ => ?_
  rw [inside_fill, inside_fill]
  refine (alike_threeClauses hw _).bind fun clauses _ => ?_
  obtain ⟨first, middle, last⟩ := clauses
  refine (alike_clause hw hblock first).bind fun before _ => ?_
  refine (alike_expression hw hblock middle).bind fun condition _ => ?_
  refine (alike_clause hw hblock last).bind fun after _ => ?_
  refine (hblock _).bind fun code _ => ?_
  refine Alike.of_eq ?_
  simp [Stmt.fill]

theorem alike_declarations (parts : List (List Token)) :
    Alike (map (Stmt.fill w)) (declarations block parts)
      (declarations block' (parts.map (map (Token.fill w)))) := by
  induction parts with
  | nil => rw [map_nil, declarations, declarations]; exact .ok []
  | cons part parts ih =>
    rw [map_cons]
    by_cases h : ∃ s t ts, part = .name s :: .sym .assign :: t :: ts
    · obtain ⟨s, t, ts, rfl⟩ := h
      simp only [map_cons, Token.fill, declarations]
      refine (alike_expression hw hblock (t :: ts)).bind fun value _ => ?_
      refine ih.bind fun p _ => Alike.of_eq ?_
      simp [Stmt.fill]
    · rw [declarations_eq_fail parts (fun s t ts he => h ⟨s, t, ts, he⟩),
        declarations_eq_fail _ fun s t ts he => ?_]
      · exact alike_fail
      · -- only what has the form of a declaration is filled to one
        obtain ⟨a, rest, rfl, ha, he⟩ := List.map_eq_cons_iff.mp he
        obtain ⟨b, rest, rfl, hb, he⟩ := List.map_eq_cons_iff.mp he
        obtain ⟨c, rest, rfl, _, _⟩ := List.map_eq_cons_iff.mp he
        exact h ⟨s, c, rest, by rw [fill_eq_name ha, fill_eq_sym hb]⟩

theorem alike_varStatement (all all' : List Token) {prev : Option Token}
    (hprev : prev ≠ some (.row [])) (ts : List Token) :
    Alike (fillRead w) (varStatement block all prev ts)
      (varStatement block' all' (prev.map (Token.fill w)) (ts.map (Token.fill w))) := by
  unfold varStatement
  have hmark : (prev.map (Token.fill w)).map (·.reads "var?") = prev.map (·.reads "var?") := by
    cases prev with
    | none => rfl
    | some t =>
      have hne : t ≠ .row [] := fun h => hprev (by rw [h])
      simp [reads_fill_of_ne hne]
  rw [hmark]
  refine alike_check fun _ => ?_
  refine (alike_upToSemicolon hw all all' ts).bind fun r _ => ?_
  obtain ⟨inner, k⟩ := r
  refine (alike_searched (split_fill hw (fun t => is_fill t .comma) inner)).bind
    fun parts _ => ?_
  exact (alike_declarations hw hblock parts).bind fun made _ => .ok (made, k + 1)

theorem alike_elseArm (ts : List Token) :
    Alike (fun r => (Stmt.fillArm w r.1, r.2)) (elseArm block ts)
      (elseArm block' (ts.map (Token.fill w))) := by
  unfold elseArm
  cases ts with
  | nil => exact alike_fail
  | cons t rest =>
    have hinside := fun k => inside_fill (w := w) k (t :: rest)
    simp only [map_cons] at hinside ⊢
    rw [reads_fill hw (by decide), reads_fill hw (by decide)]
    refine Alike.ite (fun _ => ?_) fun _ => Alike.ite (fun _ => ?_) fun _ => alike_fail
    · exact (alike_guarded hw hblock "else if" rest).bind fun g _ =>
        .ok ((g.condition, g.code), g.used + 1)
    · refine (alike_partner hw (t :: rest)).same fun rc _ => ?_
      rw [hinside]
      exact (hblock _).bind fun code _ => .ok (([val (.bool true)], code), rc + 1)

theorem alike_plainStatement (ts : List Token) : Alike (Stmt.fill w) (plainStatement block ts)
      (plainStatement block' (ts.map (Token.fill w))) := by
  have hparted : ∀ y : Symbol, Alike id (searched (isParted (·.is y) ts))
      (searched (isParted (·.is y) (ts.map (Token.fill w)))) :=
    fun y => alike_searched (isParted_fill hw (fun t => is_fill t y) ts)
  have hhead : (ts.map (Token.fill w)).head?.map (·.is .kwFunction) =
      ts.head?.map (·.is .kwFunction) := by
    cases ts with
    | nil => rfl
    | cons t ts => simp [is_fill]
  unfold plainStatement
  rw [hhead]
  refine (hparted .assign).same fun b _ => Alike.ite (fun _ => ?_) fun _ => ?_
  · refine (alike_assignment hw hblock ts).bind fun sides _ => Alike.of_eq ?_
    simp [Stmt.fill]
  · refine (hparted .plusAssign).same fun b₁ _ => ?_
    refine (hparted .minusAssign).same fun b₂ _ => Alike.ite (fun _ => ?_) fun _ => ?_
    · refine (alike_shorthand hw hblock ts).bind fun sides _ => Alike.of_eq ?_
      simp [Stmt.fill]
    · refine Alike.ite (fun _ => alike_fail) fun _ => ?_
      refine (alike_expression hw hblock ts).bind fun e _ => Alike.of_eq ?_
      simp [Stmt.fill]

/-- A statement that no keyword starts. -/
theorem alike_unmarked (all all' : List Token) (done : Done) (ts : List Token) :
    Alike (fillRead w) (unmarked block all done ts)
      (unmarked block' all' (done.map (Stmt.fill w)) (ts.map (Token.fill w))) := by
  refine (alike_upToSemicolon hw all all' ts).bind fun r _ => ?_
  obtain ⟨inner, k⟩ := r
  dsimp only
  rw [isEmpty_map]
  refine alike_check fun _ => ?_
  exact (alike_plainStatement hw hblock inner).bind fun s _ => .ok (s :: done, k)

theorem alike_statement (all all' : List Token) {prev : Option Token}
    (hprev : prev ≠ some (.row [])) (done : Done) (t : Token) (ts : List Token) :
    Alike (fillRead w) (statement block all prev done t ts)
      (statement block' all' (prev.map (Token.fill w)) (done.map (Stmt.fill w)) (t.fill w)
        (ts.map (Token.fill w))) := by
  -- whatever is no keyword is read the same way, a gap too
  have hunmarked := alike_unmarked hw hblock all all' done (t :: ts)
  rw [map_cons] at hunmarked
  cases t with
  | sym y =>
    cases y with
    | varMark => exact .ok (done, 0)
    | kwVar =>
      refine (alike_varStatement hw hblock all all' hprev ts).bind fun r _ => Alike.of_eq ?_
      simp
    | kwIf =>
      refine (alike_guarded hw hblock "if" ts).bind fun g _ => Alike.of_eq ?_
      simp [Stmt.fill, Stmt.fillArm, Guarded.fill]
    | kwElse =>
      cases done with
      | nil => exact alike_fail
      | cons s before =>
        cases s with
        | ladder arms =>
          simp only [statement, Token.fill, map_cons, Stmt.fill]
          refine (alike_elseArm hw hblock ts).bind fun r _ => Alike.of_eq ?_
          simp [Stmt.fill]
        | _ => exact alike_fail
    | kwWhile =>
      refine (alike_guarded hw hblock "while" ts).bind fun g _ => Alike.of_eq ?_
      simp [Stmt.fill, Guarded.fill]
    | kwReturn =>
      refine (alike_upToSemicolon hw all all' ts).bind fun r _ => ?_
      refine (alike_expression hw hblock r.1).bind fun e _ => Alike.of_eq ?_
      simp [Stmt.fill]
    | kwBreak =>
      cases ts with
      | nil => exact .error _ _
      | cons s rest =>
        simp only [statement, Token.fill, map_cons, is_fill]
        refine Alike.ite (fun _ => Alike.of_eq ?_) fun _ => alike_fail
        simp [Stmt.fill]
    | kwFor =>
      refine (alike_forStatement hw hblock ts).bind fun r _ => Alike.of_eq ?_
      simp
    | _ => exact hunmarked
  | row us => cases us <;> exact hunmarked
  | _ => exact hunmarked

/-- Reading statements to the end. Where a statement starts, no gap was passed just before. -/
theorem alike_statements (all all' : List Token) (done : Done) (prev : Option Token) (skip : Nat)
    (ts : List Token) (hprev : skip = 0 → prev ≠ some (.row []))
    (hskip : ∀ k, skip = k + 1 → ts[k]? ≠ some (.row [])) :
    Alike (map (Stmt.fill w)) (statements block all done prev skip ts)
      (statements block' all' (done.map (Stmt.fill w)) (prev.map (Token.fill w)) skip
        (ts.map (Token.fill w))) := by
  induction ts generalizing done prev skip with
  | nil =>
    rw [map_nil, statements, statements, ← map_reverse]
    exact .ok done.reverse
  | cons t ts ih =>
    rw [map_cons]
    cases skip with
    | succ skip =>
      rw [statements, statements]
      refine ih done (some t) skip (fun h => ?_) fun k hk => ?_
      · have := hskip 0 (by omega)
        simpa using this
      · have := hskip (k + 1) (by omega)
        simpa using this
    | zero =>
      rw [statements, statements]
      refine (alike_statement hw hblock all all' (hprev rfl) done t ts).bind fun r hr => ?_
      obtain ⟨done', used⟩ := r
      -- the token just passed ends a statement, and such a token is no gap
      obtain ⟨u, hu, hlast⟩ := (statement_inv hr).last
      have hgap : u ≠ .row [] := by
        rintro rfl
        simp [is, reads] at hlast
      refine ih done' (some t) used (fun h => ?_) fun k hk => ?_
      · subst h
        simp only [getElem?_cons_zero, Option.some.injEq] at hu
        simpa [hu] using hgap
      · subst hk
        rw [getElem?_cons_succ] at hu
        rw [hu]
        simpa using hgap

end

/-- **Reading blocks goes with filling gaps.** -/
theorem alike_block (hw : Plain w) (fuel : Nat) (ts : List Token) :
    Alike (map (Stmt.fill w)) (block fuel ts) (block fuel (ts.map (Token.fill w))) := by
  induction fuel generalizing ts with
  | zero => exact .error _ _
  | succ fuel ih =>
    rw [block, block]
    exact alike_statements hw ih ts _ [] none 0 ts (by simp) (by simp)

end Parser

/-- **Reading a program goes with filling gaps by a plain string.** -/
theorem alike_parse {w : String} (hw : Plain w) (ts : List Token) :
    Alike (map (Stmt.fill w)) (parse ts) (parse (ts.map (Token.fill w))) := by
  unfold parse
  rw [length_map]
  exact Parser.alike_block hw _ ts

end LittleJ
