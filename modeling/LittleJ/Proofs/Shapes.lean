import LittleJ.Proofs.Grammar

/-!
# Readers on lists of the right shape

The readers search a flat list for brackets, separators and signs. Where a list has the shape that a
rule of the grammar asks for, every search ends where the rule says: at the partner of a bracket, at
the first sign, behind what lacks the separator. There is one lemma for each reader. It takes the
parts of the list as read, by any reader of blocks.
-/

namespace LittleJ.Parser

open LittleJ.Bracket LittleJ.TopLevel LittleJ.Grammar List Except

variable {body : Program} {condition target value : Expr} {t : Token} {us vs : List Token}
    {parts : List (List Token)}

variable {block : List Token → Parse Program} {left right : String}
    {inner code frame whole : List Token}

/-! ## Brackets -/

theorem startsWith_of_enclosed (h : Enclosed left right inner whole) (rest : List Token) :
    startsWith left (whole ++ rest) = true := by
  obtain ⟨o, c, rfl, ho, _, _⟩ := h
  exact ho

theorem partner_of_enclosed (h : Enclosed left right inner whole)
    (hcloser : closerOf? left = some right) (rest : List Token) :
    partner (whole ++ rest) = .ok (inner.length + 1) := by
  rw [partner, h.partner? hcloser]

theorem inside_of_enclosed (h : Enclosed left right inner whole) (rest : List Token) :
    inside (inner.length + 1) (whole ++ rest) = inner := by
  obtain ⟨o, c, rfl, _, _, _⟩ := h
  simp [inside]

theorem drop_of_enclosed (h : Enclosed left right inner whole) (rest : List Token) :
    (whole ++ rest).drop (inner.length + 1 + 1) = rest :=
  drop_left' h.length

theorem length_of_framed (h : Framed inner code frame) :
    frame.length = inner.length + 1 + 1 + (code.length + 1 + 1) := by
  obtain ⟨round, braces, hround, hbraces, rfl⟩ := h
  rw [length_append, hround.length, hbraces.length]

theorem functionLiteral_of_framed {names : List String} (h : Framed inner code frame)
    (hnames : Parameters inner names) (hcode : code ≠ [])
    (hbody : block (.sym .varMark :: code) = .ok body) (rest : List Token) :
    functionLiteral block (frame ++ rest) = .ok (.mk names body code, frame.length) := by
  have hpos : 0 < code.length := List.length_pos_iff.2 hcode
  rw [length_of_framed h]
  obtain ⟨round, braces, hround, hbraces, rfl⟩ := h
  have hparams := params?_eq_some_iff.2 hnames
  rw [List.append_assoc]
  unfold functionLiteral
  simp only [startsWith_of_enclosed hround, partner_of_enclosed hround rfl, drop_of_enclosed hround,
    inside_of_enclosed hround, startsWith_of_enclosed hbraces, partner_of_enclosed hbraces rfl,
    inside_of_enclosed hbraces, hparams, hbody, bind, Except.bind]
  rw [if_neg (by simp), if_neg (by simp), if_neg (by omega)]
  rfl

theorem guarded_of_framed (h : Framed inner code frame) (hinner : inner ≠ []) (hcode : code ≠ [])
    (hcondition : expression block inner = .ok condition) (hbody : block code = .ok body)
    (word : String) (rest : List Token) :
    guarded block word (frame ++ rest) = .ok ⟨condition, body, frame.length⟩ := by
  have hpos : 0 < inner.length := List.length_pos_iff.2 hinner
  have hpos' : 0 < code.length := List.length_pos_iff.2 hcode
  rw [length_of_framed h]
  obtain ⟨round, braces, hround, hbraces, rfl⟩ := h
  rw [List.append_assoc]
  unfold guarded
  simp only [startsWith_of_enclosed hround, partner_of_enclosed hround rfl, drop_of_enclosed hround,
    inside_of_enclosed hround, startsWith_of_enclosed hbraces, partner_of_enclosed hbraces rfl,
    inside_of_enclosed hbraces, hcondition, hbody, bind, Except.bind]
  rw [if_neg (by simp), if_neg (by omega), if_neg (by simp), if_neg (by omega)]
  rfl

theorem elseArm_if (ht : t.reads "if" = true) (hframed : Framed inner code frame)
    (hinner : inner ≠ []) (hcode : code ≠ []) (hcondition : expression block inner = .ok condition)
    (hbody : block code = .ok body) :
    elseArm block (t :: frame) = .ok ((condition, body), (t :: frame).length) := by
  have hguarded := guarded_of_framed hframed hinner hcode hcondition hbody "else if" []
  rw [append_nil] at hguarded
  unfold elseArm
  simp only [ht, if_true, hguarded, bind, bind]
  rfl

theorem elseArm_otherwise {braces : List Token} (hbraces : Enclosed "\x7b" "\x7d" code braces)
    (hbody : block code = .ok body) :
    elseArm block braces = .ok (([.val (.bool true)], body), braces.length) := by
  have hpartner := partner_of_enclosed hbraces rfl []
  have hinside := inside_of_enclosed hbraces []
  rw [List.append_nil] at hpartner hinside
  rw [hbraces.length]
  obtain ⟨o, c, rfl, ho, _, _⟩ := hbraces
  have hif : o.reads "if" = false := by
    rw [Bool.eq_false_iff]
    intro hword
    exact absurd (Token.reads_unique hword ho) (by decide)
  unfold elseArm
  simp only [hif, ho, Bool.false_eq_true, if_false, if_true, hpartner, hinside, hbody,
    bind, Except.bind]
  rfl

theorem forStatement_of_framed {first middle last : List Token} {before after : Program}
    (h : Framed inner code frame) (hinner : inner ≠ []) (hcode : code ≠ [])
    (hclauses : threeClauses inner = .ok (first, middle, last))
    (hbefore : clause block first = .ok before)
    (hcondition : expression block middle = .ok condition) (hafter : clause block last = .ok after)
    (hbody : block code = .ok body) (rest : List Token) :
    forStatement block (frame ++ rest) =
      .ok (before ++ [Stmt.loop condition (body ++ after)], frame.length) := by
  have hpos : 0 < inner.length := List.length_pos_iff.2 hinner
  have hpos' : 0 < code.length := List.length_pos_iff.2 hcode
  rw [length_of_framed h]
  obtain ⟨round, braces, hround, hbraces, rfl⟩ := h
  rw [List.append_assoc]
  unfold forStatement
  simp only [startsWith_of_enclosed hround, partner_of_enclosed hround rfl, drop_of_enclosed hround,
    inside_of_enclosed hround, startsWith_of_enclosed hbraces, partner_of_enclosed hbraces rfl,
    inside_of_enclosed hbraces, hclauses, hbefore, hcondition, hafter, hbody, bind, Except.bind]
  rw [if_neg (by simp), if_neg (by omega), if_neg (by simp), if_neg (by omega)]
  rfl

theorem expressionFrom_skip (front rest : List Token) :
    expressionFrom block front.length (front ++ rest) = expressionFrom block 0 rest := by
  induction front with
  | nil => rfl
  | cons t front ih => rw [length_cons, cons_append, expressionFrom, ih]

/-! ## Assignments -/

theorem findIdx?_of_not {p : Token → Bool} {front : List Token} (h : ∀ t ∈ front, p t = false)
    (ht : p t = true) (rest : List Token) :
    (front ++ t :: rest).findIdx? p = some front.length := by
  induction front with
  | nil => simp [findIdx?_cons, ht]
  | cons u front ih =>
    have hu : p u = false := h u (by simp)
    rw [cons_append, findIdx?_cons, hu, ih fun v hv => h v (mem_cons_of_mem _ hv)]
    rfl

theorem isTarget_of_target {ts : List Token} (h : Target ts) {fuel : Nat}
    (hfuel : ts.length ≤ fuel) :
    isTarget fuel ts = .ok true := by
  induction h generalizing fuel with
  | name ht =>
    cases fuel with
    | zero => simp at hfuel
    | succ fuel => exact congrArg ok ht
  | @subscript o ts inner hts ho hlevel ih =>
    rw [length_append, length_cons] at hfuel
    obtain ⟨fuel, rfl⟩ : ∃ n, fuel = n + 1 := ⟨fuel - 1, by omega⟩
    have hopener : opener? (ts ++ o :: (inner ++ [Token.sym .rbracket])) = some ts.length := by
      have hreads : (Token.sym .rbracket).reads "]" = true := by decide
      rw [← cons_append, ← append_assoc,
        opener?_eq_some_iff hreads (show openerOf? "]" = some "[" from rfl) (by decide)]
      exact ⟨ts, o, inner, rfl, ho, hlevel, rfl⟩
    have hlast : (ts ++ o :: (inner ++ [Token.sym .rbracket])).getLast? =
        some (.sym .rbracket) := by
      rw [← cons_append, ← append_assoc, getLast?_concat]
    -- the last subscript is taken off, and what is left is a target again
    have hstep : isTarget (fuel + 1) (ts ++ o :: (inner ++ [Token.sym .rbracket])) =
        if ts.length == 1 then .ok true
        else if ((ts ++ o :: (inner ++ [Token.sym .rbracket]))[ts.length - 1]?.map
          (·.is .rbracket)).getD false then
          isTarget fuel ts
        else .ok false := by
      obtain ⟨t, more, rfl, ht⟩ := hts.head
      obtain ⟨t', tail, htail⟩ := exists_cons_of_ne_nil
        (show more ++ o :: (inner ++ [Token.sym .rbracket]) ≠ [] by simp)
      rw [cons_append, htail, isTarget_cons_cons, ← htail, ← cons_append, hlast, hopener, ht]
      dsimp only
      rw [take_left]
      rfl
    rw [hstep]
    by_cases hone : ts.length = 1
    · simp [hone]
    · have hpos : 0 < ts.length := by
        obtain ⟨t, more, rfl, _⟩ := hts.head
        simp
      have hat : (ts ++ o :: (inner ++ [Token.sym .rbracket]))[ts.length - 1]? =
          some (.sym .rbracket) := by
        rw [getElem?_append_left (by omega), ← getLast?_eq_getElem?, hts.getLast? hone]
      rw [if_neg (by simpa using hone), hat, if_pos (by rfl)]
      exact ih (by omega)

theorem drop_behind {α : Type} (xs : List α) (x : α) (ys : List α) :
    (xs ++ x :: ys).drop (xs.length + 1) = ys := by
  rw [← drop_drop, drop_left, drop_succ_cons, drop_zero]

theorem assignment_of_target (ht : t.reads "=" = true) (hnone : ∀ u ∈ us, u.reads "=" = false)
    (hhead : ∃ u more, us = u :: more ∧ u.isName = true) (hus : expression block us = .ok target)
    (hvs : expression block vs = .ok value) (htarget : Target target) :
    assignment block (us ++ t :: vs) = .ok (target, value) := by
  have hname : ((us ++ t :: vs).head?.map Token.isName).getD false = true := by
    obtain ⟨u, more, rfl, hu⟩ := hhead
    exact hu
  have hfound : (us ++ t :: vs).findIdx? (·.reads "=") = some us.length :=
    findIdx?_of_not hnone ht vs
  unfold assignment
  simp only [hname, hfound, drop_behind, List.take_left, hus, hvs, bind, Except.bind,
    isTarget_of_target htarget (Nat.le_refl _)]
  rfl

/-- The name that a target starts with is the first token it was read from. -/
theorem head_of_derives (h : Derives (.expression us target)) (htarget : Target target) :
    ∃ u more, us = u :: more ∧ u.isName = true := by
  obtain ⟨t, more, rfl, ht⟩ := htarget.head
  cases h with
  | token _ _ => exact ⟨t, _, rfl, ht⟩
  | function _ _ _ _ _ => cases ht

theorem shorthand_plus (ht : t.reads "+=" = true) (hnone : ∀ u ∈ us, u.reads "+=" = false)
    (h : assignment block (us ++ Token.sym .assign :: vs) = .ok (target, value)) :
    shorthand block (us ++ t :: vs) = .ok (target, target ++ Token.sym .plus :: value) := by
  have hany : (us ++ t :: vs).any (·.reads "+=") = true := by simp [ht]
  have hfound : (us ++ t :: vs).findIdx? (·.reads "+=") = some us.length :=
    findIdx?_of_not hnone ht vs
  unfold shorthand
  simp only [hany, if_true, hfound, drop_behind, take_left, h, bind, bind]
  rfl

theorem shorthand_minus (ht : t.reads "-=" = true) (hnone : ∀ u ∈ us, u.reads "-=" = false)
    (hplus : ∀ u ∈ us ++ t :: vs, u.reads "+=" = false)
    (h : assignment block (us ++ Token.sym .assign :: vs) = .ok (target, value)) :
    shorthand block (us ++ t :: vs) = .ok (target, target ++ Token.sym .minus :: value) := by
  have hany : (us ++ t :: vs).any (·.reads "+=") = false := by
    rw [any_eq_false]
    intro u hu
    rw [hplus u hu]
    exact Bool.false_ne_true
  have hfound : (us ++ t :: vs).findIdx? (·.reads "-=") = some us.length :=
    findIdx?_of_not hnone ht vs
  unfold shorthand
  simp only [hany, Bool.false_eq_true, if_false, hfound, drop_behind, take_left, h, bind, bind]
  rfl

/-! ## Clauses and variables -/

/-- A step that is an assignment. -/
theorem clauseAssignments_set {part : List Token} {rest : Program}
    (hany : part.any (·.reads "=") = true) (h : assignment block part = .ok (target, value))
    (hrest : clauseAssignments block parts = .ok rest) :
    clauseAssignments block (part :: parts) = .ok (.assign target value :: rest) := by
  rw [clauseAssignments]
  simp only [hany, if_true, h, hrest, bind, bind]
  rfl

/-- A step that is a shorthand assignment. -/
theorem clauseAssignments_change {part : List Token} {rest : Program}
    (hnone : part.any (·.reads "=") = false)
    (hany : (part.any (·.reads "+=") || part.any (·.reads "-=")) = true)
    (h : shorthand block part = .ok (target, value))
    (hrest : clauseAssignments block parts = .ok rest) :
    clauseAssignments block (part :: parts) = .ok (.assign target value :: rest) := by
  rw [clauseAssignments]
  simp only [hnone, Bool.false_eq_true, if_false, hany, if_true, h, hrest, bind, bind]
  rfl

theorem threeClauses_of_forall {s₁ s₂ : Token} {first middle last : List Token}
    (hs₁ : s₁.reads ";" = true) (hs₂ : s₂.reads ";" = true)
    (hnone : ∀ u ∈ first ++ (middle ++ last), u.reads ";" = false) (hmiddle : middle ≠ []) :
    threeClauses (first ++ s₁ :: (middle ++ s₂ :: last)) = .ok (first, middle, last) := by
  rw [forall_mem_append, forall_mem_append] at hnone
  obtain ⟨hfirst, hmid, hlast⟩ := hnone
  have hfound : (first ++ s₁ :: (middle ++ s₂ :: last)).findIdx? (·.reads ";") =
      some first.length :=
    findIdx?_of_not hfirst hs₁ _
  have hfound' : (middle ++ s₂ :: last).findIdx? (·.reads ";") = some middle.length :=
    findIdx?_of_not hmid hs₂ _
  have hpos : 0 < middle.length := List.length_pos_iff.2 hmiddle
  have hany : last.any (·.reads ";") = false := by
    rw [any_eq_false]
    intro u hu
    rw [hlast u hu]
    exact Bool.false_ne_true
  unfold threeClauses
  simp only [hfound, hfound', drop_behind, hany, take_left]
  rw [if_neg (by simp; omega)]

/-! ## Statements -/

theorem upToSemicolon_of_lacks (h : Lacks (·.is .semi) inner) (all rest : List Token) :
    upToSemicolon all (inner ++ Token.sym .semi :: rest) = .ok (inner, inner.length) := by
  have hfound : index? (·.is .semi) (inner ++ Token.sym .semi :: rest) = .ok (some inner.length) :=
    (index?_eq_some_iff (sparesBrackets_is (by decide))).2 ⟨inner, _, rest, rfl, h, rfl, rfl⟩
  simp [upToSemicolon, hfound, searched, bind, Except.bind, pure, Except.pure]

/-- A `var` statement is read where a mark stands before it. -/
theorem statement_var {made : Program} (hlacks : Lacks (·.is .semi) inner)
    (hsplit : split (·.is .comma) inner = .ok parts) (h : declarations block parts = .ok made)
    (all rest : List Token) (done : Done) : statement block all (some (.sym .varMark)) done
    (.sym .kwVar) (inner ++ Token.sym .semi :: rest) =
      .ok (made.reverse ++ done, inner.length + 1) := by
  have hsemi := upToSemicolon_of_lacks hlacks all rest
  have hvar : varStatement block all (some (.sym .varMark)) (inner ++ Token.sym .semi :: rest) =
      .ok (made, inner.length + 1) := by
    unfold varStatement
    simp only [hsemi, hsplit, searched, h, bind, Except.bind]
    rfl
  simp only [statement, hvar, bind, Except.bind]
  rfl

theorem plainStatement_of_assignment (hparted : Parted (·.is .assign) inner)
    (h : assignment block inner = .ok (target, value)) :
    plainStatement block inner = .ok (.assign target value) := by
  have hassigns := (isParted_eq_true_iff (sparesBrackets_is (by decide))).2 hparted
  unfold plainStatement
  simp only [hassigns, searched, h, bind, bind]
  rfl

theorem plainStatement_of_shorthand {q : Token → Bool} (hlacks : Lacks q inner)
    (hnot : ¬Parted (·.is .assign) inner) (hparted : Parted (·.is .plusAssign) inner ∨ Parted
      (·.is .minusAssign) inner) (h : shorthand block inner = .ok (target, value)) :
    plainStatement block inner = .ok (.assign target value) := by
  have hassigns := isParted_of_not_parted hlacks (sparesBrackets_is (by decide)) hnot
  obtain ⟨adds, hadds⟩ :=
    exists_isParted hlacks (sparesBrackets_is (show isBracket (.sym .plusAssign) = false by decide))
  obtain ⟨subtracts, hsubtracts⟩ :=
    exists_isParted hlacks
    (sparesBrackets_is (show isBracket (.sym .minusAssign) = false by decide))
  have hsome : (adds || subtracts) = true := by
    rcases hparted with hplus | hminus
    · rw [(isParted_eq_true_iff (sparesBrackets_is (by decide))).2 hplus] at hadds
      cases hadds
      rfl
    · rw [(isParted_eq_true_iff (sparesBrackets_is (by decide))).2 hminus] at hsubtracts
      cases hsubtracts
      exact Bool.or_true adds
  unfold plainStatement
  simp only [hassigns, hadds, hsubtracts, hsome, searched, h, bind, Except.bind]
  rfl

theorem plainStatement_of_expression {q : Token → Bool} {e : Expr} (hlacks : Lacks q inner)
    (hassign : ¬Parted (·.is .assign) inner) (hplus : ¬Parted (·.is .plusAssign) inner)
    (hminus : ¬Parted (·.is .minusAssign) inner) (hhead : inner.head? ≠ some (.sym .kwFunction))
    (h : expression block inner = .ok e) : plainStatement block inner = .ok (.exp e) := by
  have h₁ := isParted_of_not_parted hlacks (sparesBrackets_is (by decide)) hassign
  have h₂ := isParted_of_not_parted hlacks (sparesBrackets_is (by decide)) hplus
  have h₃ := isParted_of_not_parted hlacks (sparesBrackets_is (by decide)) hminus
  have hfunction : (inner.head?.map (·.is .kwFunction)).getD false = false := by
    cases hfirst : inner.head? with
    | none => rfl
    | some t =>
      rw [hfirst] at hhead
      rw [Option.map_some, Option.getD_some, Bool.eq_false_iff]
      intro ht
      exact hhead (congrArg some (Token.is_iff.1 ht))
  unfold plainStatement
  simp only [h₁, h₂, h₃, hfunction, searched, bind, bind, h]
  rfl

theorem statements_skip {all : List Token} (front rest : List Token) (done : Done)
    (prev : Option Token) :
    ∃ prev', statements block all done prev front.length (front ++ rest) =
      statements block all done prev' 0 rest := by
  induction front generalizing prev with
  | nil => exact ⟨prev, rfl⟩
  | cons t front ih =>
    rw [length_cons, cons_append, statements]
    exact ih (some t)

theorem statement_eq_unmarked {all ts : List Token} {prev : Option Token} {done : Done}
    (ht : isOpening t = false) :
    statement block all prev done t ts = unmarked block all done (t :: ts) := by
  cases t with
  | sym y => cases y <;> simp [isOpening] at ht <;> rfl
  | _ => rfl

end LittleJ.Parser
