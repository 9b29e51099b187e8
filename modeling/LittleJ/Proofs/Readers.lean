import LittleJ.Program.Parser
import LittleJ.Proofs.Brackets

/-!
# What a reader did if it succeeded

Each reader is a chain of checks, searches and calls of other readers. For every one of them there
is a lemma that says what a success means: which brackets were found where, which parts were handed
on, and how many tokens were used. Later proofs cite these lemmas and do not open the readers again.
-/

namespace LittleJ.Parser

open LittleJ.Bracket TopLevel List

variable {p : Program} {ts all part : List Token} {k used : Nat}

variable {α β : Type} {block : List Token → Parse Program}

/-- A sequence that succeeds did so in both of its parts. -/
theorem ok_of_bind {x : Parse α} {k : α → Parse β} {b : β} (h : x >>= k = .ok b) :
    ∃ a, x = .ok a ∧ k a = .ok b := by
  cases x with
  | error e => cases h
  | ok a => exact ⟨a, rfl, h⟩

/-- A check that was passed. -/
theorem ok_of_check {p : Prop} [Decidable p] {e : Error} {k : Unit → Parse β} {b : β}
    (h : (if p then fail e >>= k else k ()) = .ok b) : ¬p ∧ k () = .ok b := by
  by_cases hp : p
  · rw [if_pos hp] at h; cases h
  · rw [if_neg hp] at h; exact ⟨hp, h⟩

/-- A failure with an excerpt is a failure, whether or not the excerpt can be shown. -/
theorem failAt_eq (e : String → Error) (ts : List Token) :
    ∃ x, ∀ α : Type, (failAt e ts : Parse α) = .error x := by
  unfold failAt
  cases excerpt Value.printPlain ts with
  | ok s => exact ⟨_, fun _ => rfl⟩
  | error x => exact ⟨_, fun _ => rfl⟩

theorem failAt_ne_ok {e : String → Error} {a : α} : failAt e ts ≠ .ok a := by
  obtain ⟨x, hx⟩ := failAt_eq e ts
  rw [hx]
  simp

theorem ok_of_checkAt {p : Prop} [Decidable p] {e : String → Error} {k : Unit → Parse β} {b : β}
    (h : (if p then failAt e ts >>= k else k ()) = .ok b) : ¬p ∧ k () = .ok b := by
  by_cases hp : p
  · rw [if_pos hp] at h
    obtain ⟨_, hfail, _⟩ := ok_of_bind h
    exact absurd hfail failAt_ne_ok
  · rw [if_neg hp] at h; exact ⟨hp, h⟩

theorem ok_of_searched {x : Except (List Token) α} {a : α} (h : searched x = .ok a) :
    x = .ok a := by
  cases x with
  | ok b => exact congrArg Except.ok (Except.ok.inj h)
  | error rest => exact absurd h failAt_ne_ok

theorem partner?_of_partner (h : partner ts = .ok k) : partner? ts = some k := by
  unfold partner at h
  cases hk : partner? ts with
  | none => rw [hk] at h; exact absurd h failAt_ne_ok
  | some j => rw [hk] at h; exact congrArg some (Except.ok.inj h)

theorem upToSemicolon_inv {inner : List Token} (h : upToSemicolon all ts = .ok (inner, k)) :
    inner = ts.take k ∧ ∃ t, ts[k]? = some t ∧ t.is .semi = true := by
  unfold upToSemicolon at h
  obtain ⟨found, hfound, h⟩ := ok_of_bind h
  cases found with
  | none => exact absurd h failAt_ne_ok
  | some j =>
    cases h
    exact ⟨rfl, holds_of_indexFrom (ok_of_searched hfound)⟩

/-! ## Function literals -/

/-- Parentheses and braces behind each other, as they follow `function`, `if`, `while` and `for`:
where they close. -/
structure Frame (ts : List Token) (rp rc : Nat) : Prop where
  opensParen : startsWith "(" ts = true
  paren : partner? ts = some rp
  opensBrace : startsWith "\x7b" (ts.drop (rp + 1)) = true
  brace : partner? (ts.drop (rp + 1)) = some rc

theorem functionLiteral_inv {f : Function} (h : functionLiteral block ts = .ok (f, used)) :
    ∃ rp rc params body, Frame ts rp rc ∧ 1 < rc ∧ params? (inside rp ts) = some params ∧
      block (.sym .varMark :: inside rc (ts.drop (rp + 1))) = .ok body ∧
      f = .mk params body (inside rc (ts.drop (rp + 1))) ∧ used = rp + 1 + (rc + 1) := by
  unfold functionLiteral at h
  obtain ⟨hopen, h⟩ := ok_of_check h
  obtain ⟨rp, hrp, h⟩ := ok_of_bind h
  obtain ⟨hbrace, h⟩ := ok_of_check h
  obtain ⟨rc, hrc, h⟩ := ok_of_bind h
  obtain ⟨hempty, h⟩ := ok_of_check h
  cases hparams : params? (inside rp ts) with
  | none => rw [hparams] at h; cases h
  | some params =>
    rw [hparams] at h
    obtain ⟨body, hbody, h⟩ := ok_of_bind h
    cases h
    refine ⟨rp, rc, params, body, ⟨?_, partner?_of_partner hrp, ?_, partner?_of_partner hrc⟩,
      Nat.lt_of_not_le hempty, hparams, hbody, rfl, rfl⟩
    · simpa using hopen
    · simpa using hbrace

/-! ## Statements -/

theorem guarded_inv {word : String} {g : Guarded} (h : guarded block word ts = .ok g) :
    ∃ rp rc, Frame ts rp rc ∧ 1 < rp ∧ 1 < rc ∧ expression block (inside rp ts) = .ok g.condition ∧
      block (inside rc (ts.drop (rp + 1))) = .ok g.code ∧ g.used = rp + 1 + (rc + 1) := by
  unfold guarded at h
  obtain ⟨hopen, h⟩ := ok_of_check h
  obtain ⟨rp, hrp, h⟩ := ok_of_bind h
  obtain ⟨hinner, h⟩ := ok_of_check h
  obtain ⟨hbrace, h⟩ := ok_of_check h
  obtain ⟨rc, hrc, h⟩ := ok_of_bind h
  obtain ⟨hempty, h⟩ := ok_of_check h
  obtain ⟨condition, hcondition, h⟩ := ok_of_bind h
  obtain ⟨code, hcode, h⟩ := ok_of_bind h
  cases h
  refine ⟨rp, rc, ⟨?_, partner?_of_partner hrp, ?_, partner?_of_partner hrc⟩,
    Nat.lt_of_not_le hinner, Nat.lt_of_not_le hempty, hcondition, hcode, rfl⟩
  · simpa using hopen
  · simpa using hbrace

/-- The step that takes the last pair of brackets off a target. -/
theorem isTarget_cons_cons (fuel : Nat) (t t' : Token) (ts : List Token) :
    isTarget (fuel + 1) (t :: t' :: ts) =
      if !t.isName then .ok false
      else if ((t :: t' :: ts).getLast?.map (·.is .rbracket)).getD false then
        match opener? (t :: t' :: ts) with
        | none => fail (.unopened "]")
        | some k =>
          if k == 1 then .ok true
          else if ((t :: t' :: ts)[k - 1]?.map (·.is .rbracket)).getD false then
            isTarget fuel ((t :: t' :: ts).take k)
          else .ok false
      else .ok false := by
  have hcons : t' :: ts = [] → False := by simp
  rw [isTarget.eq_4 _ _ _ hcons]
  congr 1
  generalize (t :: t' :: ts).getLast? = last
  split
  · rfl
  · rename_i hlast
    rw [if_neg]
    intro h
    cases last with
    | none => simp at h
    | some u =>
      cases u with
      | sym y =>
        simp only [Option.map_some, Option.getD_some, Token.is, beq_iff_eq] at h
        exact hlast (by rw [h])
      | _ => simp [Token.is] at h

theorem assignment_inv {target value : List Token} (h : assignment block ts = .ok (target, value)) :
    ∃ k, ts.findIdx? (·.reads "=") = some k ∧ expression block (ts.take k) = .ok target ∧
      expression block (ts.drop (k + 1)) = .ok value ∧ isTarget target.length target =
        .ok true := by
  unfold assignment at h
  obtain ⟨_, h⟩ := ok_of_checkAt h
  cases hk : ts.findIdx? (·.reads "=") with
  | none => rw [hk] at h; cases h
  | some k =>
    rw [hk] at h
    obtain ⟨target', htarget, h⟩ := ok_of_bind h
    obtain ⟨value', hvalue, h⟩ := ok_of_bind h
    obtain ⟨b, hb, h⟩ := ok_of_bind h
    cases b with
    | false => exact absurd h failAt_ne_ok
    | true =>
      cases h
      exact ⟨k, rfl, htarget, hvalue, hb⟩

theorem shorthand_inv {target value : List Token} (h : shorthand block ts = .ok (target, value)) :
    ∃ word op k right, (word = "+=" ∧ op = .plus ∨
        word = "-=" ∧ op = .minus ∧ ∀ t ∈ ts, t.reads "+=" = false) ∧
        ts.findIdx? (·.reads word) = some k ∧
      assignment block (ts.take k ++ .sym .assign :: ts.drop (k + 1)) = .ok (target, right) ∧
      value = target ++ .sym op :: right := by
  unfold shorthand at h
  generalize hword : (if ts.any (·.reads "+=") then ("+=", Symbol.plus) else ("-=", Symbol.minus)) =
    p
    at h
  obtain ⟨word, op⟩ := p
  have hcases : word = "+=" ∧ op = .plus ∨ word = "-=" ∧ op = .minus ∧
      ∀ t ∈ ts, t.reads "+=" = false := by
    split at hword
    · cases hword
      exact .inl ⟨rfl, rfl⟩
    · rename_i hnone
      cases hword
      exact .inr ⟨rfl, rfl, by simpa using hnone⟩
  dsimp only at h
  cases hk : ts.findIdx? (·.reads word) with
  | none => rw [hk] at h; cases h
  | some k =>
    rw [hk] at h
    obtain ⟨⟨target', right⟩, hassign, h⟩ := ok_of_bind h
    cases h
    exact ⟨word, op, k, right, hcases, hk, hassign, rfl⟩

theorem clauseAssignments_inv {parts : List (List Token)}
    (h : clauseAssignments block (part :: parts) = .ok p) :
    ∃ target value rest, (assignment block part = .ok (target, value) ∨
        (∀ t ∈ part, t.reads "=" = false) ∧ shorthand block part = .ok (target, value)) ∧
      clauseAssignments block parts = .ok rest ∧ p = .assign target value :: rest := by
  rw [clauseAssignments] at h
  split at h
  · obtain ⟨⟨target, value⟩, hassign, h⟩ := ok_of_bind h
    obtain ⟨rest, hrest, h⟩ := ok_of_bind h
    cases h
    exact ⟨target, value, rest, Or.inl hassign, hrest, rfl⟩
  · rename_i hnone
    split at h
    · obtain ⟨⟨target, value⟩, hshort, h⟩ := ok_of_bind h
      obtain ⟨rest, hrest, h⟩ := ok_of_bind h
      cases h
      exact ⟨target, value, rest, Or.inr ⟨by simpa using hnone, hshort⟩, hrest, rfl⟩
    · cases h

theorem declarations_eq_fail (parts : List (List Token))
    (h : ∀ s t ts, part ≠ .name s :: .sym .assign :: t :: ts) :
    declarations block (part :: parts) = fail .badVar := by
  rw [declarations.eq_def]
  split
  · rename_i heq
    simp at heq
  · rename_i heq
    simp only [cons.injEq] at heq
    obtain ⟨rfl, rfl⟩ := heq
    split
    · exact absurd rfl (h _ _ _)
    · rfl

theorem declarations_inv {parts : List (List Token)}
    (h : declarations block (part :: parts) = .ok p) :
    ∃ s t ts value rest, part = .name s :: .sym .assign :: t :: ts ∧
      expression block (t :: ts) = .ok value ∧ declarations block parts = .ok rest ∧
      p = .init s value :: rest := by
  by_cases hpart : ∃ s t ts, part = .name s :: .sym .assign :: t :: ts
  · obtain ⟨s, t, ts, rfl⟩ := hpart
    rw [declarations] at h
    obtain ⟨value, hvalue, h⟩ := ok_of_bind h
    obtain ⟨rest, hrest, h⟩ := ok_of_bind h
    cases h
    exact ⟨s, t, ts, value, rest, rfl, hvalue, hrest, rfl⟩
  · rw [declarations_eq_fail parts fun s t ts he => hpart ⟨s, t, ts, he⟩] at h
    cases h

/-- A list falls apart at the position that a search found. -/
theorem eq_of_findIdx? {p : Token → Bool} (h : ts.findIdx? p = some k) :
    ∃ t, p t = true ∧ ts = ts.take k ++ t :: ts.drop (k + 1) := by
  obtain ⟨hlt, hp, _⟩ := List.findIdx?_eq_some_iff_getElem.mp h
  refine ⟨ts[k], hp, ?_⟩
  rw [getElem_cons_drop, take_append_drop]

/-- Before the position that a search found there is nothing it looks for. -/
theorem forall_of_findIdx? {p : Token → Bool} (h : ts.findIdx? p = some k) :
    ∀ t ∈ ts.take k, p t = false := by
  obtain ⟨hlt, _, hbefore⟩ := List.findIdx?_eq_some_iff_getElem.1 h
  intro t ht
  obtain ⟨i, hi, rfl⟩ := List.mem_take_iff_getElem.1 ht
  simpa using hbefore i (by omega)

theorem threeClauses_inv {first middle last : List Token}
    (h : threeClauses ts = .ok (first, middle, last)) :
    ∃ t₁ t₂, t₁.reads ";" = true ∧ t₂.reads ";" = true ∧
      ts = first ++ t₁ :: (middle ++ t₂ :: last) ∧
      (∀ t ∈ first ++ (middle ++ last), t.reads ";" = false) ∧
      middle ≠ [] := by
  unfold threeClauses at h
  cases h₁ : ts.findIdx? (·.reads ";") with
  | none => rw [h₁] at h; cases h
  | some s₁ =>
    rw [h₁] at h
    dsimp only at h
    cases h₂ : (ts.drop (s₁ + 1)).findIdx? (·.reads ";") with
    | none => rw [h₂] at h; cases h
    | some s₂ =>
      rw [h₂] at h
      dsimp only at h
      split at h
      · cases h
      · rename_i hcheck
        cases h
        obtain ⟨t₁, ht₁, he₁⟩ := eq_of_findIdx? h₁
        obtain ⟨t₂, ht₂, he₂⟩ := eq_of_findIdx? h₂
        simp only [Bool.or_eq_true, beq_iff_eq, any_eq_true, not_or, not_exists, not_and,
          Bool.not_eq_true] at hcheck
        obtain ⟨hpos, hlast⟩ := hcheck
        refine ⟨t₁, t₂, ht₁, ht₂, ?_, ?_, ?_⟩
        · rw [← he₂]
          exact he₁
        · rw [forall_mem_append, forall_mem_append]
          exact ⟨forall_of_findIdx? h₁, forall_of_findIdx? h₂, hlast⟩
        · have hlt := (List.findIdx?_eq_some_iff_getElem.1 h₂).1
          refine ne_nil_of_length_pos ?_
          rw [length_take]
          omega

theorem forStatement_inv (h : forStatement block ts = .ok (p, used)) :
    ∃ rp rc first middle last before condition after code, Frame ts rp rc ∧ 1 < rc ∧
      threeClauses (inside rp ts) = .ok (first, middle, last) ∧ clause block first = .ok before ∧
      expression block middle = .ok condition ∧ clause block last = .ok after ∧
      block (inside rc (ts.drop (rp + 1))) = .ok code ∧
      p = before ++ [.loop condition (code ++ after)] ∧ used = rp + 1 + (rc + 1) := by
  unfold forStatement at h
  obtain ⟨hopen, h⟩ := ok_of_check h
  obtain ⟨rp, hrp, h⟩ := ok_of_bind h
  obtain ⟨_, h⟩ := ok_of_check h
  obtain ⟨hbrace, h⟩ := ok_of_check h
  obtain ⟨rc, hrc, h⟩ := ok_of_bind h
  obtain ⟨hempty, h⟩ := ok_of_check h
  obtain ⟨⟨first, middle, last⟩, hclauses, h⟩ := ok_of_bind h
  obtain ⟨before, hbefore, h⟩ := ok_of_bind h
  obtain ⟨condition, hcondition, h⟩ := ok_of_bind h
  obtain ⟨after, hafter, h⟩ := ok_of_bind h
  obtain ⟨code, hcode, h⟩ := ok_of_bind h
  cases h
  refine ⟨rp, rc, first, middle, last, before, condition, after, code,
    ⟨?_, partner?_of_partner hrp, ?_, partner?_of_partner hrc⟩, Nat.lt_of_not_le hempty,
    hclauses, hbefore, hcondition, hafter, hcode, rfl, rfl⟩
  · simpa using hopen
  · simpa using hbrace

theorem varStatement_inv {prev : Option Token}
    (h : varStatement block all prev ts = .ok (p, used)) :
    ∃ t inner k parts, prev = some t ∧ t.reads "var?" = true ∧ upToSemicolon all ts =
      .ok (inner, k) ∧
      split (·.is .comma) inner = .ok parts ∧ declarations block parts = .ok p ∧ used = k + 1 := by
  unfold varStatement at h
  obtain ⟨hmark, h⟩ := ok_of_check h
  obtain ⟨⟨inner, k⟩, hinner, h⟩ := ok_of_bind h
  obtain ⟨parts, hparts, h⟩ := ok_of_bind h
  obtain ⟨made, hmade, h⟩ := ok_of_bind h
  cases h
  cases prev with
  | none => simp at hmark
  | some t =>
    exact ⟨t, inner, k, parts, rfl, by simpa using hmark, hinner, ok_of_searched hparts, hmade, rfl⟩

theorem elseArm_inv {arm : Expr × Program} (h : elseArm block ts = .ok (arm, used)) :
    (∃ t rest g, ts = t :: rest ∧ t.reads "if" = true ∧ guarded block "else if" rest = .ok g ∧
      arm = (g.condition, g.code) ∧ used = g.used + 1) ∨
    (∃ rc code, startsWith "\x7b" ts = true ∧ partner? ts = some rc ∧
      block (inside rc ts) = .ok code ∧ arm = ([.val (.bool true)], code) ∧ used = rc + 1) := by
  unfold elseArm at h
  cases ts with
  | nil => cases h
  | cons t rest =>
    dsimp only at h
    split at h
    · rename_i hif
      obtain ⟨g, hg, h⟩ := ok_of_bind h
      cases h
      exact Or.inl ⟨t, rest, g, rfl, hif, hg, rfl, rfl⟩
    · split at h
      · rename_i hbrace
        obtain ⟨rc, hrc, h⟩ := ok_of_bind h
        obtain ⟨code, hcode, h⟩ := ok_of_bind h
        cases h
        exact Or.inr ⟨rc, code, hbrace, partner?_of_partner hrc, hcode, rfl, rfl⟩
      · cases h

theorem plainStatement_inv {s : Stmt} (h : plainStatement block ts = .ok s) :
    (∃ target value, s = .assign target value ∧ isParted (·.is .assign) ts = .ok true ∧
      assignment block ts = .ok (target, value)) ∨
    (∃ target value adds subtracts, s = .assign target value ∧
      isParted (·.is .assign) ts = .ok false ∧
      isParted (·.is .plusAssign) ts = .ok adds ∧
      isParted (·.is .minusAssign) ts = .ok subtracts ∧ (adds || subtracts) = true ∧
      shorthand block ts = .ok (target, value)) ∨
      (∃ e, s = .exp e ∧ isParted (·.is .assign) ts = .ok false ∧
      isParted (·.is .plusAssign) ts = .ok false ∧
      isParted (·.is .minusAssign) ts = .ok false ∧ ts.head? ≠ some (.sym .kwFunction) ∧
      expression block ts = .ok e) := by
  unfold plainStatement at h
  obtain ⟨assigns, hassigns, h⟩ := ok_of_bind h
  have hassigns := ok_of_searched hassigns
  cases assigns with
  | true =>
    obtain ⟨⟨target, value⟩, hassign, h⟩ := ok_of_bind h
    cases h
    exact Or.inl ⟨target, value, rfl, hassigns, hassign⟩
  | false =>
    rw [if_neg Bool.false_ne_true] at h
    obtain ⟨adds, hadds, h⟩ := ok_of_bind h
    obtain ⟨subtracts, hsubtracts, h⟩ := ok_of_bind h
    have hadds := ok_of_searched hadds
    have hsubtracts := ok_of_searched hsubtracts
    split at h
    · rename_i hsome
      obtain ⟨⟨target, value⟩, hshort, h⟩ := ok_of_bind h
      cases h
      exact Or.inr
        (Or.inl ⟨target, value, adds, subtracts, rfl, hassigns, hadds, hsubtracts, hsome, hshort⟩)
    · rename_i hnone
      simp only [Bool.or_eq_true, not_or, Bool.not_eq_true] at hnone
      rw [hnone.1] at hadds
      rw [hnone.2] at hsubtracts
      split at h
      · cases h
      · rename_i hhead
        obtain ⟨e, he, h⟩ := ok_of_bind h
        cases h
        refine Or.inr (Or.inr ⟨e, rfl, hassigns, hadds, hsubtracts, ?_, he⟩)
        intro hfunction
        rw [hfunction] at hhead
        exact hhead rfl

/-- Whether a token starts a statement of its own kind. -/
def isOpening : Token → Bool
  | .sym .varMark | .sym .kwVar | .sym .kwIf | .sym .kwElse | .sym .kwWhile |
      .sym .kwReturn | .sym .kwBreak
  | .sym .kwFor => true
  | _ => false

/-- What reading the statement that starts with `t` did: the statements read so far are now the
given ones, and so many of the tokens `ts` after `t` were used. -/
inductive StatementRead (block : List Token → Parse Program) (all : List Token)
    (prev : Option Token) (done : Done) (ts : List Token) : Token → Done → Nat → Prop where
  | mark : StatementRead block all prev done ts (.sym .varMark) done 0
  | declared {made : Program} {used : Nat} : varStatement block all prev ts = .ok (made, used) →
      StatementRead block all prev done ts (.sym .kwVar) (made.reverse ++ done) used
  | ladder {g : Guarded} : guarded block "if" ts = .ok g →
      StatementRead block all prev done ts (.sym .kwIf)
      (.ladder [(g.condition, g.code)] :: done) g.used
  | arm {arms : List (Expr × Program)} {before : Done} {arm : Expr × Program} {used : Nat} :
      done = .ladder arms :: before → elseArm block ts = .ok (arm, used) →
      StatementRead block all prev done ts (.sym .kwElse) (.ladder (arms ++ [arm]) :: before) used
  | loop {g : Guarded} : guarded block "while" ts = .ok g →
      StatementRead block all prev done ts (.sym .kwWhile) (.loop g.condition g.code :: done) g.used
  | returned {inner e : List Token} {k : Nat} : upToSemicolon all ts = .ok (inner, k) →
      expression block inner = .ok e → StatementRead block all prev done ts (.sym .kwReturn)
      (.ret e :: done) (k + 1)
  | broken {t : Token} {rest : List Token} : ts = t :: rest → t.is .semi = true →
      StatementRead block all prev done ts (.sym .kwBreak) (.brk :: done) 1
  | counted {made : Program} {used : Nat} : forStatement block ts = .ok (made, used) →
      StatementRead block all prev done ts (.sym .kwFor) (made.reverse ++ done) used
  | unmarked {t : Token} {inner : List Token} {k : Nat} {s : Stmt} :
      upToSemicolon all (t :: ts) = .ok (inner, k) → inner ≠ [] →
      plainStatement block inner = .ok s →
      isOpening t = false → StatementRead block all prev done ts t (s :: done) k

/-- Reading a statement that no keyword starts. -/
def unmarked (block : List Token → Parse Program) (all : List Token) (done : Done)
    (ts : List Token) :
    Parse (Done × Nat) := do
  let (inner, k) ← upToSemicolon all ts
  if inner.isEmpty then fail .emptyStatement
  return ((← plainStatement block inner) :: done, k)

theorem unmarked_inv {done done' : Done} (h : unmarked block all done ts = .ok (done', used)) :
    ∃ inner s, upToSemicolon all ts = .ok (inner, used) ∧ inner ≠ [] ∧
      plainStatement block inner = .ok s ∧ done' = s :: done := by
  obtain ⟨⟨inner, k⟩, hinner, h⟩ := ok_of_bind h
  obtain ⟨hne, h⟩ := ok_of_check h
  obtain ⟨s, hs, h⟩ := ok_of_bind h
  cases h
  exact ⟨inner, s, hinner, by simpa using hne, hs, rfl⟩

theorem statement_inv {prev : Option Token} {done done' : Done} {t : Token}
    (h : statement block all prev done t ts = .ok (done', used)) :
    StatementRead block all prev done ts t done' used := by
  have hunmarked : ∀ {t : Token}, isOpening t = false → unmarked block all done (t :: ts) =
      .ok (done', used) →
      StatementRead block all prev done ts t done' used := by
    intro t ht h
    obtain ⟨inner, s, hinner, hne, hs, rfl⟩ := unmarked_inv h
    exact .unmarked hinner hne hs ht
  cases t with
  | sym y =>
    cases y with
    | varMark => cases h; exact .mark
    | kwVar =>
      obtain ⟨⟨made, k⟩, hmade, h⟩ := ok_of_bind h
      cases h
      exact .declared hmade
    | kwIf =>
      obtain ⟨g, hg, h⟩ := ok_of_bind h
      cases h
      exact .ladder hg
    | kwElse =>
      cases done with
      | nil => cases h
      | cons s before =>
        cases s with
        | ladder arms =>
          obtain ⟨⟨arm, k⟩, harm, h⟩ := ok_of_bind h
          cases h
          exact .arm rfl harm
        | _ => cases h
    | kwWhile =>
      obtain ⟨g, hg, h⟩ := ok_of_bind h
      cases h
      exact .loop hg
    | kwReturn =>
      obtain ⟨⟨inner, k⟩, hinner, h⟩ := ok_of_bind h
      obtain ⟨e, he, h⟩ := ok_of_bind h
      cases h
      exact .returned hinner he
    | kwBreak =>
      cases ts with
      | nil => cases h
      | cons s rest =>
        simp only [statement] at h
        split at h
        · rename_i hs
          cases h
          exact .broken rfl hs
        · cases h
    | kwFor =>
      obtain ⟨⟨made, k⟩, hmade, h⟩ := ok_of_bind h
      cases h
      exact .counted hmade
    | _ => exact hunmarked rfl h
  | _ => exact hunmarked rfl h

/-! ## Where a statement ends -/

/-- What closes a bracket with the text `left` has the text that belongs to it. -/
theorem closes_of_startsWith {left right : String} (hleft : startsWith left ts = true)
    (hcloser : closerOf? left = some right) (h : partner? ts = some k) :
    ∃ t, ts[k]? = some t ∧ t.reads right = true := by
  cases ts with
  | nil => simp [startsWith] at hleft
  | cons t ts =>
    obtain ⟨l, r, u, hl, hr, hu, hreads⟩ := reads_of_partner? h
    rw [Token.text?_of_reads hleft] at hl
    cases hl
    rw [hcloser] at hr
    cases hr
    exact ⟨u, hu, hreads⟩

/-- A frame ends with a token that has the text of a closing brace. -/
theorem Frame.last {rp rc : Nat} (h : Frame ts rp rc) :
    ∃ t, ts[rp + 1 + rc]? = some t ∧ t.reads "\x7d" = true := by
  obtain ⟨t, ht, hreads⟩ := closes_of_startsWith h.opensBrace rfl h.brace
  rw [getElem?_drop] at ht
  exact ⟨t, ht, hreads⟩

/-- The last token of a statement is a semicolon or has the text of a closing brace, unless the
statement is no more than its first token, the mark of a scope's start. -/
theorem StatementRead.last {prev : Option Token} {done done' : Done} {t : Token}
    (h : StatementRead block all prev done ts t done' used) : ∃ u, (t :: ts)[used]? = some u ∧
      (u.is .semi = true ∨ u.reads "\x7d" = true ∨ u = .sym .varMark) := by
  have hframe : ∀ {t : Token} {ts : List Token} {rp rc : Nat}, Frame ts rp rc →
      ∃ u, (t :: ts)[rp + 1 + (rc + 1)]? = some u ∧
        (u.is .semi = true ∨ u.reads "\x7d" = true ∨ u = .sym .varMark) := by
    intro t ts rp rc hf
    obtain ⟨u, hu, hreads⟩ := hf.last
    exact ⟨u, hu, Or.inr (Or.inl hreads)⟩
  cases h with
  | mark => exact ⟨_, rfl, Or.inr (Or.inr rfl)⟩
  | declared h =>
    obtain ⟨_, inner, k, parts, _, _, hinner, _, _, rfl⟩ := varStatement_inv h
    obtain ⟨_, u, hu, hsemi⟩ := upToSemicolon_inv hinner
    exact ⟨u, hu, Or.inl hsemi⟩
  | ladder h =>
    obtain ⟨rp, rc, hf, _, _, _, _, hused⟩ := guarded_inv h
    rw [hused]
    exact hframe hf
  | arm _ h =>
    rcases elseArm_inv h with ⟨t, rest, g, rfl, _, hg, _, rfl⟩ | ⟨rc, code, hbrace, hrc, _, _, rfl⟩
    · obtain ⟨rp, rc, hf, _, _, _, _, hused⟩ := guarded_inv hg
      rw [hused, getElem?_cons_succ]
      exact hframe hf
    · obtain ⟨u, hu, hreads⟩ := closes_of_startsWith hbrace rfl hrc
      exact ⟨u, hu, Or.inr (Or.inl hreads)⟩
  | loop h =>
    obtain ⟨rp, rc, hf, _, _, _, _, hused⟩ := guarded_inv h
    rw [hused]
    exact hframe hf
  | returned h _ =>
    obtain ⟨_, u, hu, hsemi⟩ := upToSemicolon_inv h
    exact ⟨u, hu, Or.inl hsemi⟩
  | broken hts hsemi => subst hts; exact ⟨_, rfl, Or.inl hsemi⟩
  | counted h =>
    obtain ⟨rp, rc, _, _, _, _, _, _, _, hf, _, _, _, _, _, _, _, rfl⟩ := forStatement_inv h
    exact hframe hf
  | unmarked h _ _ =>
    obtain ⟨_, u, hu, hsemi⟩ := upToSemicolon_inv h
    exact ⟨u, hu, Or.inl hsemi⟩

/-! ## Lengths -/

theorem length_inside {k : Nat} (h : partner ts = .ok k) :
    (inside k ts).length + 2 ≤ ts.length := by
  obtain ⟨hpos, hlt⟩ := Bracket.partner?_bounds (partner?_of_partner h)
  rw [inside, length_drop, length_take]
  omega

theorem length_upToSemicolon {inner : List Token} {k : Nat}
    (h : upToSemicolon all ts = .ok (inner, k)) :
    inner.length ≤ ts.length := by
  obtain ⟨rfl, _⟩ := upToSemicolon_inv h
  exact length_take_le' k ts

end LittleJ.Parser
