import LittleJ.Proofs.Readers

/-!
# More tokens behind

Searches run through all the tokens that are left: for the partner of a bracket, for a semicolon,
for the start of a block. Yet what is read to its end is read the same with more tokens behind it,
for every search stopped at what it found.
-/

namespace LittleJ

open LittleJ.Parser List Except

variable {k skip : Nat} {p : Program}

/-! ## Searches that found something -/

namespace Bracket

theorem balanceFrom_append {left right : String} {depth : Nat} {ts : List Token}
    (h : balanceFrom left right depth ts = some k) (rest : List Token) :
    balanceFrom left right depth (ts ++ rest) = some k := by
  induction ts generalizing depth k with
  | nil => simp [balanceFrom] at h
  | cons t ts ih =>
    rw [balanceFrom] at h
    rw [cons_append, balanceFrom]
    generalize (if t.reads left then depth + 1 else if t.reads right then depth - 1 else depth) = d
      at h ⊢
    split at h
    · rename_i hzero
      rw [if_pos hzero]
      exact h
    · rename_i hne
      obtain ⟨j, hj, rfl⟩ := Option.map_eq_some_iff.mp h
      rw [if_neg hne, ih hj]
      rfl

/-- A bracket that is closed is closed at the same place if more tokens follow. -/
theorem partner?_append {ts : List Token} (h : partner? ts = some k) (rest : List Token) :
    partner? (ts ++ rest) = some k := by
  cases ts with
  | nil => cases h
  | cons t ts =>
    rw [partner?_cons] at h
    rw [cons_append, partner?_cons]
    obtain ⟨p, hp, h⟩ := Option.bind_eq_some_iff.mp h
    rw [hp, Option.bind_some, ← cons_append]
    exact balanceFrom_append h rest

end Bracket

/-- A token that is found at the top level is found at the same place if more tokens follow. -/
theorem TopLevel.indexFrom_append {p : Token → Bool} {ts : List Token}
    (h : indexFrom p skip ts = .ok (some k)) (rest : List Token) :
    indexFrom p skip (ts ++ rest) = .ok (some k) := by
  fun_induction indexFrom p skip ts generalizing k with
  | case1 => cases h
  | case2 skip t ts ih =>
    obtain ⟨j, hj, rfl⟩ := eq_succ_of_map h
    rw [cons_append, indexFrom, ih hj]
    rfl
  | case3 t ts ho hk => cases h
  | case4 t ts ho i hi ih =>
    obtain ⟨j, hj, rfl⟩ := eq_succ_of_map h
    have hpartner : Bracket.partner? (t :: (ts ++ rest)) = some i := Bracket.partner?_append hi rest
    rw [cons_append, indexFrom, if_pos ho, hpartner]
    dsimp only
    rw [ih hj]
    rfl
  | case5 t ts ho hp =>
    cases h
    rw [cons_append, indexFrom, if_neg ho, if_pos hp]
  | case6 t ts ho hp ih =>
    obtain ⟨j, hj, rfl⟩ := eq_succ_of_map h
    rw [cons_append, indexFrom, if_neg ho, if_neg hp, ih hj]
    rfl

namespace Parser

variable {block : List Token → Parse Program} {all all' ts : List Token}

/-! ## More tokens behind a statement -/

section

variable {α β : Type} {p : Prop}

/-- Where `x` succeeds, `y` does, with the same result. -/
def Below (x y : Parse α) : Prop :=
  ∀ a, x = .ok a → y = .ok a

theorem Below.refl {x : Parse α} : Below x x :=
  fun _ h => h

theorem Below.bind {x y : Parse α} {k k' : α → Parse β} (h : Below x y)
    (hk : ∀ a, x = .ok a → Below (k a) (k' a)) : Below (x >>= k) (y >>= k') := by
  intro b hb
  obtain ⟨a, hx, hb⟩ := ok_of_bind hb
  rw [h a hx]
  exact hk a hx b hb

theorem Below.ite [Decidable p] {x y x' y' : Parse α} (h : p → Below x y) (h' : ¬p → Below x' y') :
    Below (if p then x else x') (if p then y else y') := by
  by_cases hp : p
  · rw [if_pos hp, if_pos hp]
    exact h hp
  · rw [if_neg hp, if_neg hp]
    exact h' hp

theorem below_check [Decidable p] {e : Error} {k k' : Unit → Parse β}
    (h : ¬p → Below (k ()) (k' ())) :
    Below (if p then fail e >>= k else k ()) (if p then fail e >>= k' else k' ()) :=
  .ite (fun _ => .refl) h

/-- Two checks of which the second is passed if the first is. -/
theorem below_checks {q : Prop} [Decidable p] [Decidable q] {e : Error} {k k' : Unit → Parse β}
    (hpq : ¬p → ¬q) (h : ¬p → Below (k ()) (k' ())) :
    Below (if p then fail e >>= k else k ()) (if q then fail e >>= k' else k' ()) := by
  intro b hb
  obtain ⟨hp, hb⟩ := ok_of_check hb
  rw [if_neg (hpq hp)]
  exact h hp b hb

end

theorem startsWith_append {s : String} (h : ¬(!startsWith s ts) = true) (rest : List Token) :
    ¬(!startsWith s (ts ++ rest)) = true := by
  cases ts with
  | nil => simp [startsWith] at h
  | cons t ts => exact h

theorem below_partner_append (rest : List Token) : Below (partner ts) (partner (ts ++ rest)) := by
  intro k hk
  rw [partner, Bracket.partner?_append (partner?_of_partner hk)]

theorem inside_append (h : k ≤ ts.length) (rest : List Token) :
    inside k (ts ++ rest) = inside k ts := by
  rw [inside, inside, take_append_of_le_length h]

theorem lt_length_of_partner (h : partner ts = .ok k) : k < ts.length :=
  (Bracket.partner?_bounds (partner?_of_partner h)).2

/-- The tokens up to a semicolon. The list `all` is only shown in a report. -/
theorem below_upToSemicolon_append (rest : List Token) :
    Below (upToSemicolon all ts) (upToSemicolon all' (ts ++ rest)) := by
  rintro ⟨inner, k⟩ h
  obtain ⟨found, hfound, hk⟩ := ok_of_bind h
  cases found with
  | none => exact absurd hk failAt_ne_ok
  | some j =>
    cases hk
    obtain ⟨_, t, ht, _⟩ := upToSemicolon_inv h
    have hlt : k < ts.length := (List.getElem?_eq_some_iff.mp ht).1
    have hindex : TopLevel.index? (·.is .semi) (ts ++ rest) = .ok (some k) :=
      TopLevel.indexFrom_append (ok_of_searched hfound) rest
    rw [upToSemicolon, hindex]
    show ok ((ts ++ rest).take k, k) = _
    rw [take_append_of_le_length (Nat.le_of_lt hlt)]

theorem below_guarded_append (word : String) (rest : List Token) :
    Below (guarded block word ts) (guarded block word (ts ++ rest)) := by
  unfold guarded
  refine below_checks (fun h => startsWith_append h rest) fun _ => ?_
  refine .bind (below_partner_append rest) fun rp hrp => below_check fun _ => ?_
  have hlt := lt_length_of_partner hrp
  dsimp only
  rw [drop_append_of_le_length hlt, inside_append (Nat.le_of_lt hlt)]
  refine below_checks (fun h => startsWith_append h rest) fun _ => ?_
  refine .bind (below_partner_append rest) fun rc hrc => ?_
  rw [inside_append (Nat.le_of_lt (lt_length_of_partner hrc))]
  exact .refl

theorem below_forStatement_append (rest : List Token) :
    Below (forStatement block ts) (forStatement block (ts ++ rest)) := by
  unfold forStatement
  refine below_checks (fun h => startsWith_append h rest) fun _ => ?_
  refine .bind (below_partner_append rest) fun rp hrp => below_check fun _ => ?_
  have hlt := lt_length_of_partner hrp
  dsimp only
  rw [drop_append_of_le_length hlt, inside_append (Nat.le_of_lt hlt)]
  refine below_checks (fun h => startsWith_append h rest) fun _ => ?_
  refine .bind (below_partner_append rest) fun rc hrc => ?_
  rw [inside_append (Nat.le_of_lt (lt_length_of_partner hrc))]
  exact .refl

theorem below_varStatement_append (prev : Option Token) (rest : List Token) :
    Below (varStatement block all prev ts) (varStatement block all' prev (ts ++ rest)) := by
  unfold varStatement
  exact below_check fun _ => .bind (below_upToSemicolon_append rest) fun _ _ => .refl

theorem below_elseArm_append (rest : List Token) :
    Below (elseArm block ts) (elseArm block (ts ++ rest)) := by
  cases ts with
  | nil =>
    intro a h
    cases h
  | cons t ts =>
    refine .ite (fun _ => .bind (below_guarded_append "else if" rest) fun _ _ => .refl) fun _ => ?_
    refine .ite (fun _ => .bind (below_partner_append rest) fun rc hrc => ?_) fun _ => .refl
    rw [inside_append (Nat.le_of_lt (lt_length_of_partner hrc))]
    exact .refl

theorem below_unmarked_append (ts : List Token) (done : Done) (rest : List Token) :
    Below (unmarked block all done ts) (unmarked block all' done (ts ++ rest)) :=
  .bind (below_upToSemicolon_append rest) fun _ _ => .refl

/-- **A statement that is read is read the same if more tokens follow.** -/
theorem below_statement_append (prev : Option Token) (done : Done) (t : Token) (rest : List Token) :
    Below (statement block all prev done t ts) (statement block all' prev done t (ts ++ rest)) := by
  cases t with
  | sym y =>
    cases y with
    | varMark => exact .refl
    | kwVar => exact .bind (below_varStatement_append prev rest) fun _ _ => .refl
    | kwIf => exact .bind (below_guarded_append "if" rest) fun _ _ => .refl
    | kwElse =>
      cases done with
      | nil => exact .refl
      | cons s before =>
        cases s with
        | ladder arms => exact .bind (below_elseArm_append rest) fun _ _ => .refl
        | _ => exact .refl
    | kwWhile => exact .bind (below_guarded_append "while" rest) fun _ _ => .refl
    | kwReturn => exact .bind (below_upToSemicolon_append rest) fun _ _ => .refl
    | kwBreak =>
      cases ts with
      | nil =>
        intro a h
        cases h
      | cons s ts => exact .refl
    | kwFor => exact .bind (below_forStatement_append rest) fun _ _ => .refl
    | _ => exact below_unmarked_append (_ :: ts) done rest
  | _ => exact below_unmarked_append (_ :: ts) done rest

/-- Tokens that are read to their end are read first, and then what follows them. -/
theorem statements_past {done : Done} {prev : Option Token}
    (h : statements block all done prev skip ts = .ok p) (hskip : skip ≤ ts.length)
    (all' rest : List Token) : statements block all' done prev skip (ts ++ rest) =
      statements block all' p.reverse (ts.getLast?.or prev) 0 rest := by
  induction ts generalizing done prev skip with
  | nil =>
    obtain rfl := Nat.le_zero.mp hskip
    cases h
    rw [reverse_reverse]
    rfl
  | cons t ts ih =>
    have hprev : (t :: ts).getLast?.or prev = ts.getLast?.or (some t) := by
      cases ts with
      | nil => rfl
      | cons u us =>
        rw [getLast?_cons_cons, getLast?_cons]
        rfl
    rw [cons_append, hprev]
    cases skip with
    | succ skip =>
      rw [statements] at h ⊢
      exact ih h (Nat.le_of_succ_le_succ hskip)
    | zero =>
      rw [statements] at h ⊢
      obtain ⟨⟨done', used⟩, hread, h⟩ := ok_of_bind h
      -- a statement ends at a token of its own, so it uses no more tokens than there are
      obtain ⟨_, hlast, _⟩ := (statement_inv hread).last
      have hused : used ≤ ts.length := Nat.le_of_lt_succ (List.getElem?_eq_some_iff.mp hlast).1
      rw [below_statement_append prev done t rest _ hread]
      exact ih h hused

theorem statements_append {done : Done} {prev : Option Token}
    (h : statements block all done prev skip ts = .ok p) (hskip : skip ≤ ts.length)
    (all' rest : List Token) : ∃ prev', statements block all' done prev skip (ts ++ rest) =
      statements block all' p.reverse prev' 0 rest :=
  ⟨_, statements_past h hskip all' rest⟩

end Parser

end LittleJ
