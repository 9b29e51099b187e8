import LittleJ.Proofs.Accepted
import LittleJ.Proofs.Canonical
import LittleJ.Proofs.PassedArgument

/-!
# Shorthand assignments

`x += r` is read as `x = x + r`, and `x -= r` as `x = x - r`, without parentheses around `r`. This
module says what that comes to.

Names, literals, refinements, calls and groups in `r` come to what they come to in `r` alone:
neither the name nor the operator that now stands before them is in their way. What is left of `r`
is a *row* of values and operators. In the assignment the operators are done on a longer row, which
the old number of `x` and the operator of the shorthand begin, and there precedence decides. **If no
operator of the row is as weak as the shorthand's own, `x` gets its old number plus or minus the
value of the whole of `r`.** Otherwise the shorthand takes the first operand for itself, and in `x
-= 5 - 2` the number 2 is taken away as well.
-/

namespace LittleJ

open Eval List Statement Expression Operator

/-! ## Passes behind a beginning

The tokens `front` stand before the ones that a pass begins with, nearest first. If a pass succeeds
without them it does the same behind them. -/

theorem Eval.raiseAt_ne_ok {α : Type} {e : String → Error} {ts : List Token} {σ τ : Store} {a : α} :
    raiseAt e ts σ ≠ .ok a τ := by
  intro h
  rw [raiseAt, get_bind] at h
  cases hexcerpt : σ.excerpt ts with
  | ok shown =>
    rw [hexcerpt] at h
    cases h
  | error f =>
    rw [hexcerpt] at h
    cases h

namespace Expression

variable {eval : Expr → Eval Value} {call : Nat → List Value → Eval Value} {σ τ : Store}
    {done front out ts : List Token} {skip : Nat}

/-- The expression around an object literal is only shown in reports. -/
theorem entries_within {whole whole' : List Token} {parts : List (List Token)}
    {table made : Table Value} (h : entries eval whole parts table σ = .ok made τ) :
    entries eval whole' parts table σ = .ok made τ := by
  induction parts generalizing table σ with
  | nil => exact h
  | cons part parts ih =>
    rw [entries.eq_def] at h ⊢
    dsimp only at h ⊢
    split at h
    next _ key t ts =>
      cases hkey : key? key with
      | none =>
        rw [hkey] at h
        exact absurd h raiseAt_ne_ok
      | some k =>
        rw [hkey] at h
        obtain ⟨v, ρ, hv, h⟩ := Eval.bind_eq_ok.1 h
        exact (bind_of_ok hv _).trans (ih h)
    next => exact absurd h raiseAt_ne_ok

theorem selects_behind (hfront : selects front.head? = false) :
    selects (done ++ front).head? = selects done.head? := by
  cases done with
  | nil => exact hfront
  | cons t done => rfl

theorem literalsFrom_behind (hfront : selects front.head? = false)
    (h : literalsFrom eval done skip ts σ = .ok out τ) :
    literalsFrom eval (done ++ front) skip ts σ = .ok (front.reverse ++ out) τ := by
  induction ts generalizing done skip σ with
  | nil =>
    rw [literalsFrom] at h
    cases h
    rw [literalsFrom, reverse_append]
    rfl
  | cons t ts ih =>
    cases skip with
    | succ skip => exact ih h
    | zero =>
      rw [literalsFrom] at h ⊢
      rw [selects_behind hfront]
      by_cases hbrace : t.is .lbrace = true
      · rw [if_pos hbrace] at h ⊢
        obtain ⟨k, ρ₁, hk, h⟩ := Eval.bind_eq_ok.1 h
        obtain ⟨parts, ρ₂, hparts, h⟩ := Eval.bind_eq_ok.1 h
        obtain ⟨table, ρ₃, htable, h⟩ := Eval.bind_eq_ok.1 h
        obtain ⟨r, ρ₄, hr, h⟩ := Eval.bind_eq_ok.1 h
        rw [bind_of_ok hk, bind_of_ok hparts, bind_of_ok (entries_within htable), bind_of_ok hr]
        exact ih h
      · rw [if_neg hbrace] at h ⊢
        by_cases harray : (t.is .lbracket && !selects done.head?) = true
        · rw [if_pos harray] at h ⊢
          obtain ⟨⟨vs, k⟩, ρ₁, hvs, h⟩ := Eval.bind_eq_ok.1 h
          obtain ⟨r, ρ₂, hr, h⟩ := Eval.bind_eq_ok.1 h
          rw [bind_of_ok hvs]
          exact (bind_of_ok hr _).trans (ih h)
        · rw [if_neg harray] at h ⊢
          exact ih h

/-- The part that the brackets at the start of `ts` select, and how many tokens behind the first one
they take. -/
def selected (eval : Expr → Eval Value) (base : Value) (ts : List Token) : Eval (Value × Nat) := do
  if !base.isIndexable then breakdown .broken
  let k ← partner ts
  if k == 1 then raise .emptyRefinement
  let key ← eval (inside k ts)
  return (← refine base key, k)

/-- The value of the group at the start of `ts`. -/
def grouped (eval : Expr → Eval Value) (ts : List Token) : Eval (Value × Nat) := do
  let k ← partner ts
  return (← eval (inside k ts), k)

theorem applyFrom_selected (base : Value) (before ts : List Token) :
    applyFrom eval call (.val base :: before) 0 (.sym .lbracket :: ts) =
      selected eval base (.sym .lbracket :: ts) >>= fun p =>
      applyFrom eval call (.val p.1 :: before) p.2 ts := by
  rw [applyFrom.eq_def, selected]
  dsimp only
  rw [if_pos (by decide)]
  cases base.isIndexable with
  | false => rfl
  | true =>
    refine Eq.trans ?_ (bind_assoc _ _ _).symm
    refine bind_congr fun k => ?_
    by_cases hk : (k == 1) = true
    · rw [if_pos hk, if_pos hk]
      rfl
    · rw [if_neg hk, if_neg hk]
      simp only [bind_assoc, pure_bind]

theorem applyFrom_grouped (hdone : ∀ f before, done = .val f :: before → f.isCallable = false)
    (ts : List Token) :
    applyFrom eval call done 0 (.sym .lparen :: ts) =
      grouped eval (.sym .lparen :: ts) >>= fun p =>
      applyFrom eval call (.val p.1 :: done) p.2 ts := by
  rw [applyFrom.eq_def, grouped]
  dsimp only
  rw [if_neg (by decide), if_pos (by decide)]
  split
  next f before =>
    simp only [hdone f before rfl, bind_assoc, pure_bind]
    rfl
  next => simp only [bind_assoc, pure_bind]

theorem applyFrom_other {t : Token} (hbracket : t ≠ .sym .lbracket) (hparen : t ≠ .sym .lparen)
    (done ts : List Token) :
    applyFrom eval call done 0 (t :: ts) = applyFrom eval call (t :: done) 0 ts := by
  rw [applyFrom.eq_def]
  simp [Bool.eq_false_iff.2 (mt Token.is_iff.1 hbracket), Bool.eq_false_iff.2
    (mt Token.is_iff.1 hparen)]

/-- What one step of the pass can do. -/
theorem applyFrom_cases {t : Token} {done out : List Token}
    (h : applyFrom eval call done 0 (t :: ts) σ = .ok out τ) :
    (∃ base before p ρ, t = .sym .lbracket ∧ done = .val base :: before ∧
      selected eval base (t :: ts) σ = .ok p ρ ∧ applyFrom eval call (.val p.1 :: before) p.2 ts ρ =
        .ok out τ) ∨
    (∃ f before p w ρ ρ', t = .sym .lparen ∧ done = .val f :: before ∧ f.isCallable = true ∧
      argumentsOf eval (t :: ts) σ = .ok p ρ ∧ apply call f p.1 ρ = .ok w ρ' ∧
      applyFrom eval call (.val w :: before) p.2 ts ρ' = .ok out τ) ∨
    (∃ p ρ, t = .sym .lparen ∧ (∀ f before, done = .val f :: before → f.isCallable = false) ∧
      grouped eval (t :: ts) σ = .ok p ρ ∧ applyFrom eval call (.val p.1 :: done) p.2 ts ρ =
        .ok out τ) ∨
    (t ≠ .sym .lbracket ∧ t ≠ .sym .lparen ∧ applyFrom eval call (t :: done) 0 ts σ =
      .ok out τ) := by
  by_cases hbracket : t = .sym .lbracket
  · subst hbracket
    rcases done with _ | ⟨a, before⟩
    · cases h
    cases a with
    | val base =>
      rw [applyFrom_selected] at h
      obtain ⟨p, ρ, hp, h⟩ := Eval.bind_eq_ok.1 h
      exact .inl ⟨base, before, p, ρ, rfl, rfl, hp, h⟩
    | _ => cases h
  by_cases hparen : t = .sym .lparen
  · subst hparen
    by_cases hcall : ∃ f before, done = .val f :: before ∧ f.isCallable = true
    · obtain ⟨f, before, rfl, hf⟩ := hcall
      rw [applyFrom_call hf] at h
      obtain ⟨p, ρ, hp, h⟩ := Eval.bind_eq_ok.1 h
      obtain ⟨w, ρ', hw, h⟩ := Eval.bind_eq_ok.1 h
      exact .inr (.inl ⟨f, before, p, w, ρ, ρ', rfl, rfl, hf, hp, hw, h⟩)
    · have hnone : ∀ f before, done = .val f :: before → f.isCallable = false :=
        fun f before hdone => Bool.eq_false_iff.2 fun hf => hcall ⟨f, before, hdone, hf⟩
      rw [applyFrom_grouped hnone] at h
      obtain ⟨p, ρ, hp, h⟩ := Eval.bind_eq_ok.1 h
      exact .inr (.inr (.inl ⟨p, ρ, rfl, hnone, hp, h⟩))
  · rw [applyFrom_other hbracket hparen] at h
    exact .inr (.inr (.inr ⟨hbracket, hparen, h⟩))

theorem applyFrom_behind {y : Symbol} (h : applyFrom eval call done skip ts σ = .ok out τ) :
    applyFrom eval call (done ++ .sym y :: front) skip ts σ =
      .ok (front.reverse ++ .sym y :: out) τ := by
  induction ts generalizing done skip σ with
  | nil =>
    rw [applyFrom] at h
    cases h
    rw [applyFrom]
    simp [pure, EStateM.pure]
  | cons t ts ih =>
    cases skip with
    | succ skip => exact ih h
    | zero =>
      rcases applyFrom_cases h with ⟨base, before, p, ρ, rfl, rfl, hp, h⟩ |
        ⟨f, before, p, w, ρ, ρ', rfl, rfl, hf, hp, hw, h⟩ | ⟨p, ρ, rfl, hnone, hp, h⟩ |
        ⟨hbracket, hparen, h⟩
      · rw [cons_append, applyFrom_selected, bind_of_ok hp]
        exact ih h
      · rw [cons_append, applyFrom_call hf, bind_of_ok hp, bind_of_ok hw]
        exact ih h
      · have hnone' : ∀ f before, done ++ .sym y :: front = .val f :: before →
          f.isCallable = false := by
          intro f before hdone
          rcases done with _ | ⟨a, done⟩
          · cases hdone
          · cases hdone
            exact hnone f done rfl
        rw [applyFrom_grouped hnone', bind_of_ok hp]
        exact ih h
      · rw [applyFrom_other hbracket hparen]
        exact ih h

end Expression

namespace Operator

variable {eval : Expr → Eval Value} {σ τ : Store} {before after done front out ts : List Token}
    {level : List Symbol}

/-- After an operator a sign is unary, as it is at the start. -/
theorem isUnary_behind (before front : List Token) (y : Symbol) :
    minusIsUnary (before ++ .sym y :: front).head? = minusIsUnary before.head? ∧
      plusIsUnary (before ++ .sym y :: front).head? = plusIsUnary before.head? := by
  cases before with
  | nil => exact ⟨rfl, rfl⟩
  | cons t before => exact ⟨rfl, rfl⟩

theorem unaryFrom_behind {y : Symbol} (h : unaryFrom eval before after σ = .ok out τ) :
    unaryFrom eval (before ++ .sym y :: front) after σ =
      unaryFrom eval (.sym y :: front) out τ := by
  induction before generalizing after σ with
  | nil =>
    rw [unaryFrom] at h
    cases h
    rfl
  | cons t before ih =>
    obtain ⟨hminus, hplus⟩ := isUnary_behind before front y
    rw [cons_append]
    rw [unaryFrom.eq_def] at h ⊢
    dsimp only at h ⊢
    rw [hminus, hplus]
    split at h
    next =>
      obtain ⟨v, ρ, hv, h⟩ := Eval.bind_eq_ok.1 h
      obtain ⟨b, ρ', hb, h⟩ := Eval.bind_eq_ok.1 h
      rw [bind_of_ok hv, bind_of_ok hb]
      exact ih h
    next =>
      split at h
      next hunary =>
        obtain ⟨v, ρ, hv, h⟩ := Eval.bind_eq_ok.1 h
        rw [if_pos hunary, bind_of_ok hv]
        cases v with
        | num x => exact ih h
        | _ => cases h
      next hbinary =>
        rw [if_neg hbinary]
        exact ih h
    next =>
      split at h
      next hunary =>
        obtain ⟨v, ρ, hv, h⟩ := Eval.bind_eq_ok.1 h
        obtain ⟨x, ρ', hx, h⟩ := Eval.bind_eq_ok.1 h
        rw [if_pos hunary, bind_of_ok hv, bind_of_ok hx]
        exact ih h
      next hbinary =>
        rw [if_neg hbinary]
        exact ih h
    next => exact ih h

/-- What an operator makes of its neighbours does not depend on the whole expression, which is only
shown in reports. It is a value, but for `&&` and `||`, which give one of the neighbours. -/
theorem combine_ok {op : Symbol} {a b c : Token} {whole : List Token}
    (h : combine op a b whole σ = .ok c τ) : (∀ whole', combine op a b whole' σ = .ok c τ) ∧
    (op ≠ .both → op ≠ .either → ∃ v, c = .val v) := by
  unfold combine at h ⊢
  split at h
  · refine ⟨fun _ => h, fun _ _ => ?_⟩
    obtain ⟨same, ρ, -, h⟩ := Eval.bind_eq_ok.1 h
    cases h
    exact ⟨_, rfl⟩
  · refine ⟨fun _ => h, fun _ _ => ?_⟩
    obtain ⟨same, ρ, -, h⟩ := Eval.bind_eq_ok.1 h
    cases h
    exact ⟨_, rfl⟩
  · exact ⟨fun _ => h, fun hboth _ => absurd rfl hboth⟩
  · exact ⟨fun _ => h, fun _ heither => absurd rfl heither⟩
  · split at h
    next s t =>
      cases hst : onStrings? op s t with
      | none =>
        rw [hst] at h
        exact absurd h raiseAt_ne_ok
      | some v =>
        rw [hst] at h
        refine ⟨fun _ => h, fun _ _ => ?_⟩
        cases h
        exact ⟨v, rfl⟩
    next x y =>
      cases hxy : onNumbers? op x y with
      | none =>
        rw [hxy] at h
        exact absurd h raiseAt_ne_ok
      | some r =>
        rw [hxy] at h
        refine ⟨fun _ => h, fun _ _ => ?_⟩
        obtain ⟨v, ρ, -, h⟩ := Eval.bind_eq_ok.1 h
        cases h
        exact ⟨v, rfl⟩
    next => exact absurd h raiseAt_ne_ok

theorem levelFrom_behind (h : levelFrom level done ts σ = .ok out τ) :
    levelFrom level (done ++ front) ts σ = .ok (front.reverse ++ out) τ := by
  -- an operator takes its right neighbour with it, so the induction is the function's own
  induction done, ts using levelFrom.induct level generalizing σ with
  | case1 done =>
    rw [levelFrom] at h
    cases h
    rw [levelFrom]
    simp [pure, EStateM.pure]
  | case2 done t ts hnone ih =>
    rw [levelFrom, hnone] at h ⊢
    exact ih h
  | case3 t op hop a before b rest ih =>
    rw [levelFrom, hop] at h
    rw [cons_append, levelFrom, hop]
    obtain ⟨u, ρ, hu, h⟩ := Eval.bind_eq_ok.1 h
    obtain ⟨c, ρ', hc, h⟩ := Eval.bind_eq_ok.1 h
    refine (bind_of_ok hu _).trans ((bind_of_ok ((combine_ok hc).1 _) _).trans (ih c h))
  | case4 done t ts op hop hother =>
    rw [levelFrom.eq_def] at h
    simp only [hop] at h
    cases h

/-! ## Rows -/

/-- The operators that bind less tightly than a shorthand's own. -/
def looser : List Symbol :=
  (levels.drop 2).flatten

/-- Whether a token is a binary operator that binds no more tightly than `+` and `-`. Behind
`before` a sign may be unary. -/
def isLoose (before : Option Token) : Token → Bool
  | .sym .plus => !plusIsUnary before
  | .sym .minus => !minusIsUnary before
  | .sym y => looser.contains y
  | _ => false

/-- Whether no token is loose. The tokens stand in reverse order. -/
def isTightFrom : List Token → Bool
  | [] => true
  | t :: before => !isLoose before.head? t && isTightFrom before

/-- Whether all binary operators of a row bind more tightly than `+` and `-`. -/
def isTight (row : List Token) : Bool :=
  isTightFrom row.reverse

/-- The symbols that a row without loose operators has lost when its unary operators are done. -/
def spent : List Symbol :=
  .bang :: (levels.drop 1).flatten

theorem unaryFrom_tight (hbefore : isTightFrom before = true)
    (hafter : ∀ t ∈ after, ∀ y ∈ spent, t ≠ .sym y)
    (h : unaryFrom eval before after σ = .ok out τ) : ∀ t ∈ out, ∀ y ∈ spent, t ≠ .sym y := by
  induction before generalizing after σ with
  | nil =>
    rw [unaryFrom] at h
    cases h
    exact hafter
  | cons t before ih =>
    obtain ⟨ht, hrest⟩ : isLoose before.head? t = false ∧ isTightFrom before = true := by
      simpa [isTightFrom] using hbefore
    have hvalue (v : Value) : ∀ t ∈ .val v :: after.tail, ∀ y ∈ spent, t ≠ .sym y := by
      intro t ht
      rcases List.mem_cons.1 ht with rfl | ht
      · intro y _ hy
        cases hy
      · exact hafter t (mem_of_mem_tail ht)
    rw [unaryFrom.eq_def] at h
    dsimp only at h
    split at h
    next =>
      obtain ⟨v, ρ, hv, h⟩ := Eval.bind_eq_ok.1 h
      obtain ⟨b, ρ', hb, h⟩ := Eval.bind_eq_ok.1 h
      exact ih hrest (hvalue _) h
    next =>
      have hunary : minusIsUnary before.head? = true := by simpa [isLoose] using ht
      rw [if_pos hunary] at h
      obtain ⟨v, ρ, hv, h⟩ := Eval.bind_eq_ok.1 h
      cases v with
      | num x => exact ih hrest (hvalue _) h
      | _ => cases h
    next =>
      have hunary : plusIsUnary before.head? = true := by simpa [isLoose] using ht
      rw [if_pos hunary] at h
      obtain ⟨v, ρ, hv, h⟩ := Eval.bind_eq_ok.1 h
      obtain ⟨x, ρ', hx, h⟩ := Eval.bind_eq_ok.1 h
      exact ih hrest (hvalue _) h
    next hbang hminus hplus =>
      refine ih hrest ?_ h
      intro u hu y hy huy
      rcases List.mem_cons.1 hu with rfl | hu
      · subst huy
        have hy' : y = .bang ∨ y = .plus ∨ y = .minus ∨ y ∈ looser := by
          simpa [spent, looser, levels, or_assoc] using hy
        rcases hy' with rfl | rfl | rfl | hy'
        · exact hbang rfl
        · exact hplus rfl
        · exact hminus rfl
        · have hloose : isLoose before.head? (.sym y) = looser.contains y := by
            unfold isLoose
            split
            next heq => exact absurd heq hplus
            next heq => exact absurd heq hminus
            next heq => cases heq; rfl
            next hother => exact absurd rfl (hother y)
          rw [hloose, List.contains_iff_mem.2 hy'] at ht
          cases ht
      · exact hafter u hu y hy huy

/-- When the products are done, no operator of theirs is left, and nothing has come into the row but
values. -/
theorem levelFrom_products {gone : List Symbol}
    (hdone : ∀ t ∈ done, ∀ y ∈ [.star, .slash, .percent] ++ gone, t ≠ .sym y)
    (hts : ∀ t ∈ ts, ∀ y ∈ gone, t ≠ .sym y)
    (h : levelFrom [.star, .slash, .percent] done ts σ = .ok out τ) :
    ∀ t ∈ out, ∀ y ∈ [.star, .slash, .percent] ++ gone, t ≠ .sym y := by
  induction done, ts using levelFrom.induct [.star, .slash, .percent] generalizing σ with
  | case1 done =>
    rw [levelFrom] at h
    cases h
    intro t ht
    exact hdone t (List.mem_reverse.1 ht)
  | case2 done t ts hnone ih =>
    obtain ⟨ht, hts⟩ := List.forall_mem_cons.1 hts
    rw [levelFrom, hnone] at h
    refine ih (List.forall_mem_cons.2 ⟨?_, hdone⟩) hts h
    intro y hy heq
    rcases List.mem_append.1 hy with hy | hy
    · rw [heq, ofLevel, if_pos (List.contains_iff_mem.2 hy)] at hnone
      cases hnone
    · exact ht y hy heq
  | case3 t op hop a before b rest ih =>
    rw [levelFrom, hop] at h
    obtain ⟨u, ρ, hu, h⟩ := Eval.bind_eq_ok.1 h
    obtain ⟨c, ρ', hc, h⟩ := Eval.bind_eq_ok.1 h
    have hmem : op ∈ [.star, .slash, .percent] := by
      unfold ofLevel at hop
      split at hop
      next y =>
        split at hop
        next hy =>
          cases hop
          exact List.contains_iff_mem.1 hy
        next => cases hop
      next => cases hop
    obtain ⟨v, rfl⟩ : ∃ v, c = .val v := by
      refine (combine_ok hc).2 ?_ ?_ <;>
      · rintro rfl
        exact absurd hmem (by decide)
    obtain ⟨-, hbefore⟩ := List.forall_mem_cons.1 hdone
    obtain ⟨-, hrest⟩ := List.forall_mem_cons.1 (List.forall_mem_cons.1 hts).2
    refine ih (.val v) (List.forall_mem_cons.2 ⟨?_, hbefore⟩) hrest h
    intro y _ hy
    cases hy
  | case4 done t ts op hop hother =>
    rw [levelFrom.eq_def] at h
    simp only [hop] at h
    cases h

/-- A row without operators of a level is left as it is. -/
theorem levelFrom_idle (hts : ∀ t ∈ ts, ∀ y ∈ level, t ≠ .sym y) (done : List Token) :
    levelFrom level done ts = pure (done.reverse ++ ts) := by
  induction ts generalizing done with
  | nil => simp [levelFrom]
  | cons t ts ih =>
    have hnone : ofLevel level t = none := by
      unfold ofLevel
      split
      next y =>
        by_cases hy : y ∈ level
        · exact absurd rfl (hts _ mem_cons_self y hy)
        · simp [hy]
      next => rfl
    rw [levelFrom, hnone]
    simpa using ih (fun u hu => hts u (mem_cons_of_mem _ hu)) (t :: done)

theorem unaryFrom_idle (hbefore : ∀ t ∈ before, ∀ y ∈ [.bang, .minus, .plus], t ≠ .sym y)
    (after : List Token) :
    unaryFrom eval before after = pure (before.reverse ++ after) := by
  induction before generalizing after with
  | nil => rfl
  | cons t before ih =>
    have ht := hbefore t mem_cons_self
    have hrest := ih (fun u hu => hbefore u (mem_cons_of_mem _ hu)) (t :: after)
    rw [unaryFrom.eq_def]
    dsimp only
    split
    next => exact absurd rfl (ht .bang (by simp))
    next => exact absurd rfl (ht .minus (by simp))
    next => exact absurd rfl (ht .plus (by simp))
    next => simpa using hrest

theorem binaryFrom_idle {levels : List (List Symbol)}
    (hts : ∀ t ∈ ts, ∀ y ∈ levels.flatten, t ≠ .sym y) :
    binaryFrom levels ts = pure ts := by
  induction levels with
  | nil => rfl
  | cons level rest ih =>
    have hlevel := levelFrom_idle (fun t ht y (hy : y ∈ level) => hts t ht y (by simp [hy])) []
    rw [binaryFrom, hlevel, reverse_nil, nil_append, pure_bind]
    split
    · rfl
    · exact ih fun t ht y hy => hts t ht y (by simp_all)

/-- Where there is no operator at all a pass does nothing. -/
theorem pass_idle (hts : ∀ t ∈ ts, ∀ y ∈ .bang :: levels.flatten, t ≠ .sym y) :
    pass eval ts = pure ts := by
  have hunary : unary eval ts = pure ts := by
    rw [unary, unaryFrom_idle]
    · simp
    · intro t ht y hy
      refine hts t (List.mem_reverse.1 ht) y ?_
      simp only [mem_cons, not_mem_nil, or_false] at hy
      rcases hy with rfl | rfl | rfl <;> simp [levels]
  rw [pass, hunary, pure_bind]
  exact binaryFrom_idle fun t ht y hy => hts t ht y (mem_cons_of_mem _ hy)

/-- A row without loose operators that comes to a value does so by its unary operators and its
products. -/
theorem settle_tight {row : List Token} (htight : isTight row = true) {v : Value}
    (h : settle eval row σ = .ok (.val v) τ) :
    ∃ ts ρ, unary eval row σ = .ok ts ρ ∧ levelFrom [.star, .slash, .percent] [] ts ρ =
      .ok [.val v] τ := by
  obtain ⟨next, ρ, hpass, h⟩ := Eval.bind_eq_ok.1 h
  obtain ⟨ts, ρ₁, hunary, hpass⟩ := Eval.bind_eq_ok.1 hpass
  obtain ⟨us, ρ₂, hproducts, hpass⟩ := Eval.bind_eq_ok.1 hpass
  have hspent := unaryFrom_tight htight (by simp) hunary
  have hidle : ∀ t ∈ us, ∀ y ∈ .bang :: levels.flatten, t ≠ .sym y := by
    intro t ht y hy
    refine levelFrom_products (by simp) hspent hproducts t ht y ?_
    have hperm : .bang :: levels.flatten ⊆ [Symbol.star, .slash, .percent] ++ spent := by decide
    exact hperm hy
  -- the remaining levels find nothing to do
  have hrest : binaryFrom (levels.drop 1) us = pure us :=
    binaryFrom_idle fun t ht y hy => hidle t ht y (mem_cons_of_mem _ (by simp_all [levels]))
  obtain ⟨rfl, rfl⟩ : us = next ∧ ρ₂ = ρ := by
    split at hpass
    · cases hpass
      exact ⟨rfl, rfl⟩
    · cases (congrFun hrest ρ₂).symm.trans hpass
      exact ⟨rfl, rfl⟩
  refine ⟨ts, ρ₁, hunary, ?_⟩
  by_cases hone : ∃ t, us = [t]
  · obtain ⟨t, rfl⟩ := hone
    rw [settleFrom] at h
    cases h
    exact hproducts
  · rw [settleFrom.eq_def] at h
    split at h
    next => exact absurd ⟨_, rfl⟩ hone
    next =>
      rw [pass_idle hidle, pure_bind, if_neg (Nat.lt_irrefl _)] at h
      exact absurd h raiseAt_ne_ok

end Operator

/-! ## The two shorthands -/

/-- The assignments that change a number by another one. -/
inductive Shorthand
  | add
  | subtract
deriving DecidableEq, Repr

namespace Shorthand

/-- The sign between target and value. -/
def sign : Shorthand → Symbol
  | add => .plusAssign
  | subtract => .minusAssign

/-- The operator of the assignment that a shorthand is read as. -/
def operator : Shorthand → Symbol
  | add => .plus
  | subtract => .minus

/-- What becomes of a number. -/
def change : Shorthand → Float → Float → Float
  | add, x, y => x + y
  | subtract, x, y => x - y

end Shorthand

namespace Operator

variable {eval : Expr → Eval Value} {σ τ : Store}

theorem unary_behind (op : Shorthand) (x : Float) {row ts : List Token}
    (h : unary eval row σ = .ok ts τ) :
    unary eval (.val (.num x) :: .sym op.operator :: row) σ =
      .ok (.val (.num x) :: .sym op.operator :: ts) τ := by
  have hreverse : (Token.val (.num x) :: .sym op.operator :: row).reverse =
      row.reverse ++ .sym op.operator :: [.val (.num x)] := by simp
  rw [unary, hreverse, unaryFrom_behind h]
  cases op <;> rfl

/-- **Behind a number and the operator of a shorthand, a row without loose operators is one
operand.** -/
theorem settle_behind (op : Shorthand) {row : List Token} (htight : isTight row = true)
    {x w : Float} (h : settle eval row σ = .ok (.val (.num w)) τ) :
    settle eval (.val (.num x) :: .sym op.operator :: row) σ =
      .ok (.val (.num (op.change x w))) τ := by
  obtain ⟨ts, ρ, hunary, hproducts⟩ := settle_tight htight h
  have hfirst : levelFrom [.star, .slash, .percent] [] (.val (.num x) :: .sym op.operator :: ts) ρ =
      .ok [.val (.num x), .sym op.operator, .val (.num w)] τ := by
    have hstart : levelFrom [.star, .slash, .percent] [] (.val (.num x) :: .sym op.operator :: ts) =
        levelFrom [.star, .slash, .percent] ([] ++ [.sym op.operator, .val (.num x)]) ts := by
      cases op <;> rfl
    rw [hstart, levelFrom_behind hproducts]
    rfl
  have hpass : pass eval (.val (.num x) :: .sym op.operator :: row) σ =
      .ok [.val (.num (op.change x w))] τ := by
    rw [pass, bind_of_ok (unary_behind op x hunary)]
    refine (bind_of_ok hfirst _).trans ?_
    cases op <;> rfl
  rw [settle, bind_of_ok hpass, settleFrom]
  rfl

end Operator

/-! ## Expressions and statements -/

section

variable {ctx : Context} {fuel scope : Nat} {σ ρ τ : Store} {x : String} {old w : Float}
    {e ts row : List Token} (op : Shorthand)

/-- The tokens that are left of an expression when only its operators are still to be done. -/
def Expression.rowOf (ctx : Context) (fuel scope : Nat) (e : Expr) : Eval (List Token) := do
  let ts ← resolve scope (← load e)
  let ts ← literals (evaluate ctx fuel scope) ts
  applications (evaluate ctx fuel scope) (call ctx fuel scope) ts

/-- The value that the operators of a row make of it. -/
def Operator.valueOf (eval : Expr → Eval Value) (row : List Token) : Eval Value := do
  match ← settle eval row with
  | .val v => if v.isProper then return v else raise .noValue
  | _ => raise .noValue

/-- An expression comes to the value of its row. -/
theorem evaluate_eq_row (ctx : Context) (fuel scope : Nat) (e : Expr) :
    (do evaluate ctx (fuel + 1) scope (← load e)) = rowOf ctx fuel scope e >>=
      valueOf (evaluate ctx fuel scope) := by
  simp only [rowOf, bind_assoc, evaluate, reduce]
  rfl

theorem Operator.settle_of_valueOf {eval : Expr → Eval Value} {v : Value}
    (h : valueOf eval row σ = .ok v τ) :
    settle eval row σ = .ok (.val v) τ := by
  obtain ⟨t, ρ, ht, h⟩ := Eval.bind_eq_ok.1 h
  cases t with
  | val u =>
    cases hproper : u.isProper with
    | true =>
      simp only [hproper, if_true] at h
      cases h
      exact ht
    | false =>
      simp only [hproper] at h
      cases h
  | _ => cases h

theorem Statement.scopes_load (h : load e σ = .ok ts τ) : τ.scopes = σ.scopes := by
  induction e generalizing σ ts with
  | nil =>
    cases h
    rfl
  | cons t e ih =>
    rw [load.eq_def] at h
    dsimp only at h
    split at h
    next f =>
      obtain ⟨r, ρ, hr, h⟩ := Eval.bind_eq_ok.1 h
      obtain ⟨us, ρ', hus, h⟩ := Eval.bind_eq_ok.1 h
      cases h
      cases hr
      exact (ih hus).trans rfl
    next =>
      obtain ⟨us, ρ', hus, h⟩ := Eval.bind_eq_ok.1 h
      cases h
      exact ih hus

/-- The name is replaced by its number, and the rest as it would be alone. -/
theorem Expression.resolve_behind (hx : σ.lookup scope x = .ok (.num old))
    (h : resolve scope e σ = .ok ts τ) :
    resolve scope (.name x :: .sym op.operator :: e) σ =
      .ok (.val (.num old) :: .sym op.operator :: ts) τ := by
  have hlookup : (adoptAll scope e σ).lookup scope x = .ok (.num old) := by
    rw [Store.lookup_of_scopes (scopes_adoptAll scope e σ), hx]
  have hsubstitute :
      substitute ((adoptAll scope e σ).lookup scope) 0 (.name x :: .sym op.operator :: e) =
      (.val (.num old) :: .sym op.operator ::
        (substitute ((adoptAll scope e σ).lookup scope) 0 e).1,
        (substitute ((adoptAll scope e σ).lookup scope) 0 e).2) := by
    cases op <;> simp [substitute, hlookup, Shorthand.operator]
  have hadopt : adoptAll scope (.name x :: .sym op.operator :: e) σ = adoptAll scope e σ := rfl
  rw [resolve, resolveWith, modify_bind, get_bind] at h ⊢
  rw [hadopt, hsubstitute]
  cases hrest : (substitute ((adoptAll scope e σ).lookup scope) 0 e).2 with
  | none =>
    simp only [hrest] at h
    cases h
    rfl
  | some err =>
    simp only [hrest] at h
    cases h

/-- **What is left of `x + r` or `x - r` is the number of `x`, the operator and what is left of
`r`.** -/
theorem Expression.rowOf_behind (hx : σ.lookup scope x = .ok (.num old))
    (h : rowOf ctx fuel scope e σ = .ok row τ) :
    rowOf ctx fuel scope (.name x :: .sym op.operator :: e) σ =
      .ok (.val (.num old) :: .sym op.operator :: row) τ := by
  obtain ⟨e', ρ₁, hload, h⟩ := Eval.bind_eq_ok.1 h
  obtain ⟨ts, ρ₂, hresolve, h⟩ := Eval.bind_eq_ok.1 h
  obtain ⟨us, ρ₃, hliterals, h⟩ := Eval.bind_eq_ok.1 h
  have hload' :
      load (.name x :: .sym op.operator :: e) σ = .ok (.name x :: .sym op.operator :: e') ρ₁ := by
    have hrest : load (.sym op.operator :: e) σ = .ok (.sym op.operator :: e') ρ₁ :=
      bind_of_ok hload _
    exact bind_of_ok hrest _
  have hx' : ρ₁.lookup scope x = .ok (.num old) := by
    rw [Store.lookup_of_scopes (scopes_load hload), hx]
  have hliterals' :
      literals (evaluate ctx fuel scope) (.val (.num old) :: .sym op.operator :: ts) ρ₂ =
      .ok (.val (.num old) :: .sym op.operator :: us) ρ₃ := by
    have hstart : literals (evaluate ctx fuel scope) (.val (.num old) :: .sym op.operator :: ts) =
        literalsFrom (evaluate ctx fuel scope) ([] ++ [.sym op.operator, .val (.num old)]) 0
        ts := by
      cases op <;> rfl
    rw [hstart, literalsFrom_behind (by cases op <;> rfl) hliterals]
    rfl
  have happly : applications (evaluate ctx fuel scope) (call ctx fuel scope)
      (.val (.num old) :: .sym op.operator :: us) ρ₃ =
        .ok (.val (.num old) :: .sym op.operator :: row) τ := by
    have hendless : ρ₃.anyEndless (.val (.num old) :: .sym op.operator :: us) = ρ₃.anyEndless us :=
      rfl
    rw [applications, get_bind] at h ⊢
    rw [hendless]
    cases hcycle : ρ₃.anyEndless us with
    | true =>
      rw [hcycle] at h
      cases h
    | false =>
      rw [hcycle] at h
      have hstart : applyFrom (evaluate ctx fuel scope) (call ctx fuel scope) [] 0
          (.val (.num old) :: .sym op.operator :: us) = applyFrom (evaluate ctx fuel scope)
          (call ctx fuel scope) ([] ++ .sym op.operator :: [.val (.num old)]) 0 us := by
        cases op <;> rfl
      show applyFrom (evaluate ctx fuel scope) (call ctx fuel scope) [] 0 _ ρ₃ = _
      rw [hstart]
      exact applyFrom_behind h
  rw [rowOf, bind_of_ok hload', bind_of_ok (resolve_behind op hx' hresolve),
    bind_of_ok hliterals', happly]

/-- An assignment to a variable sets it to the value of a row. -/
theorem exec_assign_row (h : rowOf ctx fuel scope e σ = .ok row ρ) :
    exec ctx (fuel + 1) scope (.assign [.name x] e) σ =
      (valueOf (evaluate ctx fuel scope) row >>= assignName scope x) ρ := by
  obtain ⟨e', ρ₁, hload, h⟩ := Eval.bind_eq_ok.1 h
  obtain ⟨ts, ρ₂, hresolve, h⟩ := Eval.bind_eq_ok.1 h
  obtain ⟨us, ρ₃, hliterals, h⟩ := Eval.bind_eq_ok.1 h
  rw [exec, bind_of_ok hload, bind_of_ok hresolve, reduce]
  simp only [bind_assoc]
  rw [bind_of_ok hliterals, bind_of_ok h, valueOf]
  simp only [bind_assoc]
  rfl

end

namespace Store

variable {σ : Store} {r o : Nat} {name : String}

theorem lt_size_of_owner (h : σ.owner r name = .ok o) : o < σ.scopes.size := by
  by_contra hge
  have hhas := has_of_owner h
  rw [scope, Array.getD_eq_getD_getElem?, Array.getElem?_eq_none (by omega)] at hhas
  cases hhas

/-- A variable that is set where it was found is found there again. -/
theorem lookup_assigned (h : σ.owner r name = .ok o) (v : Value) :
    (σ.putVar o name v).lookup r name = .ok v := by
  have hvars := vars_putVar σ (lt_size_of_owner h) name v
  have hhas (q : Nat) :
      ((σ.putVar o name v).scope q).vars.has name = (σ.scope q).vars.has name := by
    by_cases hq : q = o
    · rw [hq, has_of_owner h, Table.has, hvars, if_pos ⟨rfl, rfl⟩]
      rfl
    · rw [Table.has, hvars, if_neg fun hand => hq hand.1]
      rfl
  have hfrom (fuel q : Nat) :
      (σ.putVar o name v).ownerFrom name fuel q = σ.ownerFrom name fuel q := by
    induction fuel generalizing q with
    | zero => rfl
    | succ fuel ih => simp only [ownerFrom, hhas, parent_putVar, ih]
  have howner : (σ.putVar o name v).owner r name = .ok o := by
    rw [owner, hfrom]
    exact h
  exact lookup_of_owner howner ((hvars o name).trans (if_pos ⟨rfl, rfl⟩))

end Store

/-! ## Reading -/

namespace Shorthand

open LittleJ.Bracket LittleJ.TopLevel LittleJ.Grammar

/-- The tokens `r` are read as the expression `e` when they stand behind a shorthand. Where a
subtraction is read, the text of the other sign would be taken for the sign, wherever it stands. -/
structure RightSide (op : Shorthand) (r : List Token) (e : Expr) : Prop where
  nonempty : r ≠ []
  derives : Derives (.expression r e)
  semi : Lacks (·.is .semi) r
  assign : Lacks (·.is .assign) r
  sign : op = .subtract → ∀ t ∈ r, t.reads "+=" = false

variable {op : Shorthand} {x : String} {r : List Token} {e : Expr}

theorem derives_block (hx : isFree x = true) (h : op.RightSide r e) :
    Derives (.block (.name x :: .sym op.sign :: (r ++ [.sym .semi]))
      [.assign [.name x] (.name x :: .sym op.operator :: e)]) := by
  have hlacks {p : Token → Bool} (hname : p (.name x) = false) (hsign : p (.sym op.sign) = false)
      (hr : Lacks p r) : Lacks p (.name x :: .sym op.sign :: r) := by
    refine .cons (opens_of_not_bracket (isBracket_name hx)) hname (.cons ?_ hsign hr)
    cases op <;> rfl
  have hsentence : Sentence (.name x :: .sym op.sign :: r) :=
    ⟨⟨_, _, rfl, rfl⟩, hlacks rfl (by cases op <;> rfl) h.semi⟩
  have hplain : ¬Parted (·.is .assign) (.name x :: .sym op.sign :: r) :=
    (hlacks rfl (by cases op <;> rfl) h.assign).not_parted (sparesBrackets_is rfl) (cons_ne_nil _ _)
  have hparted : Parted (·.is op.sign) (.name x :: .sym op.sign :: r) := by
    have hspares : SparesBrackets (·.is op.sign) := sparesBrackets_is (by cases op <;> rfl)
    obtain ⟨parts, hparts⟩ := exists_split h.semi hspares
    rw [split_eq_ok_iff hspares] at hparts
    have hfirst : Lacks (·.is op.sign) [.name x] :=
      .cons (opens_of_not_bracket (isBracket_name hx)) rfl .nil
    refine ⟨_, .cons hfirst (by cases op <;> rfl) hparts, ?_⟩
    -- what stands behind the sign is a part of its own, for it is not empty
    intro hlength
    obtain rfl := eq_nil_of_length_eq_zero (Nat.succ.inj hlength)
    cases hparts
    exact h.nonempty rfl
  have hassignment : Derives (.assignment ([.name x] ++ .sym .assign :: r) [.name x] e) := by
    exact .assignment rfl (List.forall_mem_singleton.2 (reads_name_of_isFree hx .assign))
      (.token rfl .nil) h.derives (.name rfl)
  have hshorthand : Derives (.shorthand ([.name x] ++ .sym op.sign :: r) [.name x]
      ([.name x] ++ .sym op.operator :: e)) := by
    cases op with
    | add =>
      exact .plus rfl (List.forall_mem_singleton.2 (reads_name_of_isFree hx .plusAssign))
        hassignment
    | subtract =>
      refine .minus rfl (List.forall_mem_singleton.2 (reads_name_of_isFree hx .minusAssign))
        ?_ hassignment
      intro t ht
      simp only [singleton_append, mem_cons] at ht
      rcases ht with rfl | rfl | ht
      · exact reads_name_of_isFree hx .plusAssign
      · rfl
      · exact h.sign rfl t ht
  have hblock := Derives.assignShort .empty hsentence hplain ?_ hshorthand
  · exact hblock
  · cases op with
    | add => exact .inl hparted
    | subtract => exact .inr hparted

end Shorthand

/-- **A shorthand assignment is read without parentheses around its right side.** It sets `x` to
what the operators make of the number of `x`, the operator and the row of the right side. If all
binary operators of the row bind more tightly, that is the number of `x` changed by the value of the
whole right side. -/
theorem shorthand_changes (op : Shorthand) {x : String} {r : List Token} {e : Expr}
    (hx : isFree x = true) (hr : op.RightSide r e) :
    parse (.name x :: .sym op.sign :: (r ++ [.sym .semi])) =
      .ok [.assign [.name x] (.name x :: .sym op.operator :: e)] ∧
    ∀ (ctx : Context) (fuel scope : Nat) (σ τ : Store) (old w : Float), σ.lookup scope x =
      .ok (.num old) → (do evaluate ctx (fuel + 1) scope (← load e)) σ = .ok (.num w) τ →
      τ.lookup scope x = .ok (.num old) →
      ∃ row ρ, rowOf ctx fuel scope e σ = .ok row ρ ∧
        exec ctx (fuel + 1) scope (.assign [.name x] (.name x :: .sym op.operator :: e)) σ =
          (valueOf (evaluate ctx fuel scope) (.val (.num old) :: .sym op.operator :: row) >>=
            assignName scope x) ρ ∧
        (isTight row = true → ∃ τ',
          exec ctx (fuel + 1) scope (.assign [.name x] (.name x :: .sym op.operator :: e)) σ =
            .ok () τ' ∧
          τ'.lookup scope x = .ok (.num (op.change old w))) := by
  refine ⟨?_, ?_⟩
  · exact Grammar.read_of_derives (Shorthand.derives_block hx hr) _ (Nat.lt_succ_self _)
  · intro ctx fuel scope σ τ old w hold hw hkept
    rw [evaluate_eq_row] at hw
    obtain ⟨row, ρ, hrow, hw⟩ := Eval.bind_eq_ok.1 hw
    have hexec := exec_assign_row (x := x) (rowOf_behind op hold hrow)
    refine ⟨row, ρ, hrow, hexec, fun htight => ?_⟩
    have hsettle := settle_behind op (x := old) htight (settle_of_valueOf hw)
    obtain ⟨owner, howner⟩ : ∃ o, τ.owner scope x = .ok o := by
      cases ho : τ.owner scope x with
      | ok o => exact ⟨o, rfl⟩
      | error err =>
        rw [Store.lookup, ho] at hkept
        cases hkept
    refine ⟨τ.putVar owner x (.num (op.change old w)), ?_, Store.lookup_assigned howner _⟩
    rw [hexec, valueOf, bind_assoc, bind_of_ok hsettle]
    show assignName scope x (.num (op.change old w)) τ = _
    rw [assignName, get_bind, howner]
    rfl

/-- The variable `x` with the number ten. -/
def tenStore : Store :=
  { Store.empty with scopes := #[⟨[("x", .num 10)], none, 0, none⟩] }

/-- The tokens of `2 * 3`. -/
def twiceThree : List Token :=
  [.val (.num 2), .sym .star, .val (.num 3)]

/-- A product is taken away as a whole. -/
theorem shorthand_changes_product :
    isFree "x" = true ∧ Shorthand.subtract.RightSide twiceThree twiceThree ∧
    parse (.name "x" :: .sym .minusAssign :: (twiceThree ++ [.sym .semi])) =
      .ok [.assign [.name "x"] (.name "x" :: .sym .minus :: twiceThree)] ∧
    ∃ τ, exec ⟨none, false, 0⟩ 3 0 (.assign [.name "x"] (.name "x" :: .sym .minus :: twiceThree))
    tenStore =
        .ok () τ ∧ τ.lookup 0 "x" = .ok (.num (10 - 2 * 3)) := by
  have hx : isFree "x" = true := by decide
  have hr : Shorthand.subtract.RightSide twiceThree twiceThree :=
    { nonempty := cons_ne_nil _ _
      derives := .token rfl (.token rfl (.token rfl .nil))
      semi := .cons rfl rfl (.cons rfl rfl (.cons rfl rfl .nil))
      assign := .cons rfl rfl (.cons rfl rfl (.cons rfl rfl .nil))
      sign := fun _ => by simp [twiceThree, Token.reads, Symbol.text] }
  have hvalue : evaluate ⟨none, false, 0⟩ 3 0 twiceThree tenStore =
      .ok (Scalar.num (2 * 3)).value tenStore :=
    @evaluate_formula _ _ _ _ (fun _ => .null) _ (by simp [twiceThree, Token.is])
    (by simp [twiceThree])
      (by simp [twiceThree]) ⟨.num 2, [(.times, .num 3)]⟩ rfl _ rfl (of_decide_eq_true rfl)
  have hrow : rowOf ⟨none, false, 0⟩ 2 0 twiceThree tenStore = .ok twiceThree tenStore := rfl
  obtain ⟨hparse, hexec⟩ := shorthand_changes .subtract hx hr
  obtain ⟨row, ρ, hrow', -, htight⟩ := hexec ⟨none, false, 0⟩ 2 0 tenStore tenStore 10
      (2 * 3) rfl hvalue rfl
  cases hrow.symm.trans hrow'
  exact ⟨hx, hr, hparse, htight rfl⟩

/-- A program that takes a difference away from ten. -/
def splitDifferenceText : String :=
  "var x = 10; x -= 5 - 2; print(x);"

/-- Both numbers are taken away, one after the other. -/
theorem difference_not_taken_as_whole : outputOf ⟨10, 5⟩ splitDifferenceText = "3\n" := by
  decide +kernel

end LittleJ
