import LittleJ.Proofs.Execution

/-!
# Chained comparisons

Two comparisons with nothing but arithmetic between them are meant to be refused. Whether they are
does not depend on the operands, only on the operators: the check looks at the operator behind the
right operand, at the moment when a comparison is done. Comparisons of order are done first, so one
of them meets whatever comparison follows it, and one of identity meets only another one of
identity. A comparison of identity that is followed by one of order is not seen, since the latter is
gone by then.

The operands are values of any kind here, and evaluating them may give functions their scope. So the
rows of `Precedence` are not enough. A *line* is such a row of values, and only its operators and
gaps are followed.
-/

namespace LittleJ

open List Row Operator

variable {ts : List Token} {n : Nat}

/-! ## Computations that end -/

namespace Eval

variable {α β : Type} {P : α → Prop} {R : β → Prop}

/-- There is a result, which has the property `P`, or a failure. The store may change. -/
def Ends (m : Eval α) (P : α → Prop) : Prop :=
  ∀ σ, (∃ a τ, m σ = .ok a τ ∧ P a) ∨ ∃ f τ, m σ = .error (.failure f) τ

theorem Yields.ends {m : Eval α} {Q : Prop} (h : Yields m P Q) : Ends m P := by
  intro σ
  rcases h σ with ⟨a, ha, hP⟩ | ⟨⟨f, hf⟩, _⟩
  · exact .inl ⟨a, σ, ha, hP⟩
  · exact .inr ⟨f, σ, hf⟩

theorem Ends.pure {a : α} (h : P a) : Ends (Pure.pure a) P :=
  fun σ => .inl ⟨a, σ, rfl, h⟩

theorem Ends.raise {e : Error} : Ends (Eval.raise e) P :=
  fun σ => .inr ⟨_, σ, rfl⟩

theorem Ends.breakdown {x : Fault} : Ends (Eval.breakdown x) P :=
  fun σ => .inr ⟨_, σ, rfl⟩

theorem Ends.raiseAt {e : String → Error} : Ends (Eval.raiseAt e ts) P :=
  (Yields.raiseAt trivial).ends

theorem Ends.bind {m : Eval α} {f : α → Eval β} (hm : Ends m P) (hf : ∀ a, P a → Ends (f a) R) :
    Ends (m >>= f) R := by
  intro σ
  rcases hm σ with ⟨a, τ, hok, ha⟩ | ⟨x, τ, hx⟩
  · rw [bind_of_ok hok]
    exact hf a ha τ
  · exact .inr ⟨x, τ, bind_of_error hx f⟩

theorem Ends.mono {m : Eval α} {R : α → Prop} (hm : Ends m P) (hP : ∀ a, P a → R a) : Ends m R := by
  intro σ
  rcases hm σ with ⟨a, τ, hok, ha⟩ | hx
  · exact .inl ⟨a, τ, hok, hP a ha⟩
  · exact .inr hx

theorem Ends.truth (v : Value) : Ends (Eval.truth v) fun _ => True := by
  unfold Eval.truth
  cases v.truth? with
  | some b => exact Ends.pure trivial
  | none => exact Ends.breakdown

end Eval

/-! ## Lines -/

/-- Values in a row. Before each but the first there is an operator or a gap. -/
structure Line where
  first : Value
  rest : List (Option Binary × Value)

namespace Line

/-- The tokens after the first value. -/
def tail (rest : List (Option Binary × Value)) : List Token :=
  rest.flatMap fun p => between p.1 ++ [.val p.2]

/-- The tokens of a line. -/
def tokens (l : Line) : List Token :=
  .val l.first :: tail l.rest

/-- What stands between the values. -/
def seps (l : Line) : List (Option Binary) :=
  l.rest.map Prod.fst

/-- The number of gaps. -/
def gaps (l : Line) : Nat :=
  l.seps.count none

/-- A line with one more value in front. -/
def cons (v : Value) (o : Option Binary) (l : Line) : Line :=
  ⟨v, (o, l.first) :: l.rest⟩

/-- A line with one more value at its end. -/
def snoc (l : Line) (o : Option Binary) (w : Value) : Line :=
  ⟨l.first, l.rest ++ [(o, w)]⟩

theorem tokens_cons (v : Value) (o : Option Binary) (l : Line) :
    (cons v o l).tokens = .val v :: (between o ++ l.tokens) := by
  simp [cons, tokens, tail]

theorem tokens_snoc (l : Line) (o : Option Binary) (w : Value) :
    (l.snoc o w).tokens = l.tokens ++ (between o ++ [Token.val w]) := by
  simp [snoc, tokens, tail]

theorem seps_snoc (l : Line) (o : Option Binary) (w : Value) :
    (l.snoc o w).seps = l.seps ++ [o] := by
  simp [snoc, seps]

theorem gaps_snoc (l : Line) (o : Option Binary) (w : Value) :
    (l.snoc o w).gaps = l.gaps + if o = none then 1 else 0 := by
  rw [gaps, seps_snoc, count_append, count_singleton]
  simp [gaps]

theorem getLast_tokens (l : Line) : ∃ u, l.tokens.getLast? = some (.val u) := by
  obtain ⟨v, rest⟩ := l
  cases rest using reverseRecOn with
  | nil => exact ⟨v, rfl⟩
  | append_singleton rest p =>
    refine ⟨p.2, ?_⟩
    rw [show Line.mk v (rest ++ [p]) = (Line.mk v rest).snoc p.1 p.2 from rfl, tokens_snoc]
    simp

theorem rest_eq_nil {l : Line} (h : l.tokens.length = 1) : l.rest = [] := by
  cases hr : l.rest with
  | nil => rfl
  | cons p rest => simp [tokens, tail, hr] at h

end Line

/-! ## One level of the operators -/

namespace Operator

open Eval

/-- A comparison of the level that is done meets another comparison. -/
def Refused (level : Nat) (o o' : Option Binary) : Prop :=
  ∃ op op', o = some op ∧ o' = some op' ∧ op.level = level ∧ op.compares ∧ op'.compares

/-- What doing the operators of a level leaves: the other operators, and the gaps. -/
def keeps (level : Nat) (o : Option Binary) : Bool :=
  o.all (·.level != level)

theorem ends_combine (op : Binary) (v w : Value) (whole : List Token) :
    Ends (combine op.symbol (.val v) (.val w) whole) fun t => ∃ u, t = .val u := by
  have hidentical : Ends (identical (.val v) (.val w)) fun _ => True := by
    simp only [identical]
    cases v.identical? w with
    | some b => exact Ends.pure trivial
    | none => exact Ends.breakdown
  have hval {P : Scalar → Prop} (t : Token) (h : ∃ u, P u ∧ t = .val u.value) :
      ∃ u, t = .val u := by
    obtain ⟨u, -, ht⟩ := h
    exact ⟨u.value, ht⟩
  cases op with
  | same | differs => exact Ends.bind hidentical fun b _ => Ends.pure ⟨_, rfl⟩
  | both | either =>
    refine Ends.bind (Ends.truth v) fun b _ => Ends.pure ?_
    cases b
    · exact ⟨_, rfl⟩
    · exact ⟨_, rfl⟩
  | _ =>
    cases v <;> cases w <;>
      first
      | exact Ends.raiseAt
      | exact (yields_combine_strings (by decide) _ _ _).ends.mono hval
      | exact (yields_combine_numbers (by decide) _ _ _).ends.mono hval

/-- A comparison that passes the check has no other one behind its right operand. -/
theorem ends_checkChaining (op : Binary) (next : Option Token) :
    Ends (checkChaining op.symbol next) fun _ =>
      ∀ op' : Binary, next = some (.sym op'.symbol) → op.compares → ¬op'.compares := by
  by_cases h : ∃ op' : Binary, next = some (.sym op'.symbol) ∧ op.compares ∧ op'.compares
  · obtain ⟨op', rfl, hop, hop'⟩ := h
    have hraise : checkChaining op.symbol (some (.sym op'.symbol))
        = Eval.raise (.chained op.symbol.text op'.symbol.text) := by
      simp only [checkChaining, Token.text?]
      rw [contains_comparisons, any_comparisons_text, hop, hop']
      rfl
    rw [hraise]
    exact Ends.raise
  · refine (yields_checkChaining op next).ends.mono fun _ _ op' hnext hop hop' => ?_
    exact h ⟨op', hnext, hop, hop'⟩

/-- **One level of the operators in a line.** -/
theorem ends_levelFrom {level : Nat} {symbols : List Symbol} (hsym : IsLevel level symbols)
    (v : Value) (rest : List (Option Binary × Value)) (before : List Token) :
    Ends (levelFrom symbols (.val v :: before) (Line.tail rest)) fun out =>
      ∃ l : Line, out = before.reverse ++ l.tokens ∧ l.seps = (rest.map Prod.fst).filter
      (keeps level) ∧
        (rest.map Prod.fst).IsChain fun o o' => ¬Refused level o o' := by
  induction rest generalizing v before with
  | nil =>
    refine Ends.pure ⟨⟨v, []⟩, ?_, rfl, .nil⟩
    simp [Line.tokens, Line.tail]
  | cons p rest ih =>
    obtain ⟨o, w⟩ := p
    -- a value stays in its place unless an operator of the level is before it
    have kept (hkeep : keeps level o = true) (hrefused : ∀ o', ¬Refused level o o') :
        Ends (levelFrom symbols (.val w :: ((between o).reverse ++ .val v :: before))
          (Line.tail rest))
          fun out => ∃ l : Line, out = before.reverse ++ l.tokens ∧
            l.seps = (o :: rest.map Prod.fst).filter (keeps level) ∧
            (o :: rest.map Prod.fst).IsChain fun o o' => ¬Refused level o o' := by
      refine (ih w _).mono ?_
      rintro out ⟨l, rfl, hseps, hchain⟩
      refine ⟨l.cons v o, by simp [Line.tokens_cons], ?_, ?_⟩
      · rw [filter_cons_of_pos hkeep, ← hseps]
        rfl
      · exact List.isChain_cons.2 ⟨fun o' _ => hrefused o', hchain⟩
    rw [map_cons]
    cases o with
    | none =>
      have hstep : levelFrom symbols (.val v :: before) (Line.tail ((none, w) :: rest))
          = levelFrom symbols (.val w :: .val v :: before) (Line.tail rest) :=
        levelFrom_val ..
      rw [hstep]
      exact kept rfl (by rintro o' ⟨op, op', hop, _⟩; cases hop)
    | some op =>
      have htail : Line.tail ((some op, w) :: rest) = .sym op.symbol :: .val w :: Line.tail rest :=
        rfl
      rw [htail, levelFrom, ofLevel_symbol hsym]
      by_cases hop : op.level = level
      · rw [if_pos hop]
        refine Ends.bind (ends_checkChaining op _) fun _ hcheck => ?_
        refine Ends.bind (ends_combine op v w _) ?_
        rintro _ ⟨u, rfl⟩
        refine (ih u before).mono ?_
        rintro out ⟨l, rfl, hseps, hchain⟩
        refine ⟨l, rfl, ?_, List.isChain_cons.2 ⟨?_, hchain⟩⟩
        · rw [filter_cons_of_neg (by simp [keeps, hop])]
          exact hseps
        · rintro o' ho' ⟨x, op', hx, rfl, _, hcomp, hcomp'⟩
          cases hx
          cases rest with
          | nil => cases ho'
          | cons q rest =>
            obtain ⟨oq, wq⟩ := q
            cases ho'
            exact hcheck op' rfl hcomp hcomp'
      · rw [if_neg hop]
        show Ends (levelFrom symbols _ (.val w :: Line.tail rest)) _
        rw [levelFrom_val]
        refine kept (by simpa [keeps] using hop) ?_
        rintro o' ⟨x, op', hx, _, hlevel, _⟩
        cases hx
        exact hop hlevel

/-! ## All levels -/

/-- A gap, or an operator that is not done before a level. -/
def loose (level : Nat) (o : Option Binary) : Bool :=
  o.all (level ≤ ·.level)

theorem loose_and_keeps {m : Nat} (h : n < m) (o : Option Binary) :
    (loose m o && keeps n o) = loose m o := by
  cases o with
  | none => rfl
  | some op =>
    rw [Bool.and_eq_left_iff_imp]
    simp only [loose, keeps, Option.all_some, decide_eq_true_eq, bne_iff_ne]
    omega

theorem loose_succ {o : Option Binary} (hloose : loose n o = true) (hkeep : keeps n o = true) :
    loose (n + 1) o = true := by
  cases o with
  | none => rfl
  | some op =>
    simp only [loose, keeps, Option.all_some, decide_eq_true_eq, bne_iff_ne] at hloose hkeep ⊢
    omega

/-- **The levels of the operators in a line.** They keep its gaps, and at no level a comparison
meets another one. -/
theorem ends_binaryFrom {symbols : List (List Symbol)}
    (hsym : ∀ i y, symbols[i]? = some y → IsLevel (n + i) y) (l : Line)
    (hloose : ∀ o ∈ l.seps, loose n o = true) :
    Ends (binaryFrom symbols l.tokens) fun out => ∃ l' : Line, out = l'.tokens ∧ l'.gaps = l.gaps ∧
      ∀ i < symbols.length, (l.seps.filter (loose (n + i))).IsChain fun o o' =>
      ¬Refused (n + i) o o' := by
  induction symbols generalizing n l with
  | nil => exact Ends.pure ⟨l, rfl, rfl, by simp⟩
  | cons y symbols ih =>
    have hstart : levelFrom y [] l.tokens = levelFrom y [.val l.first] (Line.tail l.rest) :=
      levelFrom_val ..
    rw [binaryFrom, hstart]
    refine Ends.bind (ends_levelFrom (hsym 0 y rfl) l.first l.rest []) ?_
    rintro _ ⟨l', rfl, hseps, hchain⟩
    change l'.seps = l.seps.filter (keeps n) at hseps
    rw [reverse_nil, nil_append]
    have hgaps : l'.gaps = l.gaps := by
      rw [Line.gaps, hseps, count_filter rfl, Line.gaps]
    have hlater (i : Nat) :
        l'.seps.filter (loose (n + 1 + i)) = l.seps.filter (loose (n + 1 + i)) := by
      rw [hseps, filter_filter]
      exact filter_congr fun o _ => loose_and_keeps (by omega) o
    -- what the later levels show is put together with what this one does
    have hall (hrest : ∀ i < symbols.length,
        (l'.seps.filter (loose (n + 1 + i))).IsChain fun o o' => ¬Refused (n + 1 + i) o o')
        (i : Nat) (hi : i < (y :: symbols).length) :
        (l.seps.filter (loose (n + i))).IsChain fun o o' => ¬Refused (n + i) o o' := by
      cases i with
      | zero =>
        rw [Nat.add_zero, List.filter_eq_self.2 hloose]
        exact hchain
      | succ i =>
        have h := hrest i (Nat.lt_of_succ_lt_succ hi)
        rwa [hlater, Nat.add_right_comm] at h
    split
    · next hlen =>
        have hnil : l'.seps = [] := by
          rw [Line.seps, Line.rest_eq_nil (by simpa using hlen)]
          rfl
        exact Ends.pure ⟨l', rfl, hgaps, hall fun i _ => by simp [hnil]⟩
    · have hnext (i : Nat) (z : List Symbol) (hz : symbols[i]? = some z) :
        IsLevel (n + 1 + i) z := by
        rw [Nat.add_right_comm]
        exact hsym (i + 1) z hz
      have hloose' (o : Option Binary) (ho : o ∈ l'.seps) : loose (n + 1) o = true := by
        rw [hseps, mem_filter] at ho
        exact loose_succ (hloose o ho.1) ho.2
      refine (ih hnext l' hloose').mono ?_
      rintro _ ⟨l'', rfl, hgaps', hrest⟩
      exact ⟨l'', rfl, hgaps'.trans hgaps, hall hrest⟩

/-- No comparison meets another one when the levels are done one after the other. -/
def Apart (seps : List (Option Binary)) : Prop :=
  ∀ n < 6, (seps.filter (loose n)).IsChain fun o o' => ¬Refused n o o'

/-! ## Unary operators and repetition -/

section

variable {eval : Expr → Eval Value} (heval : ∀ v, Ends (eval [.val v]) fun _ => True)
include heval

/-- **The unary operators in a line.** Nothing between the values changes, or a minus sign is
misread and leaves a gap. -/
theorem ends_unaryFrom (v : Value) (rest : List (Option Binary × Value)) (after : List Token) :
    Ends (unaryFrom eval (Line.mk v rest).tokens.reverse after) fun out =>
      ∃ l : Line, out = l.tokens ++ after ∧
      (l.seps = (Line.mk v rest).seps ∨ (Line.mk v rest).gaps < l.gaps) := by
  induction rest using reverseRecOn generalizing after with
  | nil =>
    rw [show (Line.mk v []).tokens.reverse = [.val v] from rfl, unaryFrom_val, unaryFrom]
    exact Ends.pure ⟨⟨v, []⟩, rfl, .inl rfl⟩
  | append_singleton rest p ih =>
    obtain ⟨o, w⟩ := p
    -- the line without its last value
    obtain ⟨l, hl⟩ : ∃ l, l = Line.mk v rest := ⟨_, rfl⟩
    rw [show Line.mk v (rest ++ [(o, w)]) = l.snoc o w by rw [hl]; rfl]
    rw [← hl] at ih
    have kept : Ends (unaryFrom eval l.tokens.reverse (between o ++ .val w :: after)) fun out =>
        ∃ l' : Line, out = l'.tokens ++ after ∧
        (l'.seps = (l.snoc o w).seps ∨ (l.snoc o w).gaps < l'.gaps) := by
      refine (ih _).mono ?_
      rintro _ ⟨l', rfl, h⟩
      refine ⟨l'.snoc o w, by simp [Line.tokens_snoc], ?_⟩
      rcases h with h | h
      · exact .inl (by rw [Line.seps_snoc, Line.seps_snoc, h])
      · exact .inr (by rw [Line.gaps_snoc, Line.gaps_snoc]; omega)
    rw [show (l.snoc o w).tokens.reverse = .val w :: ((between o).reverse ++ l.tokens.reverse) by
      simp [Line.tokens_snoc], unaryFrom_val]
    cases o with
    | none => exact kept
    | some op =>
      obtain ⟨u, hu⟩ := l.getLast_tokens
      have hhead : l.tokens.reverse.head? = some (.val u) := by rw [head?_reverse, hu]
      show Ends (unaryFrom eval (.sym op.symbol :: l.tokens.reverse) (.val w :: after)) _
      by_cases hop : op = .minus → minusIsUnary (some (.val u)) = false
      · rw [unaryFrom_symbol _ hhead hop]
        exact kept
      · obtain ⟨rfl, hunary⟩ := Classical.not_imp.1 hop
        rw [Binary.symbol, unaryFrom, hhead, if_pos (by simpa using hunary)]
        refine Ends.bind (P := fun _ => True) (heval w) fun x _ => ?_
        cases x with
        | num x =>
          refine (ih _).mono ?_
          rintro _ ⟨l', rfl, h⟩
          refine ⟨l'.snoc none (.num (-x)), by simp [Line.tokens_snoc, between], .inr ?_⟩
          have hle : l.gaps ≤ l'.gaps := by
            rcases h with h | h
            · rw [Line.gaps, Line.gaps, h]
            · exact Nat.le_of_lt h
          rw [Line.gaps_snoc, Line.gaps_snoc, if_neg (by simp), if_pos rfl]
          omega
        | _ => exact Ends.raise

/-- **A pass over a line.** It leaves gaps, or has found all comparisons apart. -/
theorem ends_pass (l : Line) : Ends (pass eval l.tokens) fun out => ∃ l' : Line, out = l'.tokens ∧
      (l.gaps = l'.gaps ∧ Apart l.seps ∨ l.gaps < l'.gaps) := by
  refine Ends.bind (ends_unaryFrom heval l.first l.rest []) ?_
  rintro _ ⟨l', rfl, h⟩
  rw [append_nil]
  have hsym (i : Nat) (y : List Symbol) (hy : levels[i]? = some y) : IsLevel (0 + i) y := by
    rw [Nat.zero_add]
    exact isLevel_levels hy
  have hloose (o : Option Binary) (_ : o ∈ l'.seps) : loose 0 o = true := by
    cases o <;> simp [loose]
  refine (ends_binaryFrom hsym l' hloose).mono ?_
  rintro _ ⟨l'', rfl, hgaps, hchain⟩
  refine ⟨l'', rfl, ?_⟩
  rcases h with h | h
  · refine .inl ⟨?_, fun n hn => ?_⟩
    · rw [hgaps, Line.gaps, Line.gaps, h]
    · have hn' := hchain n hn
      rwa [Nat.zero_add, h] at hn'
  · exact .inr (hgaps ▸ h)

/-- A line comes to one token only if it has no gaps. -/
theorem ends_settleFrom (old : Nat) (l : Line) : Ends (settleFrom eval old l.tokens) fun _ =>
    l.gaps = 0 := by
  induction old using Nat.strongRecOn generalizing l with
  | ind old ih =>
    rw [settleFrom.eq_def]
    split
    · next t ht =>
        refine Ends.pure ?_
        rw [Line.gaps, Line.seps, Line.rest_eq_nil (l := l) (by rw [ht]; rfl)]
        rfl
    · refine Ends.bind (ends_pass heval l) ?_
      rintro _ ⟨l', rfl, h⟩
      split
      · next hlt => exact (ih _ hlt l').mono fun _ hgaps => by omega
      · exact Ends.raiseAt

theorem ends_settle (l : Line) : Ends (settle eval l.tokens) fun _ => Apart l.seps := by
  refine Ends.bind (ends_pass heval l) ?_
  rintro _ ⟨l', rfl, h⟩
  refine (ends_settleFrom heval _ l').mono fun _ hgaps => ?_
  rcases h with ⟨_, h⟩ | h
  · exact h
  · omega

end

end Operator

/-! ## Whole expressions -/

namespace Chain

/-- The operands of a chain of values, with its operators before them. -/
def line (c : Chain Value) : Line :=
  ⟨c.first, c.rest.map fun p => (some p.1, p.2)⟩

theorem tokens_line (c : Chain Value) : c.line.tokens = c.spread fun v => [.val v] := by
  simp [line, Line.tokens, Line.tail, between, spread, flatMap_map]

theorem seps_line (c : Chain Value) : c.line.seps = c.ops.map some := by
  simp [line, Line.seps, ops]

end Chain

namespace Expression

open Eval

/-- A value or a binary operator: a token that only the operators work on. -/
inductive Simple : Token → Prop where
  | val (v : Value) : Simple (.val v)
  | op (op : Binary) : Simple (.sym op.symbol)

variable {eval : Expr → Eval Value} {call : Nat → List Value → Eval Value}

theorem Simple.is_eq_false {t : Token} (h : Simple t) {y : Symbol}
    (hy : ∀ op : Binary, op.symbol ≠ y) :
    t.is y = false := by
  cases h with
  | val v => rfl
  | op op => simpa [Token.is] using hy op

theorem applyFrom_simple (h : ∀ t ∈ ts, Simple t) (done : List Token) :
    applyFrom eval call done 0 ts = pure (done.reverse ++ ts) := by
  induction ts generalizing done with
  | nil => simp [applyFrom]
  | cons t ts ih =>
    obtain ⟨ht, hts⟩ := List.forall_mem_cons.1 h
    have hbracket : t.is .lbracket = false := ht.is_eq_false (by intro op; cases op <;> decide)
    have hparen : t.is .lparen = false := ht.is_eq_false (by intro op; cases op <;> decide)
    rw [applyFrom.eq_def]
    simp [hbracket, hparen, ih hts]

theorem ends_resolve (h : ∀ t ∈ ts, Simple t) (scope : Nat) : Ends (resolve scope ts) (· = ts) := by
  intro σ
  have hbrace (t : Token) (ht : t ∈ ts) : t.is .lbrace = false ∧ t.is .rbrace = false :=
    ⟨(h t ht).is_eq_false (by intro op; cases op <;> decide), (h t ht).is_eq_false
      (by intro op; cases op <;> decide)⟩
  have hname (s : String) (hs : .name s ∈ ts) : σ.lookup scope s = .ok .null := by cases h _ hs
  have hsame : ts.map (Token.named fun _ => .null) = ts := by
    refine (map_congr_left fun t ht => ?_).trans (map_id ts)
    cases h t ht <;> rfl
  exact .inl ⟨_, _, resolve_eq_map hbrace hname, hsame⟩

theorem ends_applications (h : ∀ t ∈ ts, Simple t) : Ends (applications eval call ts) (· = ts) := by
  intro σ
  rw [applications, get_bind, applyFrom_simple h]
  split
  · exact .inr ⟨_, _, rfl⟩
  · exact .inl ⟨_, _, rfl, rfl⟩

/-- Without brackets an expression is evaluated by its operators. -/
theorem ends_evaluate {ctx : Context} {fuel scope : Nat} (hts : ∀ t ∈ ts, Simple t) {P : Prop}
    (h : Ends (settle (evaluate ctx fuel scope) ts) fun _ => P) :
    Ends (evaluate ctx (fuel + 1) scope ts) fun _ => P := by
  have hnone : literals (evaluate ctx fuel scope) ts = pure ts := literals_of_none fun t ht =>
    ⟨(hts t ht).is_eq_false (by intro op; cases op <;> decide),
      (hts t ht).is_eq_false (by intro op; cases op <;> decide)⟩
  rw [evaluate]
  refine Ends.bind (ends_resolve hts scope) fun us hus => ?_
  rw [hus, reduce, hnone, pure_bind]
  refine Ends.bind (ends_applications hts) fun us hus => ?_
  rw [hus]
  refine Ends.bind h fun t hP => ?_
  split
  · split
    · exact Ends.pure hP
    · exact Ends.raise
  · exact Ends.raise

theorem simple_of_mem_line (l : Line) {t : Token} (ht : t ∈ l.tokens) : Simple t := by
  simp only [Line.tokens, Line.tail, mem_cons, mem_flatMap, mem_append, not_mem_nil, or_false] at ht
  rcases ht with rfl | ⟨⟨o, w⟩, _, ht | rfl⟩
  · exact .val _
  · cases o with
    | none => cases ht
    | some op =>
      obtain rfl := List.mem_singleton.1 ht
      exact .op op
  · exact .val _

/-- **A line is evaluated to a value, or fails.** It has a value only if its comparisons are apart.
-/
theorem ends_evaluate_line (ctx : Context) (fuel scope : Nat) (l : Line) :
    Ends (evaluate ctx (fuel + 2) scope l.tokens) fun _ => Apart l.seps := by
  have hval (v : Value) : Ends (evaluate ctx (fuel + 1) scope [.val v]) fun _ => True := by
    refine ends_evaluate (by simpa using .val v) ?_
    rw [settle_val]
    exact Ends.pure trivial
  exact ends_evaluate (fun t => simple_of_mem_line l) (ends_settle hval l)

end Expression

/-! ## Clashing operators -/

/-- With only arithmetic between them, a comparison of order is followed by a comparison, or one of
identity by another one of identity. -/
def Clashing (ops : List Binary) : Prop :=
  ∃ before op between op' after, ops = before ++ op :: (between ++ op' :: after) ∧
    (∀ o ∈ between, o.level ≤ 1) ∧ Chain.Clash op op'

theorem Clashing.cons {ops : List Binary} (h : Clashing ops) (op : Binary) :
    Clashing (op :: ops) := by
  obtain ⟨before, a, between, b, after, rfl, hbetween, hclash⟩ := h
  exact ⟨op :: before, a, between, b, after, rfl, hbetween, hclash⟩

/-- Clashing comparisons meet when the first of them is done. -/
theorem not_apart_of_clashing {ops : List Binary} (h : Clashing ops) : ¬Apart (ops.map some) := by
  obtain ⟨before, op, between, op', after, rfl, hbetween, hclash⟩ := h
  intro hapart
  have hcompares : 2 ≤ op.level ∧ op.compares = true ∧ op'.compares = true ∧
      op.level ≤ op'.level := by
    unfold Chain.Clash at hclash
    simp only [Binary.compares, Bool.or_eq_true, beq_iff_eq]
    omega
  obtain ⟨htwo, hop, hop', hle⟩ := hcompares
  have hloose (o : Binary) : loose op.level (some o) = decide (op.level ≤ o.level) := rfl
  have hgone : (between.map some).filter (loose op.level) = [] := by
    rw [filter_eq_nil_iff]
    intro o ho
    obtain ⟨o, hmem, rfl⟩ := List.mem_map.1 ho
    have := hbetween o hmem
    rw [hloose, decide_eq_true_eq]
    omega
  have hchain := hapart op.level op.level_lt
  simp only [map_append, map_cons, filter_append] at hchain
  rw [filter_cons_of_pos (by rw [hloose]; simp), filter_append, hgone, nil_append,
    filter_cons_of_pos (by rw [hloose]; simpa using hle)] at hchain
  exact (List.isChain_append_cons_cons.1 hchain).2.1 ⟨op, op', rfl, rfl, rfl, hop, hop'⟩

/-- Where no operators clash, none do when arithmetic is left out. -/
theorem isChain_of_not_clashing {ops : List Binary} (h : ¬Clashing ops) :
    (ops.filter fun op => 2 ≤ op.level).IsChain fun op op' => ¬Chain.Clash op op' := by
  induction ops with
  | nil => exact .nil
  | cons a ops ih =>
    have hrest := ih fun hops => h (hops.cons a)
    by_cases ha : 2 ≤ a.level
    · rw [filter_cons_of_pos (by simpa using ha)]
      refine List.isChain_cons.2 ⟨fun b hb hclash => ?_, hrest⟩
      rw [Option.mem_def, head?_filter, find?_eq_some_iff_append] at hb
      obtain ⟨_, between, after, rfl, hbetween⟩ := hb
      refine h ⟨[], a, between, b, after, rfl, fun o ho => ?_, hclash⟩
      have := hbetween o ho
      simp only [Bool.not_eq_true', decide_eq_false_iff_not] at this
      omega
    · rw [filter_cons_of_neg (by simpa using ha)]
      exact hrest

/-! ## Operators that do not clash -/

namespace Row

variable {P Q : Scalar → Prop} {level : Nat} {v : Scalar} {rest : List (Option Binary × Scalar)}

/-- Every scalar of a row has a property. -/
def Each (P : Scalar → Prop) (r : Row) : Prop :=
  P r.first ∧ ∀ p ∈ r.rest, P p.2

theorem Each.cons {r : Row} (hv : P v) (h : r.Each P) (o : Option Binary) : (cons v o r).Each P :=
  ⟨hv, List.forall_mem_cons.2 h⟩

/-- A level is done if its operators are for all that they can meet: a scalar that the level has
made, or has not touched, on the left, and one that it has not touched on the right. -/
theorem exists_reduce (hQP : ∀ w, Q w → P w)
    (hop : ∀ op : Binary, op.level = level → ∀ v w, P v → Q w → ∃ u, op.apply v w = some u ∧ P u)
    (hv : P v) (hrest : ∀ p ∈ rest, Q p.2) : ∃ r, reduce level v rest = some r ∧ r.Each P := by
  fun_induction reduce level v rest with
  | case1 v => exact ⟨⟨v, []⟩, rfl, hv, by simp⟩
  | case2 v w rest ih =>
    obtain ⟨hw, hrest⟩ := List.forall_mem_cons.1 hrest
    obtain ⟨r, hr, hP⟩ := ih (hQP w hw) hrest
    exact ⟨_, by rw [hr]; rfl, hP.cons hv none⟩
  | case3 v op w rest hlevel ih =>
    obtain ⟨hw, hrest⟩ := List.forall_mem_cons.1 hrest
    obtain ⟨u, hu, hPu⟩ := hop op hlevel v w hv hw
    obtain ⟨r, hr, hP⟩ := ih u hPu hrest
    exact ⟨r, by rw [hu]; exact hr, hP⟩
  | case4 v op w rest hlevel ih =>
    obtain ⟨hw, hrest⟩ := List.forall_mem_cons.1 hrest
    obtain ⟨r, hr, hP⟩ := ih (hQP w hw) hrest
    exact ⟨_, by rw [hr]; rfl, hP.cons hv (some op)⟩

/-- Comparisons of order are done between numbers if no two of them follow each other. -/
theorem exists_reduce_order (hrest : ∀ p ∈ rest, ∃ x, p.2 = .num x)
    (hchain : (rest.map Prod.fst).IsChain fun o o' =>
      ∀ op op', o = some op → o' = some op' → op.level = 2 → op'.level ≠ 2)
    (hv : (∃ x, v = .num x) ∨ ∀ op, (rest.map Prod.fst).head? = some (some op) → op.level ≠ 2) :
    ∃ r, reduce 2 v rest = some r := by
  fun_induction reduce 2 v rest with
  | case1 v => exact ⟨_, rfl⟩
  | case2 v w rest ih =>
    obtain ⟨hw, hrest⟩ := List.forall_mem_cons.1 hrest
    obtain ⟨r, hr⟩ := ih hrest hchain.of_cons (.inl hw)
    exact ⟨_, by rw [hr]; rfl⟩
  | case3 v op w rest hlevel ih =>
    obtain ⟨⟨y, rfl⟩, hmore⟩ := List.forall_mem_cons.1 hrest
    obtain ⟨x, rfl⟩ := hv.resolve_right fun h => h op rfl hlevel
    have hu : ∃ u, op.apply (.num x) (.num y) = some u := by
      cases op <;> first | exact ⟨_, rfl⟩ | cases hlevel
    obtain ⟨u, hu⟩ := hu
    obtain ⟨r, hr⟩ := ih u hmore hchain.of_cons
      (.inr fun op' hop' => (List.isChain_cons.1 hchain).1 _ hop' op op' rfl rfl hlevel)
    exact ⟨r, by rw [hu]; exact hr⟩
  | case4 v op w rest hlevel ih =>
    obtain ⟨hw, hrest⟩ := List.forall_mem_cons.1 hrest
    obtain ⟨r, hr⟩ := ih hrest hchain.of_cons (.inl hw)
    exact ⟨_, by rw [hr]; rfl⟩

end Row

namespace Chain

/-- The number one as often as operators want it. -/
def ones (ops : List Binary) : Chain Scalar :=
  ⟨.num 1, ops.map fun op => (op, .num 1)⟩

theorem ops_ones (ops : List Binary) : (ones ops).ops = ops := by
  simp [ones, Chain.ops, Function.comp_def]

/-- Operators that do not clash denote something between ones. -/
theorem denote_ones {ops : List Binary} (h : ¬Clashing ops) :
    ∃ w, (ones ops).formula.denote = some w := by
  have step {n : Nat} {r r' : Row} (hr : ((ones ops).joined n).denote = some r)
      (hr' : Row.reduce n r.first r.rest = some r') :
      ((ones ops).joined (n + 1)).denote = some r' := by
    rw [denote_joined_succ, hr]
    exact hr'
  -- arithmetic: a divisor is still the number one
  obtain ⟨r₁, hr₁, hnum₁⟩ : ∃ r, Row.reduce 0 (ones ops).row.first (ones ops).row.rest = some r ∧
      r.Each fun v => ∃ x, v = .num x := by
    refine exists_reduce (Q := fun w => w = .num 1) (fun w hw => ⟨1, hw⟩) ?_ ⟨1, rfl⟩ ?_
    · rintro op hop _ _ ⟨x, rfl⟩ rfl
      cases op with
      | times => exact ⟨_, rfl, _, rfl⟩
      | divide => exact ⟨.num (x / 1), rfl, _, rfl⟩
      | modulo => exact ⟨.num (Number.remainder x 1), rfl, _, rfl⟩
      | _ => cases hop
    · simp [row, ones]
  have hd₁ := step (denote_literals _) hr₁
  obtain ⟨r₂, hr₂, hnum₂⟩ : ∃ r, Row.reduce 1 r₁.first r₁.rest = some r ∧ r.Each fun v =>
      ∃ x, v = .num x := by
    refine exists_reduce (fun w hw => hw) ?_ hnum₁.1 hnum₁.2
    rintro op hop _ _ ⟨x, rfl⟩ ⟨y, rfl⟩
    cases op with
    | plus | minus => exact ⟨_, rfl, _, rfl⟩
    | _ => cases hop
  have hd₂ := step hd₁ hr₂
  obtain ⟨r₃, hr₃⟩ : ∃ r, Row.reduce 2 r₂.first r₂.rest = some r := by
    refine exists_reduce_order hnum₂.2 ?_ (.inl hnum₂.1)
    rw [ops_denote hd₂, ops_joined, ops_ones, isChain_map]
    refine (isChain_of_not_clashing h).imp fun a b hclash op op' hop hop' htwo htwo' => ?_
    cases hop
    cases hop'
    exact hclash (.inl ⟨htwo, .inl htwo'⟩)
  have hd₃ := step hd₂ hr₃
  -- the other operators take any operands
  have loosely {n : Nat} (hn : 3 ≤ n) {r : Row} (hr : ((ones ops).joined n).denote = some r) :
      ∃ r', ((ones ops).joined (n + 1)).denote = some r' := by
    obtain ⟨r', hr', _⟩ : ∃ r', Row.reduce n r.first r.rest = some r' ∧ r'.Each fun _ => True := by
      refine exists_reduce (Q := fun _ => True) (fun _ h => h) ?_ trivial fun _ _ => trivial
      intro op hop v w _ _
      cases op with
      | same | differs | both | either => exact ⟨_, rfl, trivial⟩
      | _ => simp only [Binary.level] at hop; omega
    exact ⟨r', step hr hr'⟩
  obtain ⟨r₄, hd₄⟩ := loosely (by decide) hd₃
  obtain ⟨r₅, hd₅⟩ := loosely (by decide) hd₄
  obtain ⟨r₆, hd₆⟩ := loosely (by decide) hd₅
  rw [denote_joined_six] at hd₆
  obtain ⟨w, hw, _⟩ := Option.map_eq_some_iff.1 hd₆
  exact ⟨w, hw⟩

end Chain

/-- **The chained comparisons that are refused.** Whatever values stand between the operators of an
expression without brackets, evaluating it fails, if and only if operators clash: with only
arithmetic between them, a comparison of order is followed by any comparison, or one of identity by
another one of identity. -/
theorem chained_comparisons_fail_iff (ops : List Binary) :
    (∀ c : Chain Value, c.ops = ops → ∀ (ctx : Context) (fuel scope : Nat) (σ : Store), 1 < fuel →
      ∃ f τ, evaluate ctx fuel scope (c.spread fun v => [.val v]) σ = .error (.failure f) τ) ↔
      Clashing ops := by
  constructor
  · intro h
    by_contra hops
    obtain ⟨w, hw⟩ := Chain.denote_ones hops
    have hunchained : (Chain.ones ops).Unchained := by
      rw [Chain.Unchained, Chain.ops_ones]
      exact isChain_of_not_clashing hops
    have hvalues : ((Chain.ones ops).map Scalar.value).spread (fun v => [.val v])
        = (Chain.ones ops).tokens := by
      simp [Chain.tokens, Chain.spread, Chain.map, flatMap_map]
    obtain ⟨f, τ, hf⟩ := h ((Chain.ones ops).map Scalar.value)
      (by simp [Chain.map, Chain.ops, Chain.ones, Function.comp_def]) ⟨none, false, 0⟩ 2 0
      .empty (by decide)
    rw [hvalues] at hf
    rcases (Chain.ones ops).yields_evaluate ⟨none, false, 0⟩ 0 0 .empty with ⟨v, hv, _⟩ |
      ⟨_, hnone | hchain⟩
    · rw [hv] at hf
      cases hf
    · rw [hw] at hnone
      cases hnone
    · exact hchain hunchained
  · rintro hops c rfl ctx fuel scope σ hfuel
    obtain ⟨n, rfl⟩ : ∃ n, fuel = n + 2 := ⟨fuel - 2, by omega⟩
    rw [← c.tokens_line]
    rcases Expression.ends_evaluate_line ctx n scope c.line σ with ⟨v, τ, _, hapart⟩ | h
    · rw [c.seps_line] at hapart
      exact absurd hapart (not_apart_of_clashing hops)
    · exact h

/-- A comparison of identity before one of order. -/
def laterOrderText : String :=
  "print(1 === 1 < 2);"

/-- The comparison of order is done first, and the one of identity with its result. -/
theorem identity_before_order_evaluated : outputOf ⟨10, 5⟩ laterOrderText = "false\n" := by
  decide +kernel

end LittleJ
