import LittleJ.Proofs.Nesting
import LittleJ.Proofs.Precedence

/-!
# Composition

A formula that is written with parentheses around its operands is evaluated to what it denotes, and
to nothing else: where it denotes nothing, evaluating it fails.

An expression is not read as a tree. Its groups are evaluated from left to right and replaced by
their values, and what is left are at most two operands with an operator. So the proof goes by the
way the formula is written: an operand in parentheses becomes one value, wherever it stands in the
expression.
-/

namespace LittleJ

open Formula List LittleJ.Bracket

/-! ## Parentheses -/

/-- How a formula may be written with parentheses: operands are scalars or in parentheses. The flag
says that the whole can be an operand. -/
inductive Formula.Bracketed : Formula → Bool → List Token → Prop where
  | lit (v : Scalar) : Bracketed (.lit v) true [.val v.value]
  | group {e : Formula} {closed : Bool} {ts : List Token} :
      Bracketed e closed ts → Bracketed e true (.sym .lparen :: (ts ++ [.sym .rparen]))
  | unary (op : Unary) {e : Formula} {ts : List Token} :
      Bracketed e true ts → Bracketed (.unary op e) false (.sym op.symbol :: ts)
  | binary (op : Binary) {a b : Formula} {ts us : List Token} :
      Bracketed a true ts → Bracketed b true us →
        Bracketed (.binary op a b) false (ts ++ .sym op.symbol :: us)

/-- A formula with every operator and its operands in parentheses. -/
def Formula.written : Formula → List Token
  | lit v => [.val v.value]
  | unary op e => .sym .lparen :: ((.sym op.symbol :: e.written) ++ [.sym .rparen])
  | binary op a b => .sym .lparen :: ((a.written ++ .sym op.symbol :: b.written) ++ [.sym .rparen])

theorem Formula.bracketed_written (e : Formula) : e.Bracketed true e.written := by
  induction e with
  | lit v => exact .lit v
  | unary op e ih => exact .group (.unary op ih)
  | binary op a b iha ihb => exact .group (.binary op iha ihb)

/-- No scalar of a formula has the text of a parenthesis. -/
def Formula.Legible (e : Formula) : Prop :=
  ∀ v ∈ e.literals, v ≠ .str "(" ∧ v ≠ .str ")"

instance (e : Formula) : Decidable e.Legible :=
  inferInstanceAs (Decidable (∀ v ∈ e.literals, v ≠ .str "(" ∧ v ≠ .str ")"))

namespace Formula.Bracketed

variable {e : Formula} {closed : Bool} {ts : List Token}

theorem constant (h : e.Bracketed closed ts) : ∀ t ∈ ts, t.Constant := by
  induction h with
  | lit v => simpa using .scalar v
  | @group e closed ts h ih =>
    intro t ht
    simp only [mem_cons, mem_append, not_mem_nil, or_false] at ht
    rcases ht with rfl | ht | rfl
    · exact .symbol (by decide) (by decide) (by decide)
    · exact ih t ht
    · exact .symbol (by decide) (by decide) (by decide)
  | unary op h ih =>
    refine List.forall_mem_cons.2 ⟨?_, ih⟩
    cases op <;> exact .symbol (by decide) (by decide) (by decide)
  | binary op ha hb iha ihb =>
    refine List.forall_mem_append.2 ⟨iha, List.forall_mem_cons.2 ⟨?_, ihb⟩⟩
    cases op <;> exact .symbol (by decide) (by decide) (by decide)

/-- Parentheses are balanced. -/
theorem level (h : e.Bracketed closed ts) (hl : e.Legible) : Level "(" ")" ts := by
  induction h with
  | lit v =>
    obtain ⟨hopen, hclose⟩ := hl v (by simp [literals])
    refine level_single ?_ ?_ <;> cases v <;> simp_all [Scalar.value, Token.reads]
  | group h ih => exact (ih hl).wrap (by decide) (by decide) (by decide)
  | unary op h ih =>
    exact Level.append (level_single (by cases op <;> decide)
      (by cases op <;> decide)) (ih hl)
  | binary op ha hb iha ihb =>
    obtain ⟨hla, hlb⟩ := List.forall_mem_append.1 hl
    refine (iha hla).append (Level.append (level_single ?_ ?_) (ihb hlb)) <;>
      cases op <;> decide

theorem length_pos (h : e.Bracketed closed ts) : 0 < ts.length := by
  cases h <;> simp

end Formula.Bracketed

/-! ## Operands -/

namespace Expression

section

variable {eval : Expr → Eval Value} {call : Nat → List Value → Eval Value}

theorem applyFrom_val (v : Value) (done rest : List Token) :
    applyFrom eval call done 0 (.val v :: rest) = applyFrom eval call (.val v :: done) 0 rest := by
  rw [applyFrom.eq_def]
  simp [Token.is]

theorem applyFrom_symbol {y : Symbol} (hbracket : y ≠ .lbracket) (hparen : y ≠ .lparen)
    (done rest : List Token) :
    applyFrom eval call done 0 (.sym y :: rest) = applyFrom eval call (.sym y :: done) 0 rest := by
  rw [applyFrom.eq_def]
  simp [Token.is, hbracket, hparen]

theorem applyFrom_skip (front done rest : List Token) :
    applyFrom eval call done front.length (front ++ rest) = applyFrom eval call done 0 rest := by
  induction front with
  | nil => rfl
  | cons t front ih => rw [length_cons, cons_append, applyFrom, ih]

/-- A group that no value stands before is replaced by its value. -/
theorem applyFrom_group {inner : List Token} (h : Level "(" ")" inner) {done : List Token}
    (hdone : ∀ v before, done ≠ .val v :: before) (rest : List Token) :
    applyFrom eval call done 0 (.sym .lparen :: (inner ++ Token.sym .rparen :: rest))
      = eval inner >>= fun v => applyFrom eval call (.val v :: done) 0 rest := by
  have hpartner : Eval.partner (.sym .lparen :: (inner ++ Token.sym .rparen :: rest))
      = pure (inner.length + 1) := by
    rw [Eval.partner, partner?_of_level .round h]
  have hinside :
      Eval.inside (inner.length + 1) (.sym .lparen :: (inner ++ Token.sym .rparen :: rest))
      = inner := by
    simp [Eval.inside]
  have hskip (v : Value) :
      applyFrom eval call (.val v :: done) (inner.length + 1) (inner ++ Token.sym .rparen :: rest)
        = applyFrom eval call (.val v :: done) 0 rest := by
    have hfront : applyFrom eval call (.val v :: done) (inner ++ [Token.sym .rparen]).length
        ((inner ++ [Token.sym .rparen]) ++ rest) = applyFrom eval call (.val v :: done) 0 rest :=
      applyFrom_skip ..
    simpa using hfront
  rw [applyFrom.eq_def]
  simp only [Token.is, hpartner, pure_bind, hinside, hskip]
  rw [if_neg (by decide), if_pos (by decide)]

end

variable {ctx : Context} {scope : Nat}

/-- Wherever it stands in an expression, an operand becomes the value of its formula. -/
def Stands (ctx : Context) (scope : Nat) (e : Formula) (ts : List Token) : Prop :=
  ∀ {α : Type} {P : α → Prop} {Q : Prop} {fuel : Nat} {done rest : List Token}
    {finish : List Token → Eval α}, ts.length ≤ fuel + 1 → (∀ v before, done ≠ .val v :: before) →
    (∀ w, e.denote = some w → Eval.Yields (applyFrom (evaluate ctx fuel scope) (call ctx fuel scope)
      (.val w.value :: done) 0 rest >>= finish) P Q) → (e.denote = none → Q) →
    Eval.Yields (applyFrom (evaluate ctx fuel scope) (call ctx fuel scope) done 0
      (ts ++ rest) >>= finish) P Q

/-- An expression has the value of its formula, or none if that has none. -/
def Means (ctx : Context) (scope : Nat) (e : Formula) (ts : List Token) : Prop :=
  ∀ {fuel : Nat}, ts.length ≤ fuel → Eval.Yields (evaluate ctx fuel scope ts)
    (fun v => ∃ w, e.denote = some w ∧ v = w.value) (e.denote = none)

theorem stands_lit (v : Scalar) : Stands ctx scope (.lit v) [.val v.value] := by
  intro α P Q fuel done rest finish _ _ hsome _
  rw [singleton_append, applyFrom_val]
  exact hsome v rfl

theorem stands_group {e : Formula} {ts : List Token} (hlevel : Level "(" ")" ts)
    (h : Means ctx scope e ts) :
    Stands ctx scope e (.sym .lparen :: (ts ++ [Token.sym .rparen])) := by
  intro α P Q fuel done rest finish hlen hdone hsome hnone
  simp only [length_cons, length_append, length_nil] at hlen
  rw [cons_append, append_assoc, singleton_append, applyFrom_group hlevel hdone, bind_assoc]
  refine Eval.Yields.bind (h (by omega)) ?_ hnone
  rintro _ ⟨w, hw, rfl⟩
  exact hsome w hw

/-- An operand alone means its formula. -/
theorem Stands.means {e : Formula} {ts : List Token} (h : Stands ctx scope e ts)
    (hconst : ∀ t ∈ ts, t.Constant) (hpos : 0 < ts.length) : Means ctx scope e ts := by
  intro fuel hlen
  obtain ⟨fuel, rfl⟩ : ∃ n, fuel = n + 1 := ⟨fuel - 1, by omega⟩
  refine yields_evaluate hconst ?_
  rw [← append_nil ts]
  refine h hlen (by simp) (fun w hw => ?_) id
  show Eval.Yields (Operator.settle _ [.val w.value]) _ _
  rw [Operator.settle_val]
  exact Eval.Yields.pure ⟨w, hw, rfl⟩

end Expression

/-! ## Operators -/

namespace Operator

open Eval

theorem yields_toNumber (v : Scalar) :
    Yields (toNumber v.value) (fun x => Unary.number.apply v = some (.num x))
      (Unary.number.apply v = none) := by
  cases v with
  | num x => exact Yields.pure rfl
  | str s =>
    simp only [Scalar.value, toNumber, Unary.apply]
    cases Number.read? s with
    | some x => exact Yields.pure rfl
    | none => exact Yields.raise rfl
  | _ => exact Yields.raise rfl

variable {eval : Expr → Eval Value}
  (heval : ∀ (v : Scalar) σ, eval [.val v.value] σ = .ok v.value σ)
include heval

theorem yields_unary (op : Unary) (v : Scalar) : Yields (unary eval [.sym op.symbol, .val v.value])
      (fun out => ∃ w, op.apply v = some w ∧ out = [.val w.value]) (op.apply v = none) := by
  have hoperand : Yields (operand eval [.val v.value]) (· = v.value) False :=
    fun σ => .inl ⟨_, heval v σ, rfl⟩
  cases op with
  | not =>
    refine Yields.bind hoperand ?_ False.elim
    rintro _ rfl
    refine Yields.bind (yields_truth v) ?_ False.elim
    rintro _ rfl
    exact Yields.pure ⟨_, rfl, rfl⟩
  | negative =>
    refine Yields.bind hoperand ?_ False.elim
    rintro _ rfl
    cases v with
    | num x => exact Yields.pure ⟨_, rfl, rfl⟩
    | _ => exact Yields.raise rfl
  | number =>
    refine Yields.bind hoperand ?_ False.elim
    rintro _ rfl
    refine Yields.bind (yields_toNumber v) (fun x hx => ?_) id
    exact Yields.pure ⟨_, hx, rfl⟩

theorem yields_settle_unary (op : Unary) (v : Scalar) :
    Yields (settle eval [.sym op.symbol, .val v.value])
      (fun t => ∃ w, op.apply v = some w ∧ t = .val w.value) (op.apply v = none) := by
  rw [settle, pass, bind_assoc]
  refine Yields.bind (yields_unary heval op v) ?_ id
  rintro _ ⟨w, hw, rfl⟩
  have hbinary : binary [.val w.value] = pure [.val w.value] := rfl
  rw [hbinary, pure_bind, settleFrom.eq_def]
  exact Yields.pure ⟨w, hw, rfl⟩

/-- Two operands and an operator are the shortest chain with an operator. -/
theorem yields_settle_binary (op : Binary) (v w : Scalar) :
    Yields (settle eval [.val v.value, .sym op.symbol, .val w.value])
      (fun t => ∃ u, op.apply v w = some u ∧ t = .val u.value) (op.apply v w = none) := by
  have hformula : .binary op (.lit v) (.lit w) = (Chain.mk v [(op, w)]).formula :=
    (Chain.eq_formula_iff _ _).2 ⟨⟨trivial, trivial, Nat.zero_le _, Nat.zero_le _⟩, rfl⟩
  have hchain := yields_settle heval (Chain.mk v [(op, w)])
  rw [← hformula] at hchain
  refine hchain.mono (fun _ h => h) ?_
  rintro (h | h)
  · exact h
  · exact absurd (Pairwise.isChain (by by_cases hop : 2 ≤ op.level <;> simp [Chain.ops, hop])) h

end Operator

namespace Expression

variable {ctx : Context} {scope : Nat}

theorem means_unary (op : Unary) {e : Formula} {ts : List Token} (h : Stands ctx scope e ts)
    (hconst : ∀ t ∈ Token.sym op.symbol :: ts, t.Constant) (hpos : 0 < ts.length) :
    Means ctx scope (.unary op e) (.sym op.symbol :: ts) := by
  intro fuel hlen
  rw [length_cons] at hlen
  obtain ⟨fuel, rfl⟩ : ∃ n, fuel = n + 2 := ⟨fuel - 2, by omega⟩
  refine yields_evaluate hconst ?_
  rw [applyFrom_symbol (by cases op <;> decide) (by cases op <;> decide), ← append_nil ts]
  refine h (by omega) (by simp) (fun v hv => ?_) fun hnone => by simp [denote, hnone]
  have hdenote : (Formula.unary op e).denote = op.apply v := by simp [denote, hv]
  rw [applyFrom, pure_bind, hdenote]
  exact Operator.yields_settle_unary (evaluate_scalar ctx fuel scope) op v

theorem means_binary (op : Binary) {a b : Formula} {ts us : List Token}
    (ha : Stands ctx scope a ts) (hb : Stands ctx scope b us)
    (hconst : ∀ t ∈ ts ++ Token.sym op.symbol :: us, t.Constant) (hpos : 0 < ts.length) :
    Means ctx scope (.binary op a b) (ts ++ .sym op.symbol :: us) := by
  intro fuel hlen
  simp only [length_append, length_cons] at hlen
  obtain ⟨fuel, rfl⟩ : ∃ n, fuel = n + 2 := ⟨fuel - 2, by omega⟩
  refine yields_evaluate hconst ?_
  refine ha (by omega) (by simp) (fun v hv => ?_) fun hnone => by simp [denote, hnone]
  rw [applyFrom_symbol (by cases op <;> decide) (by cases op <;> decide), ← append_nil us]
  refine hb (by omega) (by simp) (fun w hw => ?_) fun hnone => by simp [denote, hv, hnone]
  have hdenote : (Formula.binary op a b).denote = op.apply v w := by simp [denote, hv, hw]
  rw [applyFrom, pure_bind, hdenote]
  exact Operator.yields_settle_binary (evaluate_scalar ctx fuel scope) op v w

/-- **An expression with parentheses means its formula**, and can stand in another one if it is
closed. -/
theorem means_of_bracketed {e : Formula} {closed : Bool} {ts : List Token}
    (h : e.Bracketed closed ts) (hl : e.Legible) :
    Means ctx scope e ts ∧ (closed = true → Stands ctx scope e ts) := by
  induction h with
  | lit v =>
    have hstands : Stands ctx scope (.lit v) [.val v.value] := stands_lit v
    exact ⟨hstands.means (Bracketed.lit v).constant (by simp), fun _ => hstands⟩
  | group h ih =>
    have hstands : Stands ctx scope _ _ := stands_group (h.level hl) (ih hl).1
    exact ⟨hstands.means h.group.constant (by simp), fun _ => hstands⟩
  | unary op h ih =>
    exact ⟨means_unary op ((ih hl).2 rfl) (h.unary op).constant h.length_pos, by simp⟩
  | binary op ha hb iha ihb =>
    obtain ⟨hla, hlb⟩ := List.forall_mem_append.1 hl
    exact ⟨means_binary op ((iha hla).2 rfl) ((ihb hlb).2 rfl) (ha.binary op hb).constant
      ha.length_pos, by simp⟩

end Expression

/-- **Evaluation is compositional.** A formula that is written with parentheses is evaluated to what
it denotes, and evaluating it fails if it denotes nothing. The store is not touched. -/
theorem evaluation_compositional {e : Formula} {closed : Bool} {ts : List Token}
    (h : e.Bracketed closed ts) (hl : e.Legible) (ctx : Context) {fuel : Nat}
    (hfuel : ts.length ≤ fuel) (scope : Nat) (σ : Store) :
    (∀ v, e.denote = some v → evaluate ctx fuel scope ts σ = .ok v.value σ) ∧
      (e.denote = none → ∃ f, evaluate ctx fuel scope ts σ = .error (.failure f) σ) := by
  rcases (Expression.means_of_bracketed h hl).1 hfuel σ with ⟨_, hok, w, hw, rfl⟩ | ⟨hf, hnone⟩
  · refine ⟨fun v hv => ?_, fun hnone => ?_⟩
    · rw [hw] at hv
      cases hv
      exact hok
    · rw [hw] at hnone
      cases hnone
  · refine ⟨fun v hv => ?_, fun _ => hf⟩
    rw [hnone] at hv
    cases hv

/-- `(!(("a" + "[") === (+"7")))` is true, and `(1 / ("b" - 2))` fails. -/
theorem evaluation_compositional_nested :
    let e : Formula := .unary .not (.binary .same
      (.binary .plus (.lit (.str "a")) (.lit (.str "["))) (.unary .number (.lit (.str "7"))))
    let e' : Formula :=
      .binary .divide (.lit (.num 1)) (.binary .minus (.lit (.str "b")) (.lit (.num 2)))
    (e.Legible ∧ e.denote = some (.bool true) ∧
      evaluate ⟨none, false, 0⟩ 20 0 e.written .empty = .ok (.bool true) .empty) ∧ e'.Legible ∧
      e'.denote = none ∧
      ∃ f, evaluate ⟨none, false, 0⟩ 20 0 e'.written .empty = .error (.failure f) .empty := by
  refine ⟨⟨by decide, by decide +kernel, ?_⟩, by decide, by decide +kernel, ?_⟩
  · exact (evaluation_compositional (bracketed_written _) (by decide) _ (by decide) _ _).1
      (.bool true) (by decide +kernel)
  · exact (evaluation_compositional (bracketed_written _) (by decide) _ (by decide) _ _).2
      (by decide +kernel)

end LittleJ
