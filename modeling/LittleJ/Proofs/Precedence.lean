import LittleJ.Proofs.CoupledRun
import LittleJ.Proofs.Formula
import Mathlib.Data.List.Chain
import Mathlib.Data.List.Induction

/-!
# Precedence

Evaluating a chain means to rewrite its tokens, level after level, and not to build a tree. This
module shows that the result is what the formula of the chain denotes.

A *row* is what the tokens are between two rewritings: scalars with an operator or nothing between
neighbours. Doing one level in a row of scalars and joining one level of a chain of formulas come to
the same. Two things stand between that and the whole: a comparison that is followed by another one
is refused, and a minus sign behind anything but a number is taken for a unary one. The first
happens only if comparisons are chained. The second leaves a *gap*, two neighbours without an
operator, and gaps stay: such a row never becomes a single value. It only happens where the formula
denotes nothing, since nothing else can be subtracted from.
-/

namespace LittleJ

open List Token Chain

variable {ts : List Token} {op : Binary} {level n : Nat} {w : Scalar} {t : Token}

/-! ## Computations that leave the store alone -/

namespace Eval

variable {α β : Type} {P : α → Prop} {R : β → Prop} {Q Q' : Prop}

/-- The store stays as it is. There is a result, which has the property `P`, or a failure, which
happens only if `Q`. -/
def Yields (m : Eval α) (P : α → Prop) (Q : Prop) : Prop :=
  ∀ σ, (∃ a, m σ = .ok a σ ∧ P a) ∨ (∃ f, m σ = .error (.failure f) σ) ∧ Q

theorem Yields.pure {a : α} (h : P a) : Yields (Pure.pure a) P Q :=
  fun _ => .inl ⟨a, rfl, h⟩

theorem Yields.raise {e : Error} (h : Q) : Yields (Eval.raise e) P Q :=
  fun _ => .inr ⟨⟨_, rfl⟩, h⟩

theorem Yields.breakdown {x : Fault} (h : Q) : Yields (Eval.breakdown x) P Q :=
  fun _ => .inr ⟨⟨_, rfl⟩, h⟩

theorem Yields.bind {m : Eval α} {f : α → Eval β} (hm : Yields m P Q)
    (hf : ∀ a, P a → Yields (f a) R Q') (hQ : Q → Q') : Yields (m >>= f) R Q' := by
  intro σ
  simp only [Bind.bind, EStateM.bind]
  rcases hm σ with ⟨a, hok, ha⟩ | ⟨⟨x, hx⟩, hq⟩
  · rw [hok]
    exact hf a ha σ
  · rw [hx]
    exact .inr ⟨⟨x, rfl⟩, hQ hq⟩

theorem Yields.mono {m : Eval α} {R : α → Prop} (hm : Yields m P Q) (hP : ∀ a, P a → R a)
    (hQ : Q → Q') : Yields m R Q' := by
  intro σ
  rcases hm σ with ⟨a, hok, ha⟩ | ⟨hx, hq⟩
  · exact .inl ⟨a, hok, hP a ha⟩
  · exact .inr ⟨hx, hQ hq⟩

theorem Yields.ofFault {r : Except Fault α} :
    Yields (Eval.ofFault r) (fun a => r = .ok a) (∀ a, r ≠ .ok a) := by
  cases r with
  | ok a => exact Yields.pure rfl
  | error x => exact Yields.breakdown (by simp)

theorem Yields.raiseAt {e : String → Error} (h : Q) : Yields (Eval.raiseAt e ts) P Q := by
  intro σ
  have hs : Yields (Eval.ofFault (σ.excerpt ts) >>= fun s => Eval.raise (α := α) (e s)) P Q :=
    Yields.bind Yields.ofFault (fun _ _ => Yields.raise h) fun _ => h
  exact hs σ

end Eval

/-! ## Operators between scalars -/

namespace Scalar

theorem truth_value (v : Scalar) : v.value.truth? = some v.truth := by
  cases v with
  | str s =>
    have h : s.isEmpty = (s == "") := by rw [Bool.eq_iff_iff]; simp [String.isEmpty_iff]
    simp [value, Value.truth?, truth, bne, h]
  | _ => rfl

theorem identical_value (v w : Scalar) : v.value.identical? w.value = some (v.same w) := by
  cases v <;> cases w <;> rfl

end Scalar

namespace Operator

open Eval

theorem yields_truth (v : Scalar) {Q : Prop} :
    Yields (Eval.truth v.value) (fun b => b = v.truth) Q := by
  unfold Eval.truth
  rw [v.truth_value]
  exact Yields.pure rfl

theorem yields_identical (v w : Scalar) {Q : Prop} :
    Yields (identical (.val v.value) (.val w.value)) (fun b => b = v.same w) Q := by
  simp only [identical, v.identical_value]
  exact Yields.pure rfl

theorem yields_combine_numbers (h : op.level ≤ 2) (x y : Float) (whole : List Token) :
    Yields (combine op.symbol (.val (.num x)) (.val (.num y)) whole)
      (fun t => ∃ u, op.onNumbers x y = some u ∧ t = .val u.value) (op.onNumbers x y = none) := by
  have divided (z : Float) : Yields (α := Token)
      (do return .val (← Eval.ofFault (if y == 0.0 then .error .zeroDivision else .ok (.num z))))
      (fun t => ∃ u, (if y == 0.0 then none else some (Scalar.num z)) = some u ∧ t = .val u.value)
      ((if y == 0.0 then none else some (Scalar.num z)) = none) := by
    split
    · exact Yields.bind (P := fun _ => False) (Yields.breakdown trivial) (fun _ hf => hf.elim)
        fun _ => rfl
    · exact Yields.pure ⟨_, rfl, rfl⟩
  cases op with
  | divide => exact divided _
  | modulo => exact divided _
  | same | differs | both | either => simp [Binary.level] at h
  | _ => exact Yields.pure ⟨_, rfl, rfl⟩

theorem yields_combine_strings (h : op.level ≤ 2) (s t : String) (whole : List Token) :
    Yields (combine op.symbol (.val (.str s)) (.val (.str t)) whole)
      (fun u => ∃ v, op.onStrings s t = some v ∧ u = .val v.value) (op.onStrings s t = none) := by
  cases op with
  | times | divide | modulo | minus => exact Yields.raiseAt rfl
  | plus => exact Yields.pure ⟨_, rfl, rfl⟩
  | ge | le =>
    refine Yields.pure ⟨_, rfl, congrArg (val ∘ Value.bool) ?_⟩
    exact (decide_not (p := _ < _)).symm
  | gt | lt => exact Yields.pure ⟨_, rfl, rfl⟩
  | same | differs | both | either => simp [Binary.level] at h

/-- Between scalars an operator gives what it makes of them, and fails where it makes nothing. -/
theorem yields_combine (op : Binary) (v w : Scalar) (whole : List Token) :
    Yields (combine op.symbol (.val v.value) (.val w.value) whole)
      (fun t => ∃ u, op.apply v w = some u ∧ t = .val u.value) (op.apply v w = none) := by
  cases op with
  | same =>
    refine Yields.bind (yields_identical v w) (fun b hb => ?_) False.elim
    exact Yields.pure ⟨_, rfl, by rw [hb]; rfl⟩
  | differs =>
    refine Yields.bind (yields_identical v w) (fun b hb => ?_) False.elim
    exact Yields.pure ⟨_, rfl, by rw [hb]; rfl⟩
  | both =>
    refine Yields.bind (yields_truth v) (fun b hb => ?_) False.elim
    refine Yields.pure ⟨_, rfl, ?_⟩
    rw [hb]; split <;> rfl
  | either =>
    refine Yields.bind (yields_truth v) (fun b hb => ?_) False.elim
    refine Yields.pure ⟨_, rfl, ?_⟩
    rw [hb]; split <;> rfl
  | _ =>
    cases v <;> cases w <;>
      first
      | exact Yields.raiseAt rfl
      | exact yields_combine_strings (by decide) _ _ _
      | exact yields_combine_numbers (by decide) _ _ _

end Operator

/-- Whether an operator is a comparison, of order or of identity. -/
def Binary.compares (op : Binary) : Bool :=
  op.level == 2 || op.level == 3

namespace Operator

open Eval

theorem contains_comparisons (op : Binary) : comparisons.contains op.symbol = op.compares := by
  cases op <;> decide

theorem any_comparisons_text (op : Binary) :
    comparisons.any (·.text == op.symbol.text) = op.compares := by
  cases op <;> decide

/-- A comparison is refused only if the text of another one follows. -/
theorem yields_checkChaining (op : Binary) (next : Option Token) :
    Yields (checkChaining op.symbol next) (fun _ => True)
      (op.compares ∧ ∃ t s, next = some t ∧ t.text? = some s ∧ comparisons.any (·.text == s)) := by
  unfold checkChaining
  split
  · exact Yields.pure trivial
  · next t =>
      split
      · exact Yields.pure trivial
      · next s hs =>
          split
          · next h =>
              rw [Bool.and_eq_true, contains_comparisons] at h
              exact Yields.raise ⟨h.1, t, s, rfl, hs, h.2⟩
          · exact Yields.pure trivial

end Operator

/-! ## Rows -/

/-- Scalars in a row. Before each but the first there is an operator or a gap. -/
structure Row where
  first : Scalar
  rest : List (Option Binary × Scalar)

namespace Row

/-- The tokens between two neighbours. -/
def between : Option Binary → List Token
  | none => []
  | some op => [.sym op.symbol]

/-- The tokens after the first scalar. -/
def tail (rest : List (Option Binary × Scalar)) : List Token :=
  rest.flatMap fun p => between p.1 ++ [.val p.2.value]

/-- The tokens of a row. -/
def tokens (r : Row) : List Token :=
  .val r.first.value :: tail r.rest

/-- A row with one more scalar in front. -/
def cons (v : Scalar) (o : Option Binary) (r : Row) : Row :=
  ⟨v, (o, r.first) :: r.rest⟩

theorem tokens_cons (v : Scalar) (o : Option Binary) (r : Row) :
    (cons v o r).tokens = .val v.value :: (between o ++ r.tokens) := by
  simp [cons, tokens, tail]

theorem rest_eq_nil {r : Row} (h : r.tokens.length = 1) : r.rest = [] := by
  cases hr : r.rest with
  | nil => rfl
  | cons p rest => simp [tokens, tail, hr] at h

/-- The number of gaps. -/
def gaps (r : Row) : Nat :=
  r.rest.countP fun p => p.1.isNone

/-- Does the operators of one level from left to right. The row starts with `v`. -/
def reduce (level : Nat) (v : Scalar) : List (Option Binary × Scalar) → Option Row
  | [] => some ⟨v, []⟩
  | (none, w) :: rest => (reduce level w rest).map (cons v none)
  | (some op, w) :: rest =>
    if op.level = level then (op.apply v w).bind fun u => reduce level u rest
    else (reduce level w rest).map (cons v (some op))

theorem gaps_reduce {v : Scalar} {rest : List (Option Binary × Scalar)} {r : Row}
    (h : reduce level v rest = some r) :
    r.gaps = (Row.mk v rest).gaps := by
  fun_induction reduce level v rest generalizing r with
  | case1 v => cases h; rfl
  | case2 v w rest ih =>
    obtain ⟨r', hr', rfl⟩ := Option.map_eq_some_iff.1 h
    simpa [gaps, cons] using ih hr'
  | case3 v op w rest hop ih =>
    obtain ⟨u, _, hr'⟩ := Option.bind_eq_some_iff.1 h
    simpa [gaps] using ih u hr'
  | case4 v op w rest hop ih =>
    obtain ⟨r', hr', rfl⟩ := Option.map_eq_some_iff.1 h
    simpa [gaps, cons] using ih hr'

/-- No operator of a level is a comparison that a comparison or a gap follows. -/
def Parted (level : Nat) (rest : List (Option Binary × Scalar)) : Prop :=
  (rest.map Prod.fst).IsChain fun o o' => ∀ op, o = some op → op.level = level → op.compares →
    ∃ op', o' = some op' ∧ ¬op'.compares

end Row

namespace Operator

open Eval

/-- A list of symbols is a level of the operators. -/
def IsLevel (level : Nat) (symbols : List Symbol) : Prop :=
  ∀ op : Binary, symbols.contains op.symbol = (op.level == level)

theorem levelFrom_val (symbols : List Symbol) (v : Value) (done ts : List Token) :
    levelFrom symbols done (.val v :: ts) = levelFrom symbols (.val v :: done) ts := by
  rw [levelFrom]
  rfl

theorem ofLevel_symbol {symbols : List Symbol} (hsym : IsLevel level symbols) (op : Binary) :
    ofLevel symbols (.sym op.symbol) = if op.level = level then some op.symbol else none := by
  simp only [ofLevel, hsym op, beq_iff_eq]

/-- What follows the right operand is no comparison if the row is parted. -/
theorem not_chained {rest : List (Option Binary × Scalar)} (hop : op.level = level)
    (hpart : Row.Parted level ((some op, w) :: rest)) {s : String} (hcomp : op.compares)
    (ht : (Row.tail rest).head? = some t) (hs : t.text? = some s) :
    comparisons.any (·.text == s) = false := by
  cases rest with
  | nil => cases ht
  | cons p rest =>
    obtain ⟨op', hp, hop'⟩ := (List.isChain_cons_cons.1 hpart).1 op rfl hop hcomp
    obtain ⟨o, u⟩ := p
    cases hp
    cases ht
    cases hs
    rw [any_comparisons_text]
    simpa using hop'

/-- **One level of the operators in a row.** -/
theorem yields_levelFrom {symbols : List Symbol} (hsym : IsLevel level symbols) (v : Scalar)
    (rest : List (Option Binary × Scalar)) (before : List Token) :
    Yields (levelFrom symbols (.val v.value :: before) (Row.tail rest))
      (fun out => ∃ r, Row.reduce level v rest = some r ∧ out = before.reverse ++ r.tokens)
      (Row.reduce level v rest = none ∨ ¬Row.Parted level rest) := by
  induction rest generalizing v before with
  | nil => exact Yields.pure ⟨_, rfl, by simp [Row.tokens, Row.tail]⟩
  | cons p rest ih =>
    obtain ⟨o, w⟩ := p
    have hparted (h : ¬Row.Parted level rest) : ¬Row.Parted level ((o, w) :: rest) :=
      fun hp => h (IsChain.of_cons hp)
    -- a scalar stays in its place unless an operator of the level is before it
    have kept (hred : Row.reduce level v ((o, w) :: rest)
        = (Row.reduce level w rest).map (Row.cons v o)) : Yields (levelFrom symbols
          (.val w.value :: ((Row.between o).reverse ++ .val v.value :: before)) (Row.tail rest))
        (fun out => ∃ r, Row.reduce level v ((o, w) :: rest) = some r ∧
          out = before.reverse ++ r.tokens)
        (Row.reduce level v ((o, w) :: rest) = none ∨ ¬Row.Parted level ((o, w) :: rest)) := by
      refine (ih w ((Row.between o).reverse ++ .val v.value :: before)).mono ?_ ?_
      · rintro out ⟨r, hr, rfl⟩
        exact ⟨Row.cons v o r, by rw [hred, hr]; rfl, by simp [Row.tokens_cons]⟩
      · rintro (h | h)
        · exact .inl (by rw [hred, h]; rfl)
        · exact .inr (hparted h)
    cases o with
    | none =>
      have hstep : levelFrom symbols (.val v.value :: before) (Row.tail ((none, w) :: rest))
          = levelFrom symbols (.val w.value :: .val v.value :: before) (Row.tail rest) :=
        levelFrom_val ..
      rw [hstep]
      exact kept rfl
    | some op =>
      have htail : Row.tail ((some op, w) :: rest)
          = .sym op.symbol :: .val w.value :: Row.tail rest := rfl
      rw [htail, levelFrom, ofLevel_symbol hsym]
      by_cases hop : op.level = level
      · have hred : Row.reduce level v ((some op, w) :: rest)
            = (op.apply v w).bind fun u => Row.reduce level u rest := by
          rw [Row.reduce, if_pos hop]
        rw [if_pos hop]
        refine Yields.bind (yields_checkChaining op _) (fun _ _ => ?_) ?_
        · refine Yields.bind (yields_combine op v w _) ?_ fun h => .inl (by rw [hred, h]; rfl)
          rintro _ ⟨u, hu, rfl⟩
          refine (ih u before).mono ?_ ?_
          · rintro out ⟨r, hr, rfl⟩
            exact ⟨r, by rw [hred, hu]; exact hr, rfl⟩
          · rintro (h | h)
            · exact .inl (by rw [hred, hu]; exact h)
            · exact .inr (hparted h)
        · rintro ⟨hcomp, t, s, ht, hs, hany⟩
          refine .inr fun hpart => ?_
          rw [not_chained hop hpart hcomp ht hs] at hany
          cases hany
      · rw [if_neg hop]
        show Yields (levelFrom symbols _ (.val w.value :: Row.tail rest)) _ _
        rw [levelFrom_val]
        exact kept (by rw [Row.reduce, if_neg hop])

end Operator

/-! ## Levels of a chain and of a row -/

namespace Chain

/-- What formulas behind operators denote. -/
def denoteRest : List (Binary × Formula) → Option (List (Option Binary × Scalar))
  | [] => some []
  | (op, e) :: rest => do
    let v ← e.denote
    let vs ← denoteRest rest
    return (some op, v) :: vs

/-- What the formulas of a chain denote, as a row. -/
def denote (c : Chain Formula) : Option Row := do
  let v ← c.first.denote
  let vs ← denoteRest c.rest
  return ⟨v, vs⟩

theorem denoteRest_lit (rest : List (Binary × Scalar)) :
    denoteRest (rest.map fun p => (p.1, .lit p.2)) = some (rest.map fun p => (some p.1, p.2)) := by
  induction rest with
  | nil => rfl
  | cons p rest ih => simp [denoteRest, Formula.denote, ih]

theorem ops_denoteRest {rest : List (Binary × Formula)} {vs : List (Option Binary × Scalar)}
    (h : denoteRest rest = some vs) : vs.map Prod.fst = (rest.map Prod.fst).map some := by
  induction rest generalizing vs with
  | nil => cases h; rfl
  | cons p rest ih =>
    obtain ⟨v, _, h⟩ := Option.bind_eq_some_iff.1 h
    obtain ⟨vs', hvs', h⟩ := Option.bind_eq_some_iff.1 h
    cases h
    simp [ih hvs']

theorem denote_eq_some {c : Chain Formula} {r : Row} (h : c.denote = some r) :
    c.first.denote = some r.first ∧ denoteRest c.rest = some r.rest := by
  obtain ⟨v, hv, h⟩ := Option.bind_eq_some_iff.1 h
  obtain ⟨vs, hvs, h⟩ := Option.bind_eq_some_iff.1 h
  cases h
  exact ⟨hv, hvs⟩

theorem ops_denote {c : Chain Formula} {r : Row} (h : c.denote = some r) :
    r.rest.map Prod.fst = c.ops.map some :=
  ops_denoteRest (denote_eq_some h).2

theorem denote_cons (e : Formula) (op : Binary) (c : Chain Formula) :
    (Chain.mk e ((op, c.first) :: c.rest)).denote
      = e.denote.bind fun v => c.denote.map (Row.cons v (some op)) := by
  simp only [denote, denoteRest]
  cases e.denote with
  | none => rfl
  | some v =>
    cases c.first.denote with
    | none => rfl
    | some w => cases denoteRest c.rest <;> rfl

/-- Joining a level of formulas and doing a level of scalars come to the same. -/
theorem denote_gather (level : Nat) (e : Formula) (rest : List (Binary × Formula)) :
    (gather level e rest).denote
      = (Chain.mk e rest).denote.bind fun r => Row.reduce level r.first r.rest := by
  fun_induction gather level e rest with
  | case1 e => cases h : e.denote <;> simp [denote, denoteRest, Row.reduce, h]
  | case2 e op e' rest hop ih =>
    rw [ih]
    cases hv : e.denote with
    | none => simp [denote, Formula.denote, hv]
    | some v =>
      cases hw : e'.denote with
      | none => simp [denote, denoteRest, Formula.denote, hv, hw]
      | some w =>
        cases hvs : denoteRest rest with
        | none => simp [denote, denoteRest, hv, hw, hvs]
        | some vs =>
          simp [denote, denoteRest, Formula.denote, hv, hw, hvs, Row.reduce, hop, Option.bind_assoc]
  | case3 e op e' rest hop ih =>
    rw [denote_cons, ih, denote_cons e op ⟨e', rest⟩]
    cases e.denote with
    | none => rfl
    | some v =>
      cases (Chain.mk e' rest).denote with
      | none => rfl
      | some r => simp [Row.cons, Row.reduce, hop]

/-- Doing a level of scalars goes on where joining a level of formulas does. -/
theorem denote_joined_succ (c : Chain Scalar) (n : Nat) :
    (c.joined (n + 1)).denote = (c.joined n).denote.bind fun r => Row.reduce n r.first r.rest :=
  denote_gather n _ _

theorem denote_joined_six (c : Chain Scalar) :
    (c.joined 6).denote = c.formula.denote.map fun v => ⟨v, []⟩ := by
  rw [denote, rest_joined, formula]
  cases (c.joined 6).first.denote <;> rfl

/-- A chain that denotes nothing after some levels denotes nothing in the end. -/
theorem denote_formula_eq_none {c : Chain Scalar} (hn : n ≤ 6) (h : (c.joined n).denote = none) :
    c.formula.denote = none := by
  have hall (k : Nat) : (c.joined (n + k)).denote = none := by
    induction k with
    | zero => exact h
    | succ k ih => rw [← Nat.add_assoc, denote_joined_succ, ih]; rfl
  have hsix := hall (6 - n)
  rw [Nat.add_sub_cancel' hn, denote_joined_six] at hsix
  simpa using hsix

/-- A chain without operators is not changed by further levels. -/
theorem joined_of_rest_eq_nil {c : Chain Scalar} (hn : n ≤ 6) (h : (c.joined n).rest = []) :
    c.formula = (c.joined n).first := by
  have hall (k : Nat) : c.joined (n + k) = c.joined n := by
    induction k with
    | zero => rfl
    | succ k ih =>
      rw [← Nat.add_assoc, joined, ih, gathered, h, gather, ← h]
  have hsix := hall (6 - n)
  rw [Nat.add_sub_cancel' hn] at hsix
  rw [formula, hsix]

/-- A chain of scalars as a row. -/
def row (c : Chain Scalar) : Row :=
  ⟨c.first, c.rest.map fun p => (some p.1, p.2)⟩

theorem tokens_row (c : Chain Scalar) : c.row.tokens = c.tokens := by
  simp [row, Row.tokens, Row.tail, Row.between, tokens, spread, flatMap_map]

theorem denote_literals (c : Chain Scalar) : (c.joined 0).denote = some c.row := by
  simp [joined, map, denote, Formula.denote, denoteRest_lit, row]

/-! ## Chained comparisons -/

/-- A comparison of order is directly followed by a comparison, or one of identity by another one of
identity. -/
def Clash (op op' : Binary) : Prop :=
  op.level = 2 ∧ (op'.level = 2 ∨ op'.level = 3) ∨ op.level = 3 ∧ op'.level = 3

instance (op op' : Binary) : Decidable (Clash op op') :=
  inferInstanceAs (Decidable (_ ∨ _))

/-- No comparisons clash, arithmetic apart. -/
def Unchained (c : Chain Scalar) : Prop :=
  (c.ops.filter fun op => 2 ≤ op.level).IsChain fun op op' => ¬Clash op op'

instance (c : Chain Scalar) : Decidable c.Unchained :=
  inferInstanceAs (Decidable (List.IsChain _ _))

/-- Without the comparisons of order no comparison of identity is followed by another one either:
one that stood between them would have clashed with the second. -/
theorem isChain_filter_three {ops : List Binary} (hops : ∀ op ∈ ops, 2 ≤ op.level)
    (h : ops.IsChain fun op op' => ¬Clash op op') :
    (ops.filter fun op => 3 ≤ op.level).IsChain fun op op' => op.level = 3 → 4 ≤ op'.level := by
  induction ops with
  | nil => exact .nil
  | cons a ops ih =>
    have hrest := ih (fun op hop => hops op (by simp [hop])) h.of_cons
    by_cases ha : 3 ≤ a.level
    · rw [filter_cons_of_pos (by simpa using ha)]
      refine List.isChain_cons.2 ⟨fun b hb hthree => ?_, hrest⟩
      cases ops with
      | nil => cases hb
      | cons c ops =>
        have hac := (List.isChain_cons_cons.1 h).1
        have hc : 2 ≤ c.level := hops c (by simp)
        by_cases hc3 : 3 ≤ c.level
        · rw [filter_cons_of_pos (by simpa using hc3)] at hb
          cases hb
          unfold Clash at hac
          omega
        · rw [filter_cons_of_neg (by simpa using hc3)] at hb
          cases ops with
          | nil => cases hb
          | cons d ops =>
            have hcd := (List.isChain_cons_cons.1 h.of_cons).1
            have hd : 2 ≤ d.level := hops d (by simp)
            unfold Clash at hcd
            have hd4 : 4 ≤ d.level := by omega
            rw [filter_cons_of_pos (by simp; omega)] at hb
            cases hb
            exact hd4
    · rw [filter_cons_of_neg (by simpa using ha)]
      exact hrest

/-- At every level an unchained chain has no comparison that would be refused. -/
theorem parted_of_unchained {c : Chain Scalar} (h : c.Unchained) {r : Row}
    (hr : (c.joined n).denote = some r) :
    Row.Parted n r.rest := by
  have hops : r.rest.map Prod.fst = (c.ops.filter fun op => n ≤ op.level).map some := by
    rw [ops_denote hr, ops_joined]
  have hparted : (c.ops.filter fun op => n ≤ op.level).IsChain fun op op' =>
      op.level = n → op.compares → ¬op'.compares := by
    by_cases h2 : n = 2
    · subst h2
      refine h.imp fun op op' hclash hop _ => ?_
      unfold Clash at hclash
      simp only [Binary.compares, Bool.or_eq_true, beq_iff_eq]
      omega
    by_cases h3 : n = 3
    · subst h3
      have hlevel (op : Binary) : (decide (3 ≤ op.level) && decide (2 ≤ op.level)) =
          decide (3 ≤ op.level) := by
        cases op <;> rfl
      have h' := isChain_filter_three (fun op hop => by simpa using (List.mem_filter.1 hop).2) h
      rw [filter_filter, filter_congr fun op _ => hlevel op] at h'
      refine h'.imp fun op op' hop hthree _ => ?_
      have hfour := hop hthree
      simp only [Binary.compares, Bool.or_eq_true, beq_iff_eq]
      omega
    · refine (pairwise_of_forall fun op op' hop hcomp => ?_).isChain
      simp only [Binary.compares, Bool.or_eq_true, beq_iff_eq] at hcomp
      omega
  rw [Row.Parted, hops, isChain_map]
  refine hparted.imp fun op op' hop x hx hlevel hcomp => ?_
  cases hx
  exact ⟨op', rfl, hop hlevel hcomp⟩

end Chain

namespace Operator

open Eval

theorem isLevel_levels {symbols : List Symbol} (h : levels[n]? = some symbols) :
    IsLevel n symbols := by
  intro op
  match n, h with
  | 0, rfl | 1, rfl | 2, rfl | 3, rfl | 4, rfl | 5, rfl => cases op <;> rfl

/-- **The levels of the operators in a chain.** -/
theorem yields_binaryFrom {c : Chain Scalar} {symbols : List (List Symbol)} {r : Row}
    (hn : n + symbols.length = 6) (hsym : ∀ i l, symbols[i]? = some l → IsLevel (n + i) l)
    (hr : (c.joined n).denote = some r) :
    Yields (binaryFrom symbols r.tokens)
      (fun out => ∃ w, c.formula.denote = some w ∧ out = [.val w.value])
      (c.formula.denote = none ∨ ¬c.Unchained) := by
  induction symbols generalizing n r with
  | nil =>
    obtain rfl : n = 6 := by simpa using hn
    rw [denote_joined_six] at hr
    obtain ⟨w, hw, rfl⟩ := Option.map_eq_some_iff.1 hr
    exact Yields.pure ⟨w, hw, rfl⟩
  | cons l symbols ih =>
    have hle : n + 1 ≤ 6 := by rw [length_cons] at hn; omega
    have hstart : levelFrom l [] r.tokens = levelFrom l [.val r.first.value] (Row.tail r.rest) :=
      levelFrom_val ..
    have hnext : (c.joined (n + 1)).denote = Row.reduce n r.first r.rest := by
      rw [denote_joined_succ, hr]
      rfl
    rw [binaryFrom, hstart]
    have hl : IsLevel n l := hsym 0 l rfl
    refine Yields.bind (yields_levelFrom hl r.first r.rest []) ?_ ?_
    · rintro _ ⟨r', hr', rfl⟩
      rw [hr'] at hnext
      split
      · next hlen =>
          have hrest := Row.rest_eq_nil (by simpa using hlen)
          have hops := ops_denote hnext
          rw [hrest] at hops
          have hfirst := joined_of_rest_eq_nil hle (by simpa [ops] using hops)
          refine Yields.pure ⟨r'.first, hfirst ▸ (denote_eq_some hnext).1, ?_⟩
          simp [Row.tokens, hrest, Row.tail]
      · refine ih (by rw [length_cons] at hn; omega) (fun i k hk => ?_) hnext
        have hlevel := hsym (i + 1) k hk
        rwa [← Nat.add_assoc, Nat.add_right_comm] at hlevel
    · rintro (h | h)
      · exact .inl (denote_formula_eq_none hle (hnext.trans h))
      · exact .inr fun hc => h (parted_of_unchained hc hr)

end Operator

/-! ## Minus signs -/

/-- Behind anything but a number a minus sign is taken for a unary one. In the tokens there is no
such place. -/
def Steady (ts : List Token) : Prop :=
  ts.IsChain fun t t' => t' = .sym .minus → Operator.minusIsUnary (some t) = false

/-- Arithmetic comes to a number only with numbers. -/
theorem Binary.numbers_of_apply (hop : op.level ≤ 1) {v : Scalar} {x : Float}
    (h : op.apply v w = some (.num x)) :
    ∃ y z, v = .num y ∧ w = .num z := by
  cases v <;> cases w <;> cases op <;> simp [level, apply, onStrings] at hop h ⊢

/-- Only numbers are subtracted. -/
theorem Binary.numbers_of_minus {v u : Scalar} (h : minus.apply v w = some u) :
    ∃ y z, v = .num y ∧ w = .num z := by
  cases v <;> cases w <;> first | exact ⟨_, _, rfl, rfl⟩ | cases h

namespace Formula

/-- A formula of arithmetic that comes to a number ends in a number. -/
theorem getLast_flat_of_num {e : Formula} (he : e.Grouped) (hloose : e.looseness ≤ 2) {x : Float}
    (h : e.denote = some (.num x)) : ∃ y, e.flat.getLast? = some (.val (.num y)) := by
  induction e generalizing x with
  | lit v => cases h; exact ⟨x, rfl⟩
  | unary u e ih => exact he.elim
  | binary op a b iha ihb =>
    obtain ⟨v, hv, h⟩ := Option.bind_eq_some_iff.1 h
    obtain ⟨w, hw, h⟩ := Option.bind_eq_some_iff.1 h
    have hop : op.level ≤ 1 := by simpa [looseness] using hloose
    obtain ⟨y, z, rfl, rfl⟩ := Binary.numbers_of_apply hop h
    obtain ⟨u, hu⟩ := ihb he.2.1 (by have := he.2.2.2; omega) hw
    exact ⟨u, by simp [flat, getLast?_cons, hu]⟩

theorem head_flat {e : Formula} (he : e.Grouped) :
    ∃ v : Scalar, e.flat.head? = some (.val v.value) := by
  induction e with
  | lit v => exact ⟨v, rfl⟩
  | unary u e ih => exact he.elim
  | binary op a b iha ihb =>
    obtain ⟨v, hv⟩ := iha he.1
    exact ⟨v, by simp [flat, hv]⟩

/-- In a formula that denotes something every minus sign stands behind a number. -/
theorem steady_flat {e : Formula} (he : e.Grouped) {u : Scalar} (h : e.denote = some u) :
    Steady e.flat := by
  induction e generalizing u with
  | lit v => exact .singleton _
  | unary u e ih => exact he.elim
  | binary op a b iha ihb =>
    obtain ⟨v, hv, h⟩ := Option.bind_eq_some_iff.1 h
    obtain ⟨w, hw, h⟩ := Option.bind_eq_some_iff.1 h
    refine List.isChain_append.2 ⟨iha he.1 hv, ?_, ?_⟩
    · refine List.isChain_cons.2 ⟨fun t ht hminus => ?_, ihb he.2.1 hw⟩
      obtain ⟨x, hx⟩ := head_flat he.2.1
      rw [hx] at ht
      subst hminus
      cases ht
    · rintro t ht _ ⟨⟩ hminus
      obtain rfl : op = .minus := Binary.symbol_injective (sym.inj hminus)
      obtain ⟨x, y, rfl, rfl⟩ := Binary.numbers_of_minus h
      obtain ⟨z, hz⟩ := getLast_flat_of_num he.1 he.2.2.1 hv
      rw [hz] at ht
      cases ht
      rfl

end Formula

namespace Row

/-- A row with one more scalar at its end. -/
def snoc (r : Row) (o : Option Binary) (w : Scalar) : Row :=
  ⟨r.first, r.rest ++ [(o, w)]⟩

theorem tokens_snoc (r : Row) (o : Option Binary) (w : Scalar) :
    (r.snoc o w).tokens = r.tokens ++ (between o ++ [val w.value]) := by
  simp [snoc, tokens, tail]

theorem gaps_snoc (r : Row) (o : Option Binary) (w : Scalar) :
    (r.snoc o w).gaps = r.gaps + if o.isNone then 1 else 0 := by
  cases o <;> simp [snoc, gaps]

theorem getLast_tokens (r : Row) : ∃ u : Scalar, r.tokens.getLast? = some (.val u.value) := by
  obtain ⟨v, rest⟩ := r
  cases rest using reverseRecOn with
  | nil => exact ⟨v, rfl⟩
  | append_singleton rest p =>
    refine ⟨p.2, ?_⟩
    rw [show Row.mk v (rest ++ [p]) = (Row.mk v rest).snoc p.1 p.2 from rfl, tokens_snoc]
    simp

/-- What unary operators may leave of a row, before other tokens: the row itself, or one with more
gaps if a minus sign is misread. -/
def Leaves (r : Row) (after out : List Token) : Prop :=
  ∃ r', out = r'.tokens ++ after ∧ (r' = r ∨ r.gaps < r'.gaps ∧ ¬Steady r.tokens)

theorem not_steady_snoc {r : Row} (h : ¬Steady r.tokens) (o : Option Binary) (w : Scalar) :
    ¬Steady (r.snoc o w).tokens := by
  rw [tokens_snoc]
  exact fun hs => h hs.left_of_append

theorem Leaves.snoc {r : Row} {o : Option Binary} {after out : List Token}
    (h : r.Leaves (between o ++ .val w.value :: after) out) : (r.snoc o w).Leaves after out := by
  obtain ⟨r', rfl, h⟩ := h
  refine ⟨r'.snoc o w, by simp [tokens_snoc], ?_⟩
  rcases h with rfl | ⟨hgaps, hs⟩
  · exact .inl rfl
  · refine .inr ⟨?_, not_steady_snoc hs o w⟩
    rw [gaps_snoc, gaps_snoc]
    omega

theorem Leaves.misread {r : Row} {v : Scalar} {after out : List Token}
    (hs : ¬Steady (r.snoc (some op) v).tokens) (h : r.Leaves (.val w.value :: after) out) :
    (r.snoc (some op) v).Leaves after out := by
  obtain ⟨r', rfl, h⟩ := h
  refine ⟨r'.snoc none w, by simp [tokens_snoc, between], .inr ⟨?_, hs⟩⟩
  have hle : r.gaps ≤ r'.gaps := by
    rcases h with rfl | ⟨hgaps, _⟩
    · exact Nat.le_refl _
    · exact Nat.le_of_lt hgaps
  rw [gaps_snoc, gaps_snoc]
  simp only [Option.isNone_some, Option.isNone_none, if_true, Bool.false_eq_true, if_false]
  omega

end Row

namespace Operator

open Eval

variable {eval : Expr → Eval Value}

theorem unaryFrom_val (v : Value) (before after : List Token) :
    unaryFrom eval (.val v :: before) after = unaryFrom eval before (.val v :: after) := by
  rw [unaryFrom] <;> simp

/-- A binary operator behind a value is passed over, a minus sign only behind a number. -/
theorem unaryFrom_symbol {v : Value} {before : List Token} (after : List Token)
    (hv : before.head? = some (.val v)) (hop : op = .minus → minusIsUnary (some (.val v)) = false) :
    unaryFrom eval (.sym op.symbol :: before) after
      = unaryFrom eval before (.sym op.symbol :: after) := by
  cases op with
  | minus => rw [Binary.symbol, unaryFrom, hv, hop rfl]; rfl
  | plus => rw [Binary.symbol, unaryFrom, hv]; rfl
  | _ => rw [Binary.symbol, unaryFrom] <;> simp

/-- **The unary operators in a row.** -/
theorem yields_unaryFrom (heval : ∀ (v : Scalar) σ, eval [.val v.value] σ = .ok v.value σ)
    (v : Scalar) (rest : List (Option Binary × Scalar)) (after : List Token) :
    Yields (unaryFrom eval (Row.mk v rest).tokens.reverse after) ((Row.mk v rest).Leaves after)
      (¬Steady (Row.mk v rest).tokens) := by
  induction rest using reverseRecOn generalizing after with
  | nil =>
    rw [show (Row.mk v []).tokens.reverse = [.val v.value] from rfl, unaryFrom_val, unaryFrom]
    exact Yields.pure ⟨⟨v, []⟩, rfl, .inl rfl⟩
  | append_singleton rest p ih =>
    obtain ⟨o, w⟩ := p
    -- the row without its last scalar
    obtain ⟨r, hr⟩ : ∃ r, r = Row.mk v rest := ⟨_, rfl⟩
    rw [show Row.mk v (rest ++ [(o, w)]) = r.snoc o w by rw [hr]; rfl]
    rw [← hr] at ih
    have kept : Yields (unaryFrom eval r.tokens.reverse (Row.between o ++ .val w.value :: after))
        ((r.snoc o w).Leaves after) (¬Steady (r.snoc o w).tokens) :=
      (ih _).mono (fun _ h => h.snoc) fun h => Row.not_steady_snoc h o w
    rw [show (r.snoc o w).tokens.reverse
      = .val w.value ::
      ((Row.between o).reverse ++ r.tokens.reverse) by simp [Row.tokens_snoc], unaryFrom_val]
    cases o with
    | none => exact kept
    | some op =>
      obtain ⟨u, hu⟩ := r.getLast_tokens
      have hhead : r.tokens.reverse.head? = some (.val u.value) := by
        rw [head?_reverse, hu]
      show Yields (unaryFrom eval (.sym op.symbol :: r.tokens.reverse) (.val w.value :: after)) _ _
      by_cases hop : op = .minus → minusIsUnary (some (.val u.value)) = false
      · rw [unaryFrom_symbol _ hhead hop]
        exact kept
      · obtain ⟨rfl, hunary⟩ := Classical.not_imp.1 hop
        have hs : ¬Steady (r.snoc (some .minus) w).tokens := by
          rw [Row.tokens_snoc]
          exact fun hs => hunary ((List.isChain_append.1 hs).2.2 _ hu _ rfl rfl)
        rw [Binary.symbol, unaryFrom, hhead, if_pos (by simpa using hunary)]
        have hw : Yields (operand eval (.val w.value :: after)) (fun x => x = w.value) False :=
          fun σ => .inl ⟨_, heval w σ, rfl⟩
        refine Yields.bind hw ?_ False.elim
        rintro _ rfl
        cases w with
        | num x => exact (ih _).mono (fun _ h => h.misread (w := .num (-x)) hs) fun _ => hs
        | _ => exact Yields.raise hs

/-! ## Whole expressions without brackets -/

/-- Levels of operators leave the gaps of a row. -/
theorem yields_binaryFrom_gaps {symbols : List (List Symbol)} {r : Row}
    (hsym : ∀ i l, symbols[i]? = some l → IsLevel (n + i) l) :
    Yields (binaryFrom symbols r.tokens) (fun out => ∃ r', out = Row.tokens r' ∧ r'.gaps = r.gaps)
      True := by
  induction symbols generalizing n r with
  | nil => exact Yields.pure ⟨r, rfl, rfl⟩
  | cons l symbols ih =>
    have hl : IsLevel n l := hsym 0 l rfl
    have hstart : levelFrom l [] r.tokens = levelFrom l [.val r.first.value] (Row.tail r.rest) :=
      levelFrom_val ..
    rw [binaryFrom, hstart]
    refine Yields.bind (yields_levelFrom hl r.first r.rest []) ?_ fun _ => trivial
    rintro _ ⟨r', hr', rfl⟩
    have hgaps : r'.gaps = r.gaps := Row.gaps_reduce hr'
    split
    · exact Yields.pure ⟨r', rfl, hgaps⟩
    · refine (ih (n := n + 1) (r := r') fun i k hk => ?_).mono ?_ id
      · have hlevel := hsym (i + 1) k hk
        rwa [← Nat.add_assoc, Nat.add_right_comm] at hlevel
      · rintro _ ⟨r'', rfl, h⟩
        exact ⟨r'', rfl, h.trans hgaps⟩

theorem settle_val (v : Value) : settle eval [.val v] = pure (.val v) := by
  have hpass : pass eval [.val v] = pure [.val v] := rfl
  rw [settle, hpass, pure_bind, settleFrom.eq_def]

section

variable (heval : ∀ (v : Scalar) σ, eval [.val v.value] σ = .ok v.value σ)
include heval

theorem yields_pass_gaps {r : Row} (hr : 0 < r.gaps) :
    Yields (pass eval r.tokens) (fun out => ∃ r', out = Row.tokens r' ∧ 0 < r'.gaps) True := by
  refine Yields.bind (yields_unaryFrom heval r.first r.rest []) ?_ fun _ => trivial
  rintro _ ⟨r', rfl, h⟩
  have hle : r.gaps ≤ r'.gaps := by
    rcases h with rfl | ⟨hgaps, _⟩
    · exact Nat.le_refl _
    · exact Nat.le_of_lt hgaps
  rw [append_nil]
  refine (yields_binaryFrom_gaps (n := 0) fun i l h => ?_).mono ?_ id
  · rw [Nat.zero_add]
    exact isLevel_levels h
  · rintro _ ⟨r'', rfl, hgaps⟩
    exact ⟨r'', rfl, by omega⟩

/-- A row with gaps never comes to one value. -/
theorem yields_settleFrom_gaps {old : Nat} {r : Row} (hr : 0 < r.gaps) :
    Yields (settleFrom eval old r.tokens) (fun _ => False) True := by
  induction old using Nat.strongRecOn generalizing r with
  | ind old ih =>
    rw [settleFrom.eq_def]
    split
    · next t ht =>
        have hrest := Row.rest_eq_nil (r := r) (by rw [ht]; rfl)
        simp [Row.gaps, hrest] at hr
    · refine Yields.bind (yields_pass_gaps heval hr) ?_ id
      rintro _ ⟨r', rfl, hr'⟩
      split
      · next hlt => exact ih _ hlt hr'
      · exact Yields.raiseAt trivial

/-- **The operators of a chain.** The result is what its formula denotes. -/
theorem yields_settle (c : Chain Scalar) :
    Yields (settle eval c.tokens) (fun t => ∃ w, c.formula.denote = some w ∧ t = .val w.value)
      (c.formula.denote = none ∨ ¬c.Unchained) := by
  have hsteady (h : ¬Steady c.tokens) : c.formula.denote = none := by
    cases hd : c.formula.denote with
    | none => rfl
    | some w => exact absurd (c.flat_formula ▸ Formula.steady_flat c.grouped_formula hd) h
  have hsym (i : Nat) (l : List Symbol) (h : levels[i]? = some l) : IsLevel (0 + i) l := by
    rw [Nat.zero_add]
    exact isLevel_levels h
  -- one pass is enough, or it leaves a gap
  have hpass : Yields (pass eval c.tokens)
      (fun out => (∃ w, c.formula.denote = some w ∧ out = [.val w.value]) ∨
        c.formula.denote = none ∧ ∃ r, out = Row.tokens r ∧ 0 < r.gaps)
      (c.formula.denote = none ∨ ¬c.Unchained) := by
    rw [← c.tokens_row] at hsteady ⊢
    refine Yields.bind (yields_unaryFrom heval c.row.first c.row.rest []) ?_ fun h =>
      .inl (hsteady h)
    rintro _ ⟨r, rfl, h⟩
    rw [append_nil]
    rcases h with rfl | ⟨hgaps, hs⟩
    · exact (yields_binaryFrom rfl hsym c.denote_literals).mono (fun _ h => .inl h) id
    · have hnone := hsteady hs
      refine (yields_binaryFrom_gaps (r := r) hsym).mono ?_ fun _ => .inl hnone
      rintro _ ⟨r', rfl, h⟩
      exact .inr ⟨hnone, r', rfl, by omega⟩
  refine Yields.bind hpass ?_ id
  rintro out (⟨w, hw, rfl⟩ | ⟨hnone, r, rfl, hr⟩)
  · rw [settleFrom.eq_def]
    exact Yields.pure ⟨w, hw, rfl⟩
  · exact (yields_settleFrom_gaps heval hr).mono (fun _ h => h.elim) fun _ => .inl hnone

end

end Operator

/-! ## First steps of a computation -/

namespace Eval

variable {α β : Type} {σ τ : Store}

theorem get_bind (f : Store → Eval α) : (get >>= f) σ = f σ σ := rfl

theorem modify_bind (g : Store → Store) (f : PUnit → Eval α) :
    (modify g >>= f) σ = f ⟨⟩ (g σ) := rfl

theorem make_bind (g : Store → Nat × Store) (f : Nat → Eval α) :
    (make g >>= f) σ = f (g σ).1 (g σ).2 := rfl

theorem bind_of_ok {m : Eval β} {b : β} (h : m σ = .ok b τ) (f : β → Eval α) :
    (m >>= f) σ = f b τ := by
  simp only [bind, EStateM.bind, h]

theorem bind_of_error {m : Eval β} {e : Stop} (h : m σ = .error e τ) (f : β → Eval α) :
    (m >>= f) σ = .error e τ := by
  simp only [bind, EStateM.bind, h]

end Eval

/-! ## Constant expressions -/

/-- A token that stands for itself: a scalar, or a symbol that starts no literal. -/
inductive Token.Constant : Token → Prop where
  | scalar (v : Scalar) : Constant (.val v.value)
  | symbol {y : Symbol} : y ≠ .lbrace → y ≠ .rbrace → y ≠ .lbracket → Constant (.sym y)

/-- A token that does not depend on a scope: a scalar or a symbol. -/
inductive Token.Fixed : Token → Prop where
  | scalar (v : Scalar) : Fixed (.val v.value)
  | symbol (y : Symbol) : Fixed (.sym y)

theorem Token.Constant.fixed (h : t.Constant) : t.Fixed := by
  cases h with
  | scalar v => exact .scalar v
  | symbol => exact .symbol _

namespace Expression

theorem adoptAll_fixed (h : ∀ t ∈ ts, t.Fixed) (scope : Nat) (σ : Store) :
    adoptAll scope ts σ = σ := by
  induction ts with
  | nil => rfl
  | cons t ts ih =>
    obtain ⟨ht, hts⟩ := List.forall_mem_cons.1 h
    have hfirst : adoptAll scope (t :: ts) σ = adoptAll scope ts σ := by
      cases ht with
      | scalar v => cases v <;> rfl
      | symbol => rfl
    exact hfirst.trans (ih hts)

theorem substitute_fixed (h : ∀ t ∈ ts, t.Fixed) (value : String → Except Error Value)
    (depth : Int) :
    substitute value depth ts = (ts, none) := by
  induction ts generalizing depth with
  | nil => rfl
  | cons t ts ih =>
    obtain ⟨ht, hts⟩ := List.forall_mem_cons.1 h
    have hrest := ih hts
    cases ht with
    | scalar v => simp [substitute, hrest]
    | symbol y => cases y <;> simp [substitute, hrest]

theorem literalsFrom_constant {eval : Expr → Eval Value} (h : ∀ t ∈ ts, t.Constant)
    (done : List Token) :
    literalsFrom eval done 0 ts = pure (done.reverse ++ ts) := by
  induction ts generalizing done with
  | nil => simp [literalsFrom]
  | cons t ts ih =>
    obtain ⟨ht, hts⟩ := List.forall_mem_cons.1 h
    have hbrace : t.is .lbrace = false := by cases ht <;> simp_all [is]
    have hbracket : t.is .lbracket = false := by cases ht <;> simp_all [is]
    rw [literalsFrom, hbrace, hbracket]
    simp [ih hts]

theorem anyEndless_constant (h : ∀ t ∈ ts, t.Constant) (σ : Store) : σ.anyEndless ts = false := by
  rw [Store.anyEndless, any_eq_false]
  intro t ht
  cases h t ht with
  | scalar v => cases v <;> simp [Store.isEndless, Store.endlessWithin, Scalar.value]
  | symbol => simp

theorem resolve_fixed (h : ∀ t ∈ ts, t.Fixed) (scope : Nat) (σ : Store) :
    resolve scope ts σ = .ok ts σ := by
  have hsub := substitute_fixed h ((adoptAll scope ts σ).lookup scope) 0
  rw [resolve, resolveWith, Eval.modify_bind, Eval.get_bind, hsub, adoptAll_fixed h]
  rfl

theorem applications_constant {eval : Expr → Eval Value} {call : Nat → List Value → Eval Value}
    (h : ∀ t ∈ ts, t.Constant) : applications eval call ts = applyFrom eval call [] 0 ts := by
  funext σ
  rw [applications, Eval.get_bind, anyEndless_constant h]
  rfl

open Eval in
/-- A constant expression is evaluated by its groups and operators. -/
theorem yields_evaluate {ctx : Context} {fuel scope : Nat} (hts : ∀ t ∈ ts, t.Constant)
    {D : Option Scalar} {Q : Prop}
    (h : Yields (applyFrom (evaluate ctx fuel scope) (call ctx fuel scope) [] 0 ts >>=
        Operator.settle (evaluate ctx fuel scope))
      (fun t => ∃ w, D = some w ∧ t = .val w.value) Q) :
    Yields (evaluate ctx (fuel + 1) scope ts) (fun v => ∃ w, D = some w ∧ v = w.value) Q := by
  have hresolve : Yields (resolve scope ts) (· = ts) False :=
    fun σ => .inl ⟨ts, resolve_fixed (fun t ht => (hts t ht).fixed) scope σ, rfl⟩
  rw [evaluate]
  refine Yields.bind hresolve ?_ False.elim
  rintro _ rfl
  rw [reduce, literals, literalsFrom_constant hts, reverse_nil, nil_append, pure_bind,
    applications_constant hts, ← bind_assoc]
  refine Yields.bind h ?_ id
  rintro _ ⟨w, hw, rfl⟩
  have hproper : w.value.isProper = true := by cases w <;> rfl
  simp only [hproper, if_true]
  exact Yields.pure ⟨w, hw, rfl⟩

/-- Without parentheses there is nothing to apply. -/
theorem applyFrom_constant {eval : Expr → Eval Value} {call : Nat → List Value → Eval Value}
    (h : ∀ t ∈ ts, t.Constant) (hparen : .sym .lparen ∉ ts) (done : List Token) :
    applyFrom eval call done 0 ts = pure (done.reverse ++ ts) := by
  induction ts generalizing done with
  | nil => simp [applyFrom]
  | cons t ts ih =>
    obtain ⟨ht, hts⟩ := List.forall_mem_cons.1 h
    obtain ⟨hne, hparen⟩ := not_or.1 (mt List.mem_cons.2 hparen)
    have hbracket : t.is .lbracket = false := by cases ht <;> simp_all [is]
    have hlparen : t.is .lparen = false := by
      cases ht with
      | scalar v => rfl
      | symbol => simpa [is] using fun h => hne (by rw [h])
    rw [applyFrom.eq_def]
    simp [hbracket, hlparen, ih hts hparen]

/-- A scalar alone is its own value. -/
theorem evaluate_scalar (ctx : Context) (fuel scope : Nat) (v : Scalar) (σ : Store) :
    evaluate ctx (fuel + 1) scope [.val v.value] σ = .ok v.value σ := by
  have hts : ∀ t ∈ [val v.value], t.Constant := by simpa using .scalar v
  have hv : Eval.Yields (evaluate ctx (fuel + 1) scope [.val v.value])
      (fun u => ∃ w, some v = some w ∧ u = w.value) False := by
    refine yields_evaluate hts ?_
    rw [applyFrom_constant hts (by simp), pure_bind, reverse_nil, nil_append, Operator.settle_val]
    exact Eval.Yields.pure ⟨v, rfl, rfl⟩
  rcases hv σ with ⟨_, hok, w, hw, rfl⟩ | ⟨_, hfalse⟩
  · cases hw
    exact hok
  · exact hfalse.elim

end Expression

theorem Chain.constant_of_mem_tokens {c : Chain Scalar} (h : t ∈ c.tokens) :
    t.Constant ∧ t ≠ .sym .lparen := by
  have hop (op : Binary) : (Token.sym op.symbol).Constant ∧ Token.sym op.symbol ≠ .sym .lparen := by
    cases op <;> exact ⟨.symbol (by decide) (by decide) (by decide), by simp [Binary.symbol]⟩
  simp only [tokens, spread, singleton_append, mem_cons, mem_flatMap, not_mem_nil, or_false] at h
  rcases h with rfl | ⟨p, _, rfl | rfl⟩
  · exact ⟨.scalar _, by simp⟩
  · exact hop p.1
  · exact ⟨.scalar _, by simp⟩

open Eval in
/-- A chain is evaluated to what its formula denotes. -/
theorem Chain.yields_evaluate (c : Chain Scalar) (ctx : Context) (fuel scope : Nat) :
    Yields (evaluate ctx (fuel + 2) scope c.tokens)
      (fun v => ∃ w, c.formula.denote = some w ∧ v = w.value)
      (c.formula.denote = none ∨ ¬c.Unchained) := by
  have hts (t : Token) (ht : t ∈ c.tokens) : t.Constant := (constant_of_mem_tokens ht).1
  refine Expression.yields_evaluate hts ?_
  rw [Expression.applyFrom_constant hts fun h => (constant_of_mem_tokens h).2 rfl, pure_bind]
  exact Operator.yields_settle (Expression.evaluate_scalar ctx fuel scope) c

/-- **A chain of operators means the formula that precedence makes of it.** That formula is the only
one over the tokens of the chain that needs no parentheses. Whatever value the chain is evaluated
to, the formula denotes; and what the formula denotes, the chain is evaluated to unless comparisons
are chained. -/
theorem chain_means_formula (c : Chain Scalar) :
    (∀ e : Formula, e = c.formula ↔ e.Grouped ∧ e.flat = c.tokens) ∧
    ∀ (ctx : Context) (fuel scope : Nat) (σ : Store),
    (∀ v σ', evaluate ctx fuel scope c.tokens σ = .ok v σ' →
        ∃ w, c.formula.denote = some w ∧ v = w.value) ∧
        (∀ w, c.formula.denote = some w → c.Unchained → 1 < fuel →
        evaluate ctx fuel scope c.tokens σ = .ok w.value σ) := by
  refine ⟨c.eq_formula_iff, fun ctx fuel scope σ => ⟨fun v σ' h => ?_, fun w hw hc hfuel => ?_⟩⟩
  · have hmore := Budget.evaluate_mono (Nat.le_add_right fuel 2) h
    rcases c.yields_evaluate ctx fuel scope σ with ⟨v', hok, hv'⟩ | ⟨⟨f, hf⟩, _⟩
    · rw [hok] at hmore
      cases hmore
      exact hv'
    · rw [hf] at hmore
      cases hmore
  · obtain ⟨n, rfl⟩ : ∃ n, fuel = n + 2 := ⟨fuel - 2, by omega⟩
    rcases c.yields_evaluate ctx n scope σ with ⟨_, hok, w', hw', rfl⟩ | ⟨_, hnone | hchain⟩
    · rw [hw] at hw'
      cases hw'
      exact hok
    · rw [hw] at hnone
      cases hnone
    · exact absurd hc hchain

/-- `8 - 2 - 3 * 4 / 6 === 4 && "a" + "b" < "b" || null` is true. -/
theorem chain_means_formula_mixed :
    let c : Chain Scalar := ⟨.num 8, [(.minus, .num 2), (.minus, .num 3), (.times, .num 4),
      (.divide, .num 6), (.same, .num 4), (.both, .str "a"), (.plus, .str "b"), (.lt, .str "b"),
      (.either, .null)]⟩
    c.formula.denote = some (.bool true) ∧ c.Unchained ∧
      evaluate ⟨none, false, 0⟩ 2 0 c.tokens .empty = .ok (.bool true) .empty := by
  refine ⟨by decide +kernel, by decide, ?_⟩
  exact ((chain_means_formula _).2 _ 2 _ _).2 (.bool true) (by decide +kernel)
    (by decide) (by decide)

end LittleJ
