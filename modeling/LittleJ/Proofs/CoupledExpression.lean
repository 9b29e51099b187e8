import LittleJ.Proofs.Hosting

/-!
# Expressions side by side

Under a coupling that hosts a scope, the steps of evaluating an expression are coupled: operators,
literals, refinements, calls and groups. The evaluators of inner expressions need to be coupled only
on lists shorter than the whole, because no step ever gives them a longer one; that is why each step
also says how many tokens it leaves.
-/

namespace LittleJ

open Expression List

theorem Expression.length_substitute (value : String → Except Error Value) (depth : Int)
    (ts : List Token) : (substitute value depth ts).1.length = ts.length := by
  fun_induction substitute value depth ts with
  | case1 => rfl
  | case2 depth ts r ih => exact congrArg (· + 1) ih
  | case3 depth ts r ih => exact congrArg (· + 1) ih
  | case4 depth ts s h v r hv ih => exact congrArg (· + 1) ih
  | case5 => rfl
  | case6 depth ts s h r ih => exact congrArg (· + 1) ih
  | case7 depth t ts r _ _ _ ih => exact congrArg (· + 1) ih

namespace Coupling.Hosts

variable {c : Coupling} {scope : Nat} {admits : Function → Prop} (hc : c.Hosts scope admits)

/-! ## Operators -/

section

theorem identical (a b : Token) : c.Together (Operator.identical a b) (Operator.identical a b) := by
  unfold Operator.identical
  split
  · split
    · exact Coupled.pure trivial
    · exact Coupled.breakdown
  · exact Coupled.breakdown
  · exact Coupled.breakdown
  · exact Coupled.breakdown
  · exact Coupled.breakdown
  · exact Coupled.pure trivial

theorem leftTruth (t : Token) : c.Together (Operator.leftTruth t) (Operator.leftTruth t) := by
  unfold Operator.leftTruth
  split
  · exact Coupled.truth
  · exact Coupled.breakdown

theorem checkChaining (op : Symbol) (next : Option Token) :
    c.Together (Operator.checkChaining op next) (Operator.checkChaining op next) := by
  unfold Operator.checkChaining
  split
  · exact Coupled.pure trivial
  · split
    · exact Coupled.pure trivial
    · exact Coupled.ite (fun _ => Coupled.raise) fun _ => Coupled.pure trivial

theorem toNumber (v : Value) : c.Together (Operator.toNumber v) (Operator.toNumber v) := by
  unfold Operator.toNumber
  split
  · exact Coupled.pure trivial
  · split
    · exact Coupled.pure trivial
    · exact Coupled.raise
  · exact Coupled.raise

include hc

theorem combine (op : Symbol) (a b : Token) (whole : List Token) :
    c.Together (Operator.combine op a b whole) (Operator.combine op a b whole) := by
  unfold Operator.combine
  split
  · exact Together.bind (identical a b) fun _ => Coupled.pure trivial
  · exact Together.bind (identical a b) fun _ => Coupled.pure trivial
  · exact Together.bind (leftTruth a) fun _ => Coupled.pure trivial
  · exact Together.bind (leftTruth a) fun _ => Coupled.pure trivial
  · split
    · split
      · exact Coupled.pure trivial
      · exact hc.raiseAt
    · split
      · exact Together.bind Coupled.ofFault fun _ => Coupled.pure trivial
      · exact hc.raiseAt
    · exact hc.raiseAt

theorem levelFrom (level : List Symbol) (done ts : List Token) :
    c.Coupled (fun out => out.length ≤ done.length + ts.length)
      (Operator.levelFrom level done ts) (Operator.levelFrom level done ts) := by
  fun_induction Operator.levelFrom level done ts with
  | case1 done => exact Coupled.pure (by simp)
  | case2 done t ts h ih =>
    refine ih.mono fun out hout => ?_
    simp only [length_cons] at hout ⊢
    omega
  | case3 t op h a before b rest ih =>
    refine Together.bind (checkChaining _ _) fun _ => ?_
    refine Together.bind (hc.combine _ _ _ _) fun x => ?_
    refine (ih x).mono fun out hout => ?_
    simp only [length_cons] at hout ⊢
    omega
  | case4 => exact Coupled.raise

theorem binaryFrom (levels : List (List Symbol)) (ts : List Token) :
    c.Coupled (fun out => out.length ≤ ts.length)
      (Operator.binaryFrom levels ts) (Operator.binaryFrom levels ts) := by
  induction levels generalizing ts with
  | nil => exact Coupled.pure (Nat.le_refl _)
  | cons level rest ih =>
    unfold Operator.binaryFrom
    refine Coupled.bind (hc.levelFrom level [] ts) fun out hout => ?_
    have hle : out.length ≤ ts.length := by simpa using hout
    refine Coupled.ite (fun _ => Coupled.pure hle) fun _ => ?_
    exact (ih out).mono fun _ h => Nat.le_trans h hle

end

/-! ## Steps that evaluate inner expressions -/

variable {eval₁ eval₂ : Expr → Eval Value} {n : Nat}
  (heval : ∀ e : Expr, e.length < n → c.Together (eval₁ e) (eval₂ e))

include heval in
/-- The operand of a unary operator is one token of a list of at least two. -/
theorem operand (ts : List Token) (hn : ts.length < n) :
    c.Together (Operator.operand eval₁ ts) (Operator.operand eval₂ ts) := by
  unfold Operator.operand
  cases ts with
  | nil => exact Coupled.breakdown
  | cons t rest =>
    refine heval _ ?_
    simp only [length_cons, length_nil] at hn ⊢
    omega

include heval in
theorem unaryFrom (before after : List Token) (hn : before.length + after.length ≤ n) :
    c.Coupled (fun out => out.length ≤ before.length + after.length)
      (Operator.unaryFrom eval₁ before after) (Operator.unaryFrom eval₂ before after) := by
  induction before generalizing after with
  | nil =>
    unfold Operator.unaryFrom
    exact Coupled.pure (by simp)
  | cons t before ih =>
    simp only [length_cons] at hn
    -- whatever replaces the operator and its operand, the list does not grow
    have replaced :
        ∀ v : Value, c.Coupled (fun out => out.length ≤ (t :: before).length + after.length)
          (Operator.unaryFrom eval₁ before (.val v :: after.tail))
          (Operator.unaryFrom eval₂ before (.val v :: after.tail)) := by
      intro v
      have hlen : (Token.val v :: after.tail).length ≤ after.length + 1 := by simp
      refine (ih (.val v :: after.tail) (by omega)).mono fun out hout => ?_
      simp only [length_cons] at hout hlen ⊢
      omega
    have kept : c.Coupled (fun out => out.length ≤ (t :: before).length + after.length)
          (Operator.unaryFrom eval₁ before (t :: after))
          (Operator.unaryFrom eval₂ before (t :: after)) := by
      refine (ih (t :: after) (by simp only [length_cons]; omega)).mono fun out hout => ?_
      simp only [length_cons] at hout ⊢
      omega
    have hop := operand heval after (by omega)
    unfold Operator.unaryFrom
    split
    · refine Together.bind hop fun v => ?_
      exact Together.bind Coupled.truth fun b => replaced _
    · refine Coupled.ite (fun _ => ?_) fun _ => kept
      refine Together.bind hop fun v => ?_
      cases v with
      | num x => exact replaced _
      | _ => exact Coupled.raise
    · refine Coupled.ite (fun _ => ?_) fun _ => kept
      refine Together.bind hop fun v => ?_
      exact Together.bind (toNumber v) fun x => replaced _
    · exact kept

include hc heval in
theorem pass (ts : List Token) (hn : ts.length ≤ n) : c.Coupled (fun out => out.length ≤ ts.length)
      (Operator.pass eval₁ ts) (Operator.pass eval₂ ts) := by
  unfold Operator.pass Operator.unary Operator.binary
  refine Coupled.bind (unaryFrom heval ts.reverse [] (by simpa using hn)) fun out hout => ?_
  have hle : out.length ≤ ts.length := by simpa using hout
  exact (hc.binaryFrom _ out).mono fun _ h => Nat.le_trans h hle

include hc heval in
theorem settleFrom (old : Nat) (ts : List Token) (hn : ts.length ≤ n) :
    c.Together (Operator.settleFrom eval₁ old ts) (Operator.settleFrom eval₂ old ts) := by
  induction old using Nat.strongRecOn generalizing ts with
  | ind old ih =>
    rw [Operator.settleFrom.eq_def eval₁, Operator.settleFrom.eq_def eval₂]
    split
    · exact Coupled.pure trivial
    · refine Coupled.bind (hc.pass heval ts hn) fun next hnext => ?_
      refine Coupled.ite (fun hlt => ?_) fun _ => hc.raiseAt
      exact ih next.length hlt next (Nat.le_trans hnext hn)

include hc heval in
theorem settle (ts : List Token) (hn : ts.length ≤ n) :
    c.Together (Operator.settle eval₁ ts) (Operator.settle eval₂ ts) := by
  unfold Operator.settle
  refine Coupled.bind (hc.pass heval ts hn) fun out hout => ?_
  exact hc.settleFrom heval _ out (Nat.le_trans hout hn)

/-! ## Names -/

section
include hc

theorem adoptAll {σ₁ σ₂ : Store} (ts : List Token) (hrel : c.rel σ₁ σ₂) :
    c.rel (Expression.adoptAll scope ts σ₁) (Expression.adoptAll scope ts σ₂) := by
  unfold Expression.adoptAll
  induction ts generalizing σ₁ σ₂ with
  | nil => exact hrel
  | cons t ts ih =>
    simp only [foldl_cons]
    apply ih
    split
    · exact hc.adopt _ hrel
    · exact hrel

/-- Replacing names, with `keep` told the tokens as they are then. -/
theorem resolveWith {keep : Expr → Eval Unit} (hkeep : ∀ ts, c.Together (keep ts) (keep ts))
    (ts : Expr) : c.Coupled (fun out => out.length = ts.length)
      (Expression.resolveWith keep scope ts) (Expression.resolveWith keep scope ts) := by
  unfold Expression.resolveWith
  refine Together.bind (Coupled.modify fun _ _ h => hc.adoptAll ts h) fun _ => ?_
  refine Coupled.read fun σ₁ σ₂ hrel => ?_
  rw [(hc.agree hrel).lookup]
  have hlen := length_substitute (σ₂.lookup scope) 0 ts
  revert hlen
  generalize substitute (σ₂.lookup scope) 0 ts = r
  obtain ⟨out, e⟩ := r
  intro hlen
  refine Together.bind (hkeep out) (fun _ => ?_) _ _ hrel
  cases e with
  | none => exact Coupled.pure hlen
  | some e => exact Coupled.raise

theorem resolve (ts : Expr) : c.Coupled (fun out => out.length = ts.length)
      (Expression.resolve scope ts) (Expression.resolve scope ts) :=
  hc.resolveWith (fun _ => Coupled.pure trivial) ts

end

/-! ## Literals -/

include heval in
theorem elements (parts : List (List Token)) (hn : ∀ part ∈ parts, part.length < n) :
    c.Together (Expression.elements eval₁ parts) (Expression.elements eval₂ parts) := by
  induction parts with
  | nil => exact Coupled.pure trivial
  | cons part parts ih =>
    rw [Expression.elements, Expression.elements]
    refine Coupled.check fun _ => ?_
    refine Together.bind (heval part (hn part (by simp))) fun v => ?_
    refine Together.bind (ih fun q hq => hn q (by simp [hq])) fun vs => ?_
    exact Coupled.pure trivial

include hc heval in
theorem arrayValues (t : Token) (ts : List Token) (hn : (t :: ts).length ≤ n) :
    c.Together (Expression.arrayValues eval₁ (t :: ts))
    (Expression.arrayValues eval₂ (t :: ts)) := by
  unfold Expression.arrayValues
  refine Coupled.bind (hc.partner (t :: ts)) fun k _ => ?_
  refine Coupled.bind (hc.commaParts _) fun parts hparts => ?_
  refine Together.bind (elements heval parts fun q hq => ?_) fun vs => Coupled.pure trivial
  have h1 := hparts q hq
  have h2 := Eval.length_inside_lt k t ts
  omega

include hc heval in
theorem entries (whole : List Token) (parts : List (List Token)) (table : Table Value)
    (hn : ∀ part ∈ parts, part.length < n) : c.Together (Expression.entries eval₁ whole parts table)
      (Expression.entries eval₂ whole parts table) := by
  induction parts generalizing table with
  | nil => exact Coupled.pure trivial
  | cons part parts ih =>
    rw [entries.eq_def eval₁, entries.eq_def eval₂]
    dsimp only
    split
    · rename_i key t ts
      have hlen := hn _ mem_cons_self
      split
      · refine Together.bind (heval (t :: ts) ?_) fun v => ?_
        · simp only [length_cons] at hlen ⊢
          omega
        · exact ih _ fun q hq => hn q (mem_cons_of_mem _ hq)
      · exact hc.raiseAt
    · exact hc.raiseAt

include hc heval in
theorem literalsFrom (done : List Token) (skip : Nat) (ts : List Token) (hn : ts.length ≤ n) :
    c.Coupled (fun out => out.length ≤ done.length + ts.length)
      (Expression.literalsFrom eval₁ done skip ts)
      (Expression.literalsFrom eval₂ done skip ts) := by
  induction ts generalizing done skip with
  | nil =>
    rw [Expression.literalsFrom, Expression.literalsFrom]
    exact Coupled.pure (by simp)
  | cons t ts ih =>
    have hts : ts.length ≤ n := by simp only [length_cons] at hn; omega
    -- a literal gives way to one value, so the list does not grow
    have replaced : ∀ v k, c.Coupled (fun out => out.length ≤ done.length + (t :: ts).length)
        (Expression.literalsFrom eval₁ (v :: done) k ts)
        (Expression.literalsFrom eval₂ (v :: done) k ts) := by
      intro v k
      refine (ih (v :: done) k hts).mono fun out hout => ?_
      simp only [length_cons] at hout ⊢
      omega
    cases skip with
    | succ skip =>
      rw [Expression.literalsFrom, Expression.literalsFrom]
      refine (ih done skip hts).mono fun out hout => ?_
      simp only [length_cons] at hout ⊢
      omega
    | zero =>
      rw [Expression.literalsFrom, Expression.literalsFrom]
      refine Coupled.ite (fun _ => ?_) fun _ => Coupled.ite (fun _ => ?_) fun _ => replaced _ _
      · refine Coupled.bind (hc.partner (t :: ts)) fun k _ => ?_
        refine Coupled.bind (hc.commaParts _) fun parts hparts => ?_
        refine Together.bind (hc.entries heval _ parts [] fun q hq => ?_) fun table => ?_
        · have h1 := hparts q hq
          have h2 := Eval.length_inside_lt k t ts
          omega
        · exact Together.bind (hc.newObject table) fun r => replaced _ _
      · refine Together.bind (hc.arrayValues heval t ts hn) fun p => ?_
        exact Together.bind (hc.newArray _) fun r => replaced _ _

/-! ## Refinements, calls and groups -/

theorem position (what : String) (length : Nat) (key : Value) :
    c.Together (Expression.position what length key) (Expression.position what length key) := by
  unfold Expression.position
  split
  · refine Coupled.ite (fun _ => Coupled.breakdown) fun _ => ?_
    split
    · exact Coupled.breakdown
    · exact Coupled.ite (fun _ => Coupled.pure trivial) fun _ => Coupled.raise
  · exact Coupled.breakdown

include hc in
theorem refine (base key : Value) :
    c.Together (Expression.refine base key) (Expression.refine base key) := by
  unfold Expression.refine
  refine Coupled.read fun σ₁ σ₂ hrel => ?_
  have ha := hc.agree hrel
  simp only [ha.array, ha.object]
  refine (?_ : c.Together _ _) _ _ hrel
  split
  · split
    · split
      · exact Coupled.pure trivial
      · exact Coupled.raise
    · exact Coupled.raise
  · exact Together.bind (position _ _ _) fun _ => Coupled.pure trivial
  · exact Together.bind (position _ _ _) fun _ => Coupled.pure trivial
  · exact Coupled.breakdown

variable {call₁ call₂ : Nat → List Value → Eval Value}
  (hcall : ∀ r args, c.Together (call₁ r args) (call₂ r args))

include hc hcall in
theorem apply (f : Value) (args : List Value) :
    c.Together (Expression.apply call₁ f args) (Expression.apply call₂ f args) := by
  unfold Expression.apply
  split
  · exact hcall _ _
  · exact hc.nativeCall _ _
  · exact Coupled.breakdown

include hc heval hcall in
theorem applyFrom (done : List Token) (skip : Nat) (ts : List Token) (hn : ts.length ≤ n) :
    c.Coupled (fun out => out.length ≤ done.length + ts.length)
      (Expression.applyFrom eval₁ call₁ done skip ts)
      (Expression.applyFrom eval₂ call₂ done skip ts) := by
  induction ts generalizing done skip with
  | nil =>
    rw [Expression.applyFrom, Expression.applyFrom]
    exact Coupled.pure (by simp)
  | cons t ts ih =>
    have hts : ts.length ≤ n := by simp only [length_cons] at hn; omega
    -- every step leaves at most one token more behind it than it passes over
    have left : ∀ before k, before.length ≤ done.length + 1 →
        c.Coupled (fun out => out.length ≤ done.length + (t :: ts).length)
          (Expression.applyFrom eval₁ call₁ before k ts)
          (Expression.applyFrom eval₂ call₂ before k ts) := by
      intro before k hle
      refine (ih before k hts).mono fun out hout => ?_
      simp only [length_cons] at hout ⊢
      omega
    have inner :
        ∀ k, c.Together (eval₁ (Eval.inside k (t :: ts))) (eval₂ (Eval.inside k (t :: ts))) :=
      fun k => heval _ (Nat.lt_of_lt_of_le (Eval.length_inside_lt k t ts) hn)
    cases skip with
    | succ skip =>
      rw [Expression.applyFrom, Expression.applyFrom]
      exact left done skip (by omega)
    | zero =>
      rw [applyFrom.eq_def eval₁, applyFrom.eq_def eval₂]
      dsimp only
      refine Coupled.ite (fun _ => ?_) fun _ => Coupled.ite (fun _ => ?_) fun _ =>
        left _ _ (by simp)
      · split
        · -- a refinement: the base and the brackets give way to one value
          refine Coupled.ensure fun _ => Coupled.bind (hc.partner (t :: ts)) fun k _ => ?_
          refine Coupled.check fun _ => Together.bind (inner k) fun key => ?_
          exact Together.bind (hc.refine _ _) fun v => left _ _ (by simp)
        · exact Coupled.breakdown
      · split
        · rename_i f before
          refine Coupled.bind (hc.partner (t :: ts)) fun k hk => ?_
          refine Coupled.ite (fun _ => ?_) fun _ => ?_
          · -- a call: the arguments are read as an array no longer than the parentheses
            have hargs :
                (Token.sym .lbracket :: (Eval.inside k (t :: ts) ++ [Token.sym .rbracket])).length ≤
                n := by
              simp only [Eval.inside, length_cons, length_append, length_drop, length_take,
                length_nil] at hk hn ⊢
              omega
            refine Together.bind (hc.arrayValues heval _ _ hargs) fun args => ?_
            exact Together.bind (hc.apply hcall f args.1) fun v => left _ _ (by simp)
          · exact Together.bind (inner k) fun v => left _ _ (by simp)
        · refine Coupled.bind (hc.partner (t :: ts)) fun k _ => ?_
          exact Together.bind (inner k) fun v => left _ _ (by simp)

include hc heval hcall in
theorem applications (ts : List Token) (hn : ts.length ≤ n) :
    c.Coupled (fun out => out.length ≤ ts.length)
      (Expression.applications eval₁ call₁ ts) (Expression.applications eval₂ call₂ ts) := by
  unfold Expression.applications
  refine Coupled.read fun σ₁ σ₂ hrel => ?_
  rw [(hc.agree hrel).anyEndless]
  refine Coupled.ensure (fun _ => ?_) _ _ hrel
  simpa using hc.applyFrom heval hcall [] 0 ts hn

include hc heval hcall in
/-- The value of an expression whose names are replaced. -/
theorem reduce (ts : Expr) (hn : ts.length ≤ n) :
    c.Together (Expression.reduce eval₁ call₁ ts) (Expression.reduce eval₂ call₂ ts) := by
  unfold Expression.reduce literals
  refine Coupled.bind (hc.literalsFrom heval [] 0 ts hn) fun us hus => ?_
  have hus' : us.length ≤ n := Nat.le_trans (by simpa using hus) hn
  refine Coupled.bind (hc.applications heval hcall us hus') fun ws hws => ?_
  refine Together.bind (hc.settle heval ws (Nat.le_trans hws hus')) fun t => ?_
  split
  · exact Coupled.ite (fun _ => Coupled.pure trivial) fun _ => Coupled.raise
  · exact Coupled.raise

end Coupling.Hosts

end LittleJ
