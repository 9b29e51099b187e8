import LittleJ.Proofs.Execution

/-!
# What a call passes on

In `f(x)` the name `x` gives way to its value before the parentheses of the call are matched, and
brackets are matched by text. A value is therefore looked at once more, as a token, before it
reaches the function. This module says what becomes of it.

**The function is called once, with the value and nothing else, unless the value is a string with
the text of a bracket or an array that contains itself.** An opening bracket lacks a partner, and
the call is never made. A closing parenthesis or square bracket ends the argument list before it, so
the function is called with no argument at all. A closing brace does no harm: no brace is matched on
the way.
-/

namespace LittleJ

open Token Eval LittleJ.Bracket

/-! ## Values between parentheses -/

/-- What becomes of a value that stands alone between the parentheses of a call. -/
inductive Passage
  /-- The function is called with the value. -/
  | whole
  /-- The value is taken for the end of the argument list: the function is called with nothing. -/
  | cut
  /-- A bracket lacks its partner. These are the tokens from that bracket on. -/
  | unclosed (rest : List Token)
  /-- The value contains itself. -/
  | endless

/-- The tokens behind the function of a call whose names have been replaced. -/
def Expression.callTokens (v : Value) : List Token :=
  [.sym .lparen, .val v, .sym .rparen]

/-- The same tokens as the array literal that argument lists are read as. -/
def Expression.listTokens (v : Value) : List Token :=
  [.sym .lbracket, .val v, .sym .rbracket]

namespace Store

open Expression

/-- A string is judged by its text; of the other values only an array can be stopped. -/
def passage (σ : Store) (v : Value) : Passage :=
  match v with
  | .str "(" => .unclosed (callTokens v)
  | .str "[" => .unclosed (listTokens v)
  | .str "\x7b" => .unclosed [.val v]
  | .str ")" | .str "]" => .cut
  | v => if σ.isEndless v then .endless else .whole

/-- Whether a value is a function with `n` parameters, of the language or native. -/
def Takes (σ : Store) (n : Nat) : Value → Prop
  | .fn r => (σ.closure r).function.params.length = n
  | .native k => k.arity = n
  | _ => False

variable {σ : Store}

theorem Takes.isCallable {n : Nat} {g : Value} (h : σ.Takes n g) : g.isCallable = true := by
  cases g with
  | fn r => rfl
  | native k => rfl
  | _ => exact h.elim

/-- What a value is, by what becomes of it. -/
theorem passage_cases (σ : Store) (v : Value) : (σ.passage v = .endless ∧ σ.isEndless v = true) ∨
    (σ.passage v = .whole ∧ σ.isEndless v = false ∧
      ∀ s ∈ ["(", "[", "\x7b", ")", "]"], (val v).reads s = false) ∨
    (σ.passage v = .cut ∧ (v = .str ")" ∨ v = .str "]")) ∨ ∃ rest, σ.passage v = .unclosed rest ∧
      (v = .str "(" ∧ rest = callTokens v ∨ v = .str "[" ∧ rest = listTokens v ∨
        v = .str "\x7b" ∧ rest = [.val v]) := by
  unfold passage
  split
  · simp
  · simp
  · simp
  · simp
  · simp
  next _ hround hsquare hbrace hround' hsquare' =>
    cases hendless : σ.isEndless v with
    | true => simp
    | false =>
      refine .inr (.inl ⟨by simp, rfl, ?_⟩)
      intro s hs
      cases v with
      | str text =>
        simp only [reads, beq_eq_false_iff_ne]
        intro heq
        subst heq
        simp only [List.mem_cons, List.not_mem_nil, or_false] at hs
        rcases hs with rfl | rfl | rfl | rfl | rfl
        · exact hround rfl
        · exact hsquare rfl
        · exact hbrace rfl
        · exact hround' rfl
        · exact hsquare' rfl
      | _ => rfl

theorem arrays_adoptAll (scope : Nat) (ts : List Token) (σ : Store) :
    (adoptAll scope ts σ).arrays = σ.arrays := by
  induction ts generalizing σ with
  | nil => rfl
  | cons t ts ih =>
    refine (ih _).trans ?_
    dsimp only
    split <;> rfl

/-- What an array contains does not depend on where functions were made. -/
theorem isEndless_adoptAll (scope : Nat) (ts : List Token) (σ : Store) (v : Value) :
    (adoptAll scope ts σ).isEndless v = σ.isEndless v := by
  have hwithin (n : Nat) (v : Value) :
      (adoptAll scope ts σ).endlessWithin n v = σ.endlessWithin n v := by
    induction n generalizing v with
    | zero => rfl
    | succ n ih =>
      cases v with
      | arr r => simp only [endlessWithin, array, arrays_adoptAll, ih]
      | _ => rfl
  rw [isEndless, isEndless, arrays_adoptAll, hwithin]

end Store

/-! ## The arguments of a call -/

theorem Token.reads_sym (y : Symbol) (s : String) : (sym y).reads s = (y.text == s) :=
  rfl

theorem Eval.raiseAt_bind {α β : Type} (e : String → Error) (ts : List Token) (f : α → Eval β) :
    (raiseAt e ts : Eval α) >>= f = raiseAt e ts := by
  funext σ
  rw [raiseAt, bind_assoc, get_bind, raiseAt, get_bind]
  cases σ.excerpt ts <;> rfl

namespace Expression

variable {eval : Expr → Eval Value} {call : Nat → List Value → Eval Value}
    {σ τ : Store} {g v : Value}

/-- A value alone is itself, and learns its scope if it is a function without one. -/
theorem evaluate_value (ctx : Context) (fuel scope : Nat) (hproper : v.isProper = true)
    (hendless : σ.isEndless v = false) :
    evaluate ctx (fuel + 1) scope [.val v] σ = .ok v (adoptAll scope [.val v] σ) := by
  have hresolve : resolve scope [.val v] σ = .ok [.val v] (adoptAll scope [.val v] σ) :=
    @resolve_eq_map scope σ (fun _ => .null) [.val v] (by simp [is]) (by simp)
  rw [evaluate, bind_of_ok hresolve]
  refine reduce_operand (ready_plain v) (by simp [Operand.Made.tokens, is]) ?_ rfl hproper
  simp [Store.anyEndless, Operand.Made.tokens, Store.isEndless_adoptAll, hendless]

/-- The arguments of a call, which are read as an array literal, and the position of the parenthesis
behind them. -/
def argumentsOf (eval : Expr → Eval Value) (ts : List Token) : Eval (List Value × Nat) := do
  let k ← partner ts
  let (args, _) ← arrayValues eval (.sym .lbracket :: inside k ts ++ [.sym .rbracket])
  return (args, k)

theorem argumentsOf_eq (h : partner (callTokens v) = pure 2) :
    argumentsOf eval (callTokens v) = arrayValues eval (listTokens v) >>= fun p =>
    pure (p.1, 2) := by
  rw [argumentsOf, h, pure_bind]
  rfl

theorem arrayValues_eq (h : partner (listTokens v) = pure 2) : arrayValues eval (listTokens v) =
      commaParts [.val v] >>= fun parts => elements eval parts >>= fun vs => pure (vs, 2) := by
  rw [arrayValues, h, pure_bind]
  rfl

/-- A value that reads like no bracket is the one argument. -/
theorem argumentsOf_whole (heval : eval [.val v] σ = .ok v τ)
    (hreads : ∀ s ∈ ["(", "[", "\x7b", ")", "]"], (val v).reads s = false) :
    argumentsOf eval (callTokens v) σ = .ok ([v], 2) τ := by
  have hround : partner (callTokens v) = pure 2 := by
    have hopen : (val v).reads "(" = false := hreads _ (by simp)
    have hclose : (val v).reads ")" = false := hreads _ (by simp)
    simp [partner, partner?, balanceFrom, closerOf?, callTokens, text?, reads_sym, Symbol.text,
      hopen, hclose]
  have hsquare : partner (listTokens v) = pure 2 := by
    have hopen : (val v).reads "[" = false := hreads _ (by simp)
    have hclose : (val v).reads "]" = false := hreads _ (by simp)
    simp [partner, partner?, balanceFrom, closerOf?, listTokens, text?, reads_sym, Symbol.text,
      hopen, hclose]
  have hparts : commaParts [.val v] = pure [[.val v]] := by
    have hopens : opens (.val v) = false := by simp [opens, hreads]
    simp [commaParts, TopLevel.split, TopLevel.splitFrom, hopens, is]
  rw [argumentsOf_eq hround, arrayValues_eq hsquare, hparts, pure_bind, bind_assoc,
    bind_of_ok (elements_single (List.cons_ne_nil _ _) heval)]
  rfl

/-- A closing bracket ends the list that it should be in. -/
theorem argumentsOf_cut (h : v = .str ")" ∨ v = .str "]") :
    ∃ k, argumentsOf eval (callTokens v) σ = .ok ([], k) σ := by
  rcases h with rfl | rfl
  · exact ⟨1, rfl⟩
  · exact ⟨2, rfl⟩

/-- An opening bracket has no partner, in the call or in the list. -/
theorem argumentsOf_unclosed {rest : List Token}
    (h : v = .str "(" ∧ rest = callTokens v ∨ v = .str "[" ∧ rest = listTokens v ∨
      v = .str "\x7b" ∧ rest = [.val v]) :
      argumentsOf eval (callTokens v) = raiseAt .unclosed rest := by
  rcases h with ⟨rfl, rfl⟩ | ⟨rfl, rfl⟩ | ⟨rfl, rfl⟩
  · exact raiseAt_bind ..
  · have hlist :
      arrayValues eval (listTokens (.str "[")) = raiseAt .unclosed (listTokens (.str "[")) :=
      raiseAt_bind ..
    rw [argumentsOf_eq rfl, hlist, raiseAt_bind]
  · have hparts : commaParts [.val (.str "\x7b")] = raiseAt .unclosed [.val (.str "\x7b")] := rfl
    rw [argumentsOf_eq rfl, arrayValues_eq rfl, hparts, raiseAt_bind, raiseAt_bind]

/-- A function is applied to its arguments, and what it gives takes the place of the call. -/
theorem applyFrom_call (hg : g.isCallable = true) (before ts : List Token) :
    applyFrom eval call (.val g :: before) 0 (.sym .lparen :: ts) =
      argumentsOf eval (.sym .lparen :: ts) >>= fun p => apply call g p.1 >>= fun w =>
        applyFrom eval call (.val w :: before) p.2 ts := by
  rw [applyFrom.eq_def]
  dsimp only
  rw [if_neg (by decide), if_pos (by decide)]
  simp only [argumentsOf, hg, if_true, bind_assoc, pure_bind]

end Expression

/-- The error of a function that is called with nothing although it takes something. -/
def Value.noArgument : Value → Error
  | .native _ => .nativeArgumentCount
  | _ => .argumentCount ""

/-- A function that takes an argument and is given none is not run. -/
theorem Expression.apply_nothing (ctx : Context) (fuel scope : Nat) {σ : Store} {g : Value}
    (hg : σ.Takes 1 g) :
    apply (call ctx (fuel + 1) scope) g [] σ = .error (.failure (.error g.noArgument)) σ := by
  cases g with
  | fn r =>
    rw [apply, call, get_bind, hg]
    rfl
  | native k =>
    rw [apply, Native.call, hg]
    rfl
  | _ => exact hg.elim

/-! ## The call -/

section

variable (ctx : Context) (fuel scope : Nat) {σ : Store} {f x : String} {g v : Value}

/-- What a call of `g` with `v` between the parentheses comes to. -/
def Passage.outcome (g v : Value) : Passage → Eval Value
  | .whole => do
    modify (Expression.adoptAll scope [.val v])
    let w ← Expression.apply (call ctx fuel scope) g [v]
    if w.isProper then return w else Eval.raise .noValue
  | .cut => Eval.raise g.noArgument
  | .unclosed rest => Eval.raiseAt .unclosed rest
  | .endless => Eval.breakdown .endless

/-- The call after its names have been replaced. Arrays that contain themselves are caught first. -/
theorem evaluate_call_eq (hf : σ.lookup scope f = .ok g) (hg : g.isCallable = true)
    (hx : σ.lookup scope x = .ok v) :
    evaluate ctx (fuel + 1) scope [.name f, .sym .lparen, .name x, .sym .rparen] σ =
      ((if σ.isEndless v then Eval.breakdown .endless
        else Expression.applyFrom (evaluate ctx fuel scope) (call ctx fuel scope) [.val g] 0
          (Expression.callTokens v)) >>= fun ts => do
        match ← Operator.settle (evaluate ctx fuel scope) ts with
        | .val w => if w.isProper then return w else Eval.raise .noValue
        | _ => Eval.raise .noValue) σ := by
  let value (s : String) : Value := if s = f then g else v
  have hvalue : ∀ s, .name s ∈ [Token.name f, .sym .lparen, .name x, .sym .rparen] →
      σ.lookup scope s = .ok (value s) := by
    intro s hs
    by_cases hsf : s = f
    · simp [value, hsf, hf]
    · have hsx : s = x := by simpa [hsf] using hs
      simp only [value, hsf, if_false]
      rw [hsx, hx]
  have hmap : [Token.name f, .sym .lparen, .name x, .sym .rparen].map (Token.named value) =
      .val g :: Expression.callTokens v := by
    have hvx : value x = v := by
      have h := hvalue x (by simp)
      rw [hx] at h
      exact (Except.ok.inj h).symm
    simp [Token.named, Expression.callTokens, hvx, value]
  have hresolve : Expression.resolve scope [.name f, .sym .lparen, .name x, .sym .rparen] σ =
      .ok (.val g :: Expression.callTokens v) σ := by
    rw [Expression.resolve_eq_map (by simp [Token.is]) hvalue, hmap]
    rfl
  have hendless : σ.anyEndless (.val g :: Expression.callTokens v) = σ.isEndless v := by
    have hfunction : σ.isEndless g = false := by
      cases g with
      | arr r => cases hg
      | _ => rfl
    simp [Store.anyEndless, Expression.callTokens, hfunction]
  rw [evaluate, Eval.bind_of_ok hresolve, Expression.reduce,
    Expression.literals_of_none (by simp [Expression.callTokens, Token.is]), pure_bind,
    Expression.applications, bind_assoc, Eval.get_bind, hendless]
  cases σ.isEndless v
  · rw [Expression.applyFrom_val]
    rfl
  · rfl

/-- **A call with a name for its argument passes on the value of the name**, unless the value is
taken for a bracket or contains itself. -/
theorem evaluate_call_argument (hf : σ.lookup scope f = .ok g) (hg : σ.Takes 1 g)
    (hx : σ.lookup scope x = .ok v) (hproper : v.isProper = true) :
    evaluate ctx (fuel + 2) scope [.name f, .sym .lparen, .name x, .sym .rparen] σ =
      (σ.passage v).outcome ctx (fuel + 1) scope g v σ := by
  have hcall :
      Expression.applyFrom (evaluate ctx (fuel + 1) scope) (call ctx (fuel + 1) scope) [.val g] 0
      (Expression.callTokens v) =
        Expression.argumentsOf (evaluate ctx (fuel + 1) scope) (Expression.callTokens v) >>= _ :=
    Expression.applyFrom_call hg.isCallable [] [.val v, .sym .rparen]
  rw [evaluate_call_eq ctx (fuel + 1) scope hf hg.isCallable hx, hcall]
  rcases σ.passage_cases v with ⟨hpassage, hendless⟩ | ⟨hpassage, hendless, hreads⟩ |
    ⟨hpassage, hcut⟩ | ⟨rest, hpassage, hunclosed⟩
  · rw [hpassage, hendless]
    rfl
  · have hargs := Expression.argumentsOf_whole
      (Expression.evaluate_value ctx fuel scope hproper hendless) hreads
    rw [hpassage, hendless, if_neg Bool.false_ne_true, bind_assoc,
      Eval.bind_of_ok hargs, bind_assoc, Passage.outcome, Eval.modify_bind]
    refine congrFun (Eval.bind_congr_of_ok fun ρ w τ _ => ?_) _
    -- the skipped tokens are the value and the parenthesis, so the result of the call stands alone
    show (Operator.settle _ [.val w] >>= _) τ = _
    rw [Operator.settle_val, pure_bind]
  · obtain ⟨k, hargs⟩ := @Expression.argumentsOf_cut (evaluate ctx (fuel + 1) scope) σ v hcut
    have hendless : σ.isEndless v = false := by rcases hcut with rfl | rfl <;> rfl
    rw [hpassage, hendless, if_neg Bool.false_ne_true, bind_assoc,
      Eval.bind_of_ok hargs, bind_assoc,
      Eval.bind_of_error (Expression.apply_nothing ctx fuel scope hg)]
    rfl
  · have hendless : σ.isEndless v = false := by
      rcases hunclosed with ⟨rfl, _⟩ | ⟨rfl, _⟩ | ⟨rfl, _⟩ <;> rfl
    rw [hpassage, hendless, if_neg Bool.false_ne_true, Expression.argumentsOf_unclosed hunclosed,
      Eval.raiseAt_bind, Eval.raiseAt_bind]
    rfl

end

/-- The identity as `f` and a closing brace as `x`. -/
def lendingStore : Store :=
  { Store.empty with
    closures := #[⟨.mk ["a"] [.ret [.name "a"]] [], some 0⟩]
    scopes := #[⟨[("f", .fn 0), ("x", .str "\x7d")], none, 0, none⟩] }

theorem evaluate_call_argument_brace :
    lendingStore.lookup 0 "f" = .ok (.fn 0) ∧ lendingStore.Takes 1 (.fn 0) ∧
      lendingStore.lookup 0 "x" = .ok (.str "\x7d") ∧
      evaluate ⟨none, false, 0⟩ 7 0 [.name "f", .sym .lparen, .name "x", .sym .rparen]
      lendingStore =
        (lendingStore.passage (.str "\x7d")).outcome ⟨none, false, 0⟩ 6 0 (.fn 0)
        (.str "\x7d") lendingStore :=
  ⟨rfl, rfl, rfl, evaluate_call_argument _ 5 0 rfl rfl rfl rfl⟩

/-- A program that calls the identity with an opening parenthesis. -/
def lostArgumentText : String :=
  "var f = function (a) \x7b return a; \x7d, x = chr(40), y = f(x); print(y);"

/-- The parenthesis does not reach the function: it is taken for a bracket that is not closed. -/
theorem parenthesis_not_passed :
    outputOf ⟨10, 5⟩ lostArgumentText = "SyntaxError: unbalanced bracket ... ( \"(\" )\n" := by
  decide +kernel

end LittleJ
