import LittleJ.Proofs.Jumps
import LittleJ.Proofs.LexicalScoping
import LittleJ.Proofs.Passes

/-!
# Running a program step by step

What each kind of expression and statement comes to, given what its parts come to. An expression is
taken as operands with operators between them: its names are read, its calls are made from left to
right, and its operators do what its formula says. A statement then does what it does with the
value. With these rules a program is run by hand, in a store of which only a part is known.
-/

namespace LittleJ

open LittleJ.Bracket LittleJ.Parser Table List Eval Operand Operator Token Expression
  Store Statement

/-! ## The store -/

theorem modify_push {α : Type} (xs : Array α) (x : α) (f : α → α) :
    (xs.push x).modify xs.size f = xs.push (f x) := by
  refine Array.ext (by simp) fun i hi _ => ?_
  rw [Array.getElem_modify, Array.getElem_push, Array.getElem_push]
  by_cases h : i < xs.size
  · rw [if_neg (by omega), dif_pos h, dif_pos h]
  · rw [dif_neg h, dif_neg h, if_pos (by simp at hi; omega)]

/-! ## Variables -/

namespace Store

variable {σ : Store} {r p : Nat} {name : String} {v : Value}

theorem owner_own (h : (σ.scope r).vars.get? name = some v) : σ.owner r name = .ok r := by
  simp [owner, ownerFrom, has, h]

theorem lookup_of_owner (howner : σ.owner r name = .ok p)
    (h : (σ.scope p).vars.get? name = some v) :
    σ.lookup r name = .ok v := by
  simp [lookup, howner, h, bind, Except.bind, pure, Except.pure]

theorem lookup_own (h : (σ.scope r).vars.get? name = some v) : σ.lookup r name = .ok v :=
  lookup_of_owner (owner_own h) h

end Store

/-! ## Expressions -/

namespace Expression

variable {eval : Expr → Eval Value} {call : Nat → List Value → Eval Value}

/-- Without braces and square brackets there are no literals. -/
theorem literals_of_none {ts : List Token}
    (h : ∀ t ∈ ts, t.is .lbrace = false ∧ t.is .lbracket = false) :
    literals eval ts = pure ts := by
  have hfrom (done : List Token) : literalsFrom eval done 0 ts = pure (done.reverse ++ ts) := by
    induction ts generalizing done with
    | nil => simp [literalsFrom]
    | cons t ts ih =>
      obtain ⟨⟨hbrace, hbracket⟩, hts⟩ := List.forall_mem_cons.1 h
      rw [literalsFrom, hbrace, hbracket]
      simp [ih hts]
  exact hfrom []

theorem adoptAll_of_none {ts : List Token} (h : ∀ r, .val (.fn r) ∉ ts) (scope : Nat) (σ : Store) :
    adoptAll scope ts σ = σ := by
  induction ts with
  | nil => rfl
  | cons t ts ih =>
    have hts := ih fun r hr => h r (mem_cons_of_mem _ hr)
    refine Eq.trans ?_ hts
    unfold adoptAll
    rw [foldl_cons]
    split
    · exact absurd mem_cons_self (h _)
    · rfl

section

variable {c : Chain Made} (hready : c.Forall Made.Ready)
    (hplain : ∀ t ∈ c.spread Made.tokens, t.is .lbrace = false ∧ t.is .lbracket = false)
    {σ τ : Store} (hendless : σ.anyEndless (c.spread Made.tokens) = false)

include hready hplain hendless

/-- The operands are worked out from left to right, and then the operators. -/
theorem reduce_results {d : Chain Value} (hresults : c.mapM (Made.result eval call) σ = .ok d τ) :
    reduce eval call (c.spread Made.tokens) σ =
      (settle eval (d.spread fun v => [.val v]) >>= fun t =>
        match t with
        | .val v => if v.isProper then pure v else raise .noValue
        | _ => raise .noValue) τ := by
  have happly : applications eval call (c.spread Made.tokens) σ =
      .ok (d.spread fun v => [.val v]) τ := by
    rw [applications, get_bind, hendless]
    show applyFrom eval call [] 0 (c.spread Made.tokens) σ = _
    rw [applyFrom_spread hready, bind_of_ok hresults]
    rfl
  rw [reduce, literals_of_none hplain, pure_bind]
  exact bind_of_ok happly _

end

/-- An operand alone is what it comes to. -/
theorem reduce_operand {m : Made} (hready : m.Ready)
    (hplain : ∀ t ∈ m.tokens, t.is .lbrace = false ∧ t.is .lbracket = false) {σ τ : Store}
    (hendless : σ.anyEndless m.tokens = false) {v : Value}
    (hresult : m.result eval call σ = .ok v τ) (hproper : v.isProper = true) :
    reduce eval call m.tokens σ = .ok v τ := by
  have hspread : (Chain.mk m []).spread Made.tokens = m.tokens := by simp [Chain.spread]
  have hresults : (Chain.mk m []).mapM (Made.result eval call) σ = .ok ⟨v, []⟩ τ := by
    rw [Chain.mapM, bind_of_ok hresult]
    rfl
  rw [← hspread] at hplain hendless
  rw [← hspread, reduce_results ⟨hready, by simp⟩ hplain hendless hresults]
  show (settle eval [.val v] >>= _) τ = _
  rw [settle_val, pure_bind]
  dsimp only
  rw [hproper]
  rfl

end Expression

section

variable {ctx : Context} {fuel scope : Nat} {σ ρ τ : Store} {v : Value}

section

variable (value : String → Value) {ts : Expr}
    (hbrace : ∀ t ∈ ts, t.is .lbrace = false ∧ t.is .rbrace = false) (hfn : ∀ r, .val (.fn r) ∉ ts)
    (hvalue : ∀ s, .name s ∈ ts → σ.lookup scope s = .ok (value s))

include hbrace hfn hvalue

/-- An expression comes to what its tokens come to with the values of its names. -/
theorem evaluate_of_reduce
    (h : reduce (evaluate ctx fuel scope) (call ctx fuel scope) (ts.map (Token.named value)) σ =
      .ok v τ) :
    evaluate ctx (fuel + 1) scope ts σ = .ok v τ := by
  rw [evaluate, bind_of_ok (resolve_eq_map hbrace hvalue), adoptAll_of_none hfn]
  exact h

/-- An expression of names, scalars and operators comes to what its formula denotes. -/
theorem evaluate_formula {c : Chain Scalar} (hc : ts.map (Token.named value) = c.tokens)
    {w : Scalar} (hw : c.formula.denote = some w) (hd : c.Unchained) :
    evaluate ctx (fuel + 2) scope ts σ = .ok w.value σ := by
  refine evaluate_of_reduce value hbrace hfn hvalue ?_
  have hfixed (t : Token) (ht : t ∈ c.tokens) : t.Fixed := (Chain.constant_of_mem_tokens ht).1.fixed
  have htokens : evaluate ctx (fuel + 2) scope c.tokens σ = .ok w.value σ := by
    rcases c.yields_evaluate ctx fuel scope σ with ⟨_, hok, w', hw', rfl⟩ | ⟨_, hnone | hchained⟩
    · rw [hw] at hw'
      cases hw'
      exact hok
    · rw [hw] at hnone
      cases hnone
    · exact absurd hd hchained
  rwa [evaluate, bind_of_ok (resolve_fixed hfixed scope σ), ← hc] at htokens

end

/-- A value that is no call can be an operand. -/
theorem ready_plain (v : Value) : (Made.mk v none).Ready := by
  intro args h
  cases h

/-- A name alone comes to its value. -/
theorem evaluate_name {name : String} (h : σ.lookup scope name = .ok v)
    (hproper : v.isProper = true) (hendless : σ.isEndless v = false) :
    evaluate ctx (fuel + 1) scope [.name name] σ = .ok v σ := by
  refine evaluate_of_reduce (fun _ => v) (by simp [is]) (by simp) (by simpa using h) ?_
  exact reduce_operand (ready_plain v) (by simp [Made.tokens, is])
    (by simp [anyEndless, Made.tokens, hendless]) rfl hproper

/-- One argument. -/
theorem elements_single {eval : Expr → Eval Value} {part : Expr} (hne : part ≠ [])
    (h : eval part σ = .ok v τ) :
    elements eval [part] σ = .ok [v] τ := by
  have hempty : part.isEmpty = false := by simpa using hne
  rw [elements, hempty]
  show (eval part >>= _) σ = _
  rw [bind_of_ok h]
  rfl

/-! ## Statements -/

/-- Without function literals nothing is made. -/
theorem Statement.load_of_none {e : Expr} (h : ∀ f, .func f ∉ e) (σ : Store) :
    load e σ = .ok e σ := by
  induction e with
  | nil => rfl
  | cons t ts ih =>
    have hts := ih fun f hf => h f (mem_cons_of_mem _ hf)
    cases t with
    | func f => exact absurd mem_cons_self (h f)
    | _ =>
      rw [load]
      · exact bind_of_ok hts _
      · simp

variable {e e' : Expr} {name : String}

theorem exec_init_ok (hload : load e σ = .ok e' ρ) (hv : evaluate ctx fuel scope e' ρ = .ok v τ)
    (hnew : (τ.scope scope).vars.get? name = none) :
    exec ctx (fuel + 1) scope (.init name e) σ = .ok () (τ.putVar scope name v) := by
  have hcheck : τ.checkNew scope name = .ok () := by simp [checkNew, has, hnew]
  rw [exec]
  refine (bind_of_ok ((bind_of_ok hload _).trans hv) _).trans ?_
  rw [initialise, get_bind, hcheck]
  rfl

theorem exec_assign_ok (he : ∀ f, .func f ∉ e) (hv : evaluate ctx (fuel + 1) scope e σ = .ok v τ)
    {owner : Nat} (howner : τ.owner scope name = .ok owner) :
    exec ctx (fuel + 1) scope (.assign [.name name] e) σ = .ok () (τ.putVar owner name v) := by
  rw [evaluate] at hv
  obtain ⟨source, ρ, hsource, hv⟩ := Eval.bind_eq_ok.1 hv
  have htarget : load [.name name] τ = .ok [.name name] τ := rfl
  rw [exec, bind_of_ok (load_of_none he σ), bind_of_ok hsource, bind_of_ok hv, bind_of_ok htarget]
  show assignName scope name v τ = _
  rw [assignName, get_bind, howner]
  rfl

theorem exec_assign_error (he : ∀ f, .func f ∉ e) {stop : Stop}
    (hv : evaluate ctx (fuel + 1) scope e σ = .error stop τ) (target : Expr) :
    exec ctx (fuel + 1) scope (.assign target e) σ = .error stop τ := by
  rw [evaluate] at hv
  rw [exec, bind_of_ok (load_of_none he σ)]
  cases hsource : resolve scope e σ with
  | ok source ρ =>
    rw [bind_of_ok hsource] at hv ⊢
    exact bind_of_error hv _
  | error stop' ρ =>
    rw [bind_of_error hsource] at hv ⊢
    cases hv
    rfl

theorem exec_ret_ok (hload : load e σ = .ok e' ρ) (hv : evaluate ctx fuel scope e' ρ = .ok v τ) :
    exec ctx (fuel + 1) scope (.ret e) σ = .error (.ret v) τ := by
  rw [exec]
  exact bind_of_ok ((bind_of_ok hload _).trans hv) _

theorem exec_ret_error (he : ∀ f, .func f ∉ e) {stop : Stop}
    (hv : evaluate ctx fuel scope e σ = .error stop τ) :
    exec ctx (fuel + 1) scope (.ret e) σ = .error stop τ := by
  rw [exec]
  exact bind_of_error ((bind_of_ok (load_of_none he σ) _).trans hv) _

/-- The first arm of a ladder whose condition holds is run. -/
theorem exec_ladder_true {code : Program} {arms : List (Expr × Program)} (he : ∀ f, .func f ∉ e)
    (hv : evaluate ctx fuel scope e σ = .ok (.bool true) ρ) {out : EStateM.Result Stop Store Unit}
    (hcode : runAll (exec ctx fuel scope) code ρ = out) :
    exec ctx (fuel + 1) scope (.ladder ((e, code) :: arms)) σ = out := by
  have hholds : (do truth (← (do evaluate ctx fuel scope (← load e)))) σ = .ok true ρ :=
    bind_of_ok ((bind_of_ok (load_of_none he σ) _).trans hv) _
  rw [exec, ladder, bind_of_ok hholds]
  exact hcode

/-- An arm whose condition does not hold is passed over. -/
theorem exec_ladder_false {code : Program} {arms : List (Expr × Program)} (he : ∀ f, .func f ∉ e)
    (hv : evaluate ctx fuel scope e σ = .ok (.bool false) ρ) {out : EStateM.Result Stop Store Unit}
    (harms : exec ctx (fuel + 1) scope (.ladder arms) ρ = out) :
    exec ctx (fuel + 1) scope (.ladder ((e, code) :: arms)) σ = out := by
  have hholds : (do truth (← (do evaluate ctx fuel scope (← load e)))) σ = .ok false ρ :=
    bind_of_ok ((bind_of_ok (load_of_none he σ) _).trans hv) _
  rw [exec] at harms
  rw [exec, ladder, bind_of_ok hholds]
  exact harms

theorem exec_ladder_nil : exec ctx (fuel + 1) scope (.ladder []) σ = .ok () σ := by
  rw [exec]
  rfl

/-- An expression as a statement is evaluated. In an inner scope its value is not written. -/
theorem exec_exp_ok (he : ∀ f, .func f ∉ e) (hv : evaluate ctx fuel scope e σ = .ok v τ)
    (hinner : (τ.scope scope).isGlobal = false) :
    exec ctx (fuel + 1) scope (.exp e) σ = .ok () τ := by
  rw [exec]
  refine (bind_of_ok ((bind_of_ok (load_of_none he σ) _).trans hv) _).trans ?_
  rw [echo, get_bind, hinner, Bool.and_false]
  rfl

theorem exec_exp_error (he : ∀ f, .func f ∉ e) {stop : Stop}
    (hv : evaluate ctx fuel scope e σ = .error stop τ) :
    exec ctx (fuel + 1) scope (.exp e) σ = .error stop τ := by
  rw [exec]
  exact bind_of_error ((bind_of_ok (load_of_none he σ) _).trans hv) _

theorem runAll_cons_ok {exec : Stmt → Eval Unit} {s : Stmt} {rest : Program}
    (h : exec s σ = .ok () τ) :
    runAll exec (s :: rest) σ = runAll exec rest τ := by
  rw [runAll, bind_of_ok h]

theorem runAll_singleton {exec : Stmt → Eval Unit} {s : Stmt} (h : exec s σ = .ok () τ) :
    runAll exec [s] σ = .ok () τ :=
  runAll_cons_ok h

theorem runAll_cons_error {exec : Stmt → Eval Unit} {s : Stmt} {rest : Program} {stop : Stop}
    (h : exec s σ = .error stop τ) : runAll exec (s :: rest) σ = .error stop τ := by
  rw [runAll, bind_of_error h]

theorem runAll_append_ok {exec : Stmt → Eval Unit} {p rest : Program}
    (h : runAll exec p σ = .ok () τ) :
    runAll exec (p ++ rest) σ = runAll exec rest τ := by
  induction p generalizing σ with
  | nil =>
    obtain ⟨_, rfl⟩ := EStateM.Result.ok.inj h
    rfl
  | cons s p ih =>
    obtain ⟨_, ρ, hs, hp⟩ := Eval.bind_eq_ok.1 h
    exact (runAll_cons_ok hs).trans (ih hp)

/-! ## Calls -/

theorem Store.setDepth_newScope (σ : Store) (s : Scope) (depth : Int) :
    (σ.newScope s).2.setDepth σ.scopes.size depth = (σ.newScope { s with depth }).2 := by
  rw [setDepth, modifyScope, newScope, newScope]
  dsimp only
  rw [modify_push]

end

end LittleJ
