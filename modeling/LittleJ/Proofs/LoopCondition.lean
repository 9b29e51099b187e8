import LittleJ.Proofs.CallsInProgress

/-!
# The condition of a loop

A loop makes the functions of its condition once, and evaluates the same tokens in every round. It
could as well evaluate a copy of them, a new one in each round. Then a function of the condition is
another one in each round, and a program may tell by asking whether two functions are identical.

In a condition without functions there is nothing to copy. The conditions of *flat* code are such,
in the bodies of its functions too, and a run of flat code takes no other course if conditions are
copied.
-/

namespace LittleJ

open Kept Layer

/-! ## Copies -/

namespace Kept

variable {t : Token} {ts : List Token}

theorem copyAllTokens_cons (ht : isShared t = true) (depth : Nat) (ts : List Token) :
    copyAllTokens (depth + 1) (t :: ts) = do return t :: (← copyAllTokens (depth + 1) ts) := by
  cases t with
  | val v =>
    have hcopy : copyValue (depth + 1) v = pure v := by
      cases v with
      | arr r => cases ht
      | fn r => cases ht
      | _ => rfl
    rw [copyAllTokens, hcopy, pure_bind]
  | name s => rfl
  | sym y => rfl
  | func f => cases ht
  | row us => cases ht

theorem copyAllTokens_shared (h : ∀ t ∈ ts, isShared t = true) (depth : Nat) :
    copyAllTokens (depth + 1) ts = pure ts := by
  induction ts with
  | nil => rfl
  | cons t ts ih =>
    obtain ⟨ht, hts⟩ := List.forall_mem_cons.1 h
    rw [copyAllTokens_cons ht, ih hts, pure_bind]

theorem copyTokens_shared (h : ∀ t ∈ ts, isShared t = true) : copyTokens ts = pure ts := by
  funext σ
  change copyAllTokens (σ.arrays.size + 2) ts σ = _
  rw [copyAllTokens_shared h]

/-- The copy of a function is another function. -/
theorem isShared_of_copyAllTokens {σ τ : Store} {depth : Nat}
    (hts : ∀ t ∈ ts, isShared t = true ∨ ∃ r < σ.closures.size, t = .val (.fn r))
    (hcopy : copyAllTokens (depth + 1) ts σ = .ok ts τ) : ∀ t ∈ ts, isShared t = true := by
  induction ts generalizing τ with
  | nil => simp
  | cons t ts ih =>
    obtain ⟨ht, hts⟩ := List.forall_mem_cons.1 hts
    rcases ht with hshared | ⟨r, hr, rfl⟩
    · rw [copyAllTokens_cons hshared] at hcopy
      obtain ⟨rest, ρ, hrest, hout⟩ := Eval.bind_eq_ok.1 hcopy
      cases hout
      exact List.forall_mem_cons.2 ⟨hshared, ih hts hrest⟩
    · obtain ⟨v, ρ, hv, hmore⟩ := Eval.bind_eq_ok.1 hcopy
      obtain ⟨rest, ρ', -, hout⟩ := Eval.bind_eq_ok.1 hmore
      cases hv
      cases hout
      exact absurd hr (Nat.lt_irrefl _)

end Kept

theorem Statement.load_shared {ts : List Token} (h : ∀ t ∈ ts, isShared t = true) :
    load ts = pure ts := by
  induction ts with
  | nil => rfl
  | cons t ts ih =>
    obtain ⟨ht, hts⟩ := List.forall_mem_cons.1 h
    cases t with
    | func f => cases ht
    | name s => rw [load, ih hts] <;> simp
    | sym y => rw [load, ih hts] <;> simp
    | val v => rw [load, ih hts] <;> simp
    | row us => cases ht

/-! ## Loops that take their condition anew -/

namespace Layer

/-- The layer above another one, but that a loop takes its condition anew in each round. -/
def aboveTaking (take : Expr → Eval Expr) (ctx : Context) (l : Layer) : Layer where
  evaluate := (l.above ctx).evaluate
  call := (l.above ctx).call
  exec scope s :=
    match s with
    | .loop condition code => do
      let condition ← Statement.load condition
      Statement.loop ctx.loopLimit ctx.rounds
        (do Eval.truth (← l.evaluate scope (← take condition)))
        (runAll (l.exec scope) code)
    | s => (l.above ctx).exec scope s

/-- Running with a budget, where all loops take their conditions anew in each round. -/
def taking (take : Expr → Eval Expr) (ctx : Context) : Nat → Layer
  | 0 => spent
  | fuel + 1 => (taking take ctx fuel).aboveTaking take ctx

variable {ctx : Context} {l : Layer} {take : Expr → Eval Expr}

theorem aboveTaking_exec {s : Stmt} (hs : ∀ condition code, s ≠ .loop condition code)
    (scope : Nat) : (l.aboveTaking take ctx).exec scope s = (l.above ctx).exec scope s := by
  cases s with
  | loop condition code => exact absurd rfl (hs condition code)
  | _ => rfl

/-- A loop that takes its condition as it is runs as ever. -/
theorem aboveTaking_pure (ctx : Context) (l : Layer) : l.aboveTaking pure ctx = l.above ctx := by
  unfold aboveTaking
  congr 1
  funext scope s
  cases s <;> rfl

theorem taking_pure (ctx : Context) (fuel : Nat) : taking pure ctx fuel = within ctx fuel := by
  induction fuel with
  | zero => rw [within_zero, taking]
  | succ fuel ih => rw [within_succ, taking, ih, aboveTaking_pure]

end Layer

/-- Runs a program in a scope, but that every loop in it, and in the functions it calls, evaluates a
copy of its condition in each round. -/
def runCopying (ctx : Context) (fuel scope : Nat) (p : Program) : Eval Unit :=
  runAll ((taking copyTokens ctx fuel).exec scope) p

/-! ## Flat code -/

mutual

/-- Whether the code that a token carries is flat. -/
def Token.isFlat : Token → Bool
  | .func f => Function.isFlat f
  | _ => true

/-- Whether the body of a function is flat. -/
def Function.isFlat : Function → Bool
  | .mk _ body _ => Stmt.allFlat body

/-- Whether the code in tokens is flat. -/
def Token.allFlat : List Token → Bool
  | [] => true
  | t :: ts => Token.isFlat t && Token.allFlat ts

/-- Whether no condition of a loop in a statement holds a function. -/
def Stmt.isFlat : Stmt → Bool
  | .init _ e => Token.allFlat e
  | .assign target e => Token.allFlat target && Token.allFlat e
  | .ladder arms => Stmt.armsFlat arms
  | .loop condition code => condition.all isShared && Stmt.allFlat code
  | .ret e => Token.allFlat e
  | .brk => true
  | .exp e => Token.allFlat e

/-- Whether statements are flat. -/
def Stmt.allFlat : List Stmt → Bool
  | [] => true
  | s :: ss => Stmt.isFlat s && Stmt.allFlat ss

/-- Whether the arms of a ladder are flat. -/
def Stmt.armsFlat : List (List Token × List Stmt) → Bool
  | [] => true
  | (e, code) :: arms => (Token.allFlat e && Stmt.allFlat code) && Stmt.armsFlat arms

end

theorem Stmt.allFlat_iff {p : Program} : Stmt.allFlat p = true ↔ ∀ s ∈ p, s.isFlat = true := by
  induction p with
  | nil => simp [Stmt.allFlat]
  | cons s p ih => simp [Stmt.allFlat, ih]

theorem Token.allFlat_iff {ts : List Token} : Token.allFlat ts = true ↔ ∀ f, .func f ∈ ts →
    f.isFlat = true := by
  induction ts with
  | nil => simp [Token.allFlat]
  | cons t ts ih =>
    rw [Token.allFlat, Bool.and_eq_true, ih]
    cases t with
    | func f => simp [Token.isFlat]
    | _ => simp [Token.isFlat]

theorem Stmt.armsFlat_iff {arms : List (List Token × List Stmt)} : Stmt.armsFlat arms = true ↔
    ∀ arm ∈ arms, Token.allFlat arm.1 = true ∧ Stmt.allFlat arm.2 = true := by
  induction arms with
  | nil => simp [Stmt.armsFlat]
  | cons arm arms ih => simp [Stmt.armsFlat, ih]

theorem Function.allFlat_body {f : Function} (hf : f.isFlat = true) :
    Stmt.allFlat f.body = true := by
  cases f with
  | mk params body source => rwa [Function.isFlat] at hf

/-- The functions in the expressions of a flat statement are flat, and so are its blocks. -/
theorem Stmt.flat_parts {s : Stmt} (hs : s.isFlat = true) :
    (∀ e ∈ s.exprs, ∀ f, .func f ∈ e → f.isFlat = true) ∧
    ∀ b ∈ s.blocks, Stmt.allFlat b = true := by
  cases s with
  | ladder arms =>
    have harms := Stmt.armsFlat_iff.1 (by rwa [Stmt.isFlat] at hs)
    simp only [Stmt.exprs, Stmt.blocks, List.forall_mem_map]
    exact ⟨fun arm harm => Token.allFlat_iff.1 (harms arm harm).1, fun arm harm =>
      (harms arm harm).2⟩
  | loop condition code =>
    rw [Stmt.isFlat, Bool.and_eq_true, List.all_eq_true] at hs
    simp only [Stmt.exprs, Stmt.blocks, List.forall_mem_singleton]
    exact ⟨fun f hf => absurd (hs.1 _ hf) (by simp [isShared]), hs.2⟩
  | _ => simp_all [Stmt.isFlat, Stmt.exprs, Stmt.blocks, Token.allFlat_iff]

/-- A store whose functions are flat. -/
def Store.Flat (σ : Store) : Prop :=
  ∀ r, (σ.closure r).function.isFlat = true

namespace FlatCode

open Coupling

/-- Two runs of flat code have equal stores, and only the first may use up its budget. -/
def coupling : Coupling :=
  { Budget.coupling with rel := fun σ₁ σ₂ => σ₁ = σ₂ ∧ σ₁.Flat }

theorem hosts (scope : Nat) : coupling.Hosts scope fun f => f.isFlat = true := by
  refine .alone (I := Store.Flat) (fun _ _ => Iff.rfl) ?_ ?_ ?_ ?_
  · intro σ σ' _ hclosures _ hσ r
    rw [Store.closure, hclosures]
    exact hσ r
  · intro σ r hσ s
    rw [Store.function_adopt]
    exact hσ s
  · intro σ f hf hσ r
    rw [Store.closure_newClosure]
    split
    · exact hf
    · exact hσ r
  · exact fun σ _ _ _ hσ => hσ

theorem tick : coupling.Together (modifyGet Store.tick) (modifyGet Store.tick) := by
  rintro σ _ ⟨rfl, hσ⟩
  exact .ok trivial ⟨rfl, hσ⟩

theorem enter (caller home : Nat) (params : List String) (args : List Value) :
    coupling.Together (Statement.enter caller home params args)
    (Statement.enter caller home params args) := by
  rintro σ _ ⟨rfl, hσ⟩
  rw [Statement.enter_eq]
  cases σ.childScope home params args with
  | error x => exact .failure ⟨rfl, hσ⟩
  | ok inner =>
    dsimp only
    split
    · exact .failure ⟨rfl, hσ⟩
    · exact .ok trivial ⟨rfl, hσ⟩

/-- A way to take a condition that leaves one without functions as it is. -/
def Faithful (take : Expr → Eval Expr) : Prop :=
  ∀ ts, (∀ t ∈ ts, isShared t = true) → take ts = pure ts

/-- A loop whose condition holds no function takes it as it is. -/
theorem Faithful.exec_loop {take : Expr → Eval Expr} (htake : Faithful take) {condition : Expr}
    (hshared : ∀ t ∈ condition, isShared t = true) (l : Layer) (ctx : Context) (scope : Nat)
    (code : Program) : (l.aboveTaking take ctx).exec scope (.loop condition code) =
      Statement.loop ctx.loopLimit ctx.rounds (do Eval.truth (← l.evaluate scope condition))
        (runAll (l.exec scope) code) := by
  simp only [aboveTaking, Statement.load_shared hshared, pure_bind, htake _ hshared]

/-- Layers that run flat code in the same way. -/
structure Beside (l₁ l₂ : Layer) : Prop where
  evaluate : ∀ scope e, coupling.Together (l₁.evaluate scope e) (l₂.evaluate scope e)
  call : ∀ scope r args, coupling.Together (l₁.call scope r args) (l₂.call scope r args)
  exec : ∀ scope s, s.isFlat = true → coupling.Together (l₁.exec scope s) (l₂.exec scope s)

namespace Beside

theorem spent : Beside spent spent where
  evaluate _ _ := Coupled.exhausted rfl _
  call _ _ _ := Coupled.exhausted rfl _
  exec _ _ _ := Coupled.exhausted rfl _

variable {l₁ l₂ : Layer} (hl : Beside l₁ l₂) (ctx : Context)

include hl

theorem runAll (scope : Nat) {p : Program} (hp : Stmt.allFlat p = true) :
    coupling.Together (LittleJ.runAll (l₁.exec scope) p) (LittleJ.runAll (l₂.exec scope) p) :=
  Hosts.runAll p fun s hs => hl.exec scope s (Stmt.allFlat_iff.1 hp s hs)

theorem above_evaluate (scope : Nat) (e : Expr) :
    coupling.Together ((l₁.above ctx).evaluate scope e) ((l₂.above ctx).evaluate scope e) :=
  (hosts scope).above_evaluate (fun e _ => hl.evaluate scope e) (hl.call scope) e (Nat.le_refl _)

theorem above_call (caller r : Nat) (args : List Value) :
    coupling.Together ((l₁.above ctx).call caller r args) ((l₂.above ctx).call caller r args) := by
  refine Coupled.read ?_
  rintro σ _ ⟨rfl, hσ⟩
  have hbody := Function.allFlat_body (hσ r)
  have hrel : coupling.rel σ σ := ⟨rfl, hσ⟩
  generalize σ.closure r = k at hbody
  refine (?_ : coupling.Together _ _) _ _ hrel
  refine Coupled.ite (fun _ => ?_) fun _ => ?_
  · refine Together.bind ((hosts caller).shownArguments args) fun s => ?_
    exact Coupled.throw_bind (by simp)
  · cases k.home with
    | none => exact Coupled.breakdown
    | some home =>
      refine Together.bind (enter caller home _ args) fun scope => ?_
      exact Hosts.returned (hl.runAll scope hbody)

theorem above_exec (scope : Nat) {s : Stmt} (hs : s.isFlat = true)
    (hloop : ∀ condition code, s ≠ .loop condition code) :
    coupling.Together ((l₁.above ctx).exec scope s) ((l₂.above ctx).exec scope s) := by
  obtain ⟨hfunctions, hblocks⟩ := Stmt.flat_parts hs
  -- every expression of the statement is shorter than all of them together
  refine (hosts scope).above_exec (n := (s.exprs.map List.length).sum + 1)
    (fun e _ => hl.evaluate scope e) (hl.call scope) s hloop rfl (fun e he => ?_) hfunctions
    fun b hb => hl.runAll scope (hblocks b hb)
  exact Nat.lt_succ_of_le (List.le_sum_of_mem (List.mem_map_of_mem he))

theorem aboveTaking {take₁ take₂ : Expr → Eval Expr} (htake₁ : Faithful take₁)
    (htake₂ : Faithful take₂) :
    Beside (l₁.aboveTaking take₁ ctx) (l₂.aboveTaking take₂ ctx) where
  evaluate := hl.above_evaluate ctx
  call := hl.above_call ctx
  exec scope s hs := by
    by_cases hloop : ∃ condition code, s = .loop condition code
    · obtain ⟨condition, code, rfl⟩ := hloop
      rw [Stmt.isFlat, Bool.and_eq_true, List.all_eq_true] at hs
      rw [htake₁.exec_loop hs.1, htake₂.exec_loop hs.1]
      refine Together.loop rfl tick _ ?_ (hl.runAll scope hs.2) (Nat.le_refl _)
      exact Together.bind (hl.evaluate scope condition) fun v => Coupled.truth
    · have hother (condition : Expr) (code : Program) : s ≠ .loop condition code :=
        fun heq => hloop ⟨condition, code, heq⟩
      rw [aboveTaking_exec hother, aboveTaking_exec hother]
      exact hl.above_exec ctx scope hs hother

omit hl in
theorem taking {take₁ take₂ : Expr → Eval Expr} (htake₁ : Faithful take₁) (htake₂ : Faithful take₂)
    (fuel : Nat) :
    Beside (taking take₁ ctx fuel) (taking take₂ ctx fuel) := by
  induction fuel with
  | zero => exact .spent
  | succ fuel ih => exact ih.aboveTaking ctx htake₁ htake₂

end Beside

end FlatCode

/-- **Flat code cannot tell a condition from a copy of it.** A loop whose condition holds no
function does the same, whatever code it repeats and whatever the store, if it evaluates a copy in
each round. And if there are only such conditions, in a program and in the functions of the store,
then the program ends in the same way and in the same store if every loop that is run evaluates
copies. Tokens are their own copy exactly if they hold no function. -/
theorem flat_conditions_untold (ctx : Context) (fuel scope : Nat) :
    (∀ (condition : Expr) (code : Program), (∀ t ∈ condition, isShared t = true) →
      ((within ctx fuel).aboveTaking copyTokens ctx).exec scope (.loop condition code) =
        exec ctx (fuel + 1) scope (.loop condition code)) ∧
    (∀ (p : Program) (σ : Store), Stmt.allFlat p = true → σ.Flat →
      EndAlike (runCopying ctx fuel scope p σ) (runProgram ctx fuel scope p σ)) ∧
    ∀ (ts : List Token) (σ : Store),
    (∀ t ∈ ts, isShared t = true ∨ ∃ r < σ.closures.size, t = .val (.fn r)) →
      ((∃ τ, copyTokens ts σ = .ok ts τ) ↔ ∀ t ∈ ts, isShared t = true) := by
  have hpure : FlatCode.Faithful pure := fun _ _ => rfl
  have hcopy : FlatCode.Faithful copyTokens := fun _ => copyTokens_shared
  refine ⟨fun condition code hshared => ?_, fun p σ hp hσ => ?_, fun ts σ hts =>
    ⟨?_, fun hshared => ⟨σ, ?_⟩⟩⟩
  · rw [hcopy.exec_loop hshared, ← hpure.exec_loop hshared, aboveTaking_pure, ← within_succ]
    rfl
  · have hto := (FlatCode.Beside.taking ctx hcopy hpure fuel).runAll scope hp σ σ ⟨rfl, hσ⟩
    have hfrom := (FlatCode.Beside.taking ctx hpure hcopy fuel).runAll scope hp σ σ ⟨rfl, hσ⟩
    rw [taking_pure] at hto hfrom
    exact hto.endAlike hfrom And.left id
  · rintro ⟨τ, hcopied⟩
    exact isShared_of_copyAllTokens hts hcopied
  · rw [copyTokens_shared hshared]
    rfl

namespace FlatCode

/-- A global scope that holds nothing. -/
def start : Store :=
  (Store.empty.newScope ⟨[], none, 0, none⟩).2

theorem flat_start : start.Flat := by
  intro r
  change (Store.empty.closure r).function.isFlat = true
  rw [Store.closure_empty]
  decide

/-- Makes a function that lowers a flag by a loop, and calls it. -/
def lowering : Program :=
  let lower : Function := .mk ["a"]
    [.loop [.name "a"] [.assign [.name "a"] [.val (.bool false)]], .ret [.name "a"]] []
  [.init "lower" [.func lower], .exp [.name "lower", .sym .lparen, .val (.bool true), .sym .rparen]]

end FlatCode

theorem flat_conditions_untold_lowering :
    (∀ t ∈ [Token.name "a"], isShared t = true) ∧
    ((within ⟨none, false, 5⟩ 9).aboveTaking copyTokens ⟨none, false, 5⟩).exec 0
    (.loop [.name "a"] []) =
      exec ⟨none, false, 5⟩ 10 0 (.loop [.name "a"] []) ∧
    Stmt.allFlat FlatCode.lowering = true ∧ FlatCode.start.Flat ∧
    EndAlike (runCopying ⟨none, false, 5⟩ 9 0 FlatCode.lowering FlatCode.start)
      (runProgram ⟨none, false, 5⟩ 9 0 FlatCode.lowering FlatCode.start) ∧
    ∃ τ, copyTokens [.name "a"] FlatCode.start = .ok [.name "a"] τ := by
  obtain ⟨hloop, hrun, hcopy⟩ := flat_conditions_untold ⟨none, false, 5⟩ 9 0
  exact ⟨by decide, hloop [.name "a"] [] (by decide), by decide, FlatCode.flat_start,
    hrun FlatCode.lowering FlatCode.start (by decide) FlatCode.flat_start,
    (hcopy [.name "a"] FlatCode.start (by simp [isShared])).2 (by decide)⟩

/-- What an interpreter of its own writes when it runs a text with copies of all conditions. -/
def copyingOutputOf (budget : Budget) (text : String) : String :=
  let run : Eval Unit := do
    let i ← Interpreter.make none none true
    Interpreter.reporting do
      runCopying (i.context budget false) budget.depth i.global (← Eval.ofFailure (parseText text))
  (finish run Store.empty).out

/-- A loop collects the function in its condition twice, and whether it is the same function is
asked. -/
def collectedText : String :=
  "var a = []; while (append(a, function () \x7b return 1; \x7d) < 2) \x7b a; \x7d print(a[0] === a[1]);"

/-- It is, but a copy is another function. -/
theorem identity_tells_copies :
    outputOf ⟨10, 5⟩ collectedText = "true\n" ∧ copyingOutputOf ⟨10, 5⟩ collectedText =
      "false\n" := by
  decide +kernel

end LittleJ
