import LittleJ.Proofs.AlikeLimits
import LittleJ.Proofs.Passes

/-!
# Whose limits hold in an interpreter of its own

A program may be run in an interpreter of its own, apart from the one that is asked to run it. The
new interpreter is given the limits of the other one, but the limit on loops and the limit on calls
change places. So it does what an interpreter with the same limits would do if, and only if, the two
limits cannot be told apart.

Two texts tell limits apart. A loop that goes on for ever writes a mark in each round, and a
function that calls itself for ever writes one in each call. How many marks there are says how far
the program got before it was stopped: one more than the whole part of the limit on loops, and one
less than the limit on calls rounded up.
-/

namespace LittleJ

open Store Interpreter Expression Eval Statement

namespace OwnLimits

/-- The number of marks in a text. -/
def marks (s : String) : Nat :=
  s.toList.count '#'

theorem marks_append (s s' : String) : marks (s ++ s') = marks s + marks s' := by
  rw [marks, String.toList_append, List.count_append, marks, marks]

/-- A call that writes a mark. -/
def markCall : Expr :=
  [.name "print", .sym .lparen, .val (.str "#"), .sym .rparen]

/-- A call of the function that calls itself. -/
def selfCall : Expr :=
  [.name "f", .sym .lparen, .sym .rparen]

def loopText : String :=
  "while (true) \x7b print('#'); \x7d"

def selfCallText : String :=
  "var f = function () \x7b print('#'); return f(); \x7d; f();"

/-- The function that writes a mark and calls itself. -/
def endlessFunction : Function :=
  .mk [] [.exp markCall, .ret selfCall]
  (markCall ++ .sym .semi :: .sym .kwReturn :: selfCall ++ [.sym .semi])

theorem endsWith_loopText : loopText.endsWith ".l.js" = false := by
  decide +kernel

theorem endsWith_selfCallText : selfCallText.endsWith ".l.js" = false := by
  decide +kernel

theorem parse_loopText : parseText loopText = .ok [.loop [.val (.bool true)] [.exp markCall]] := by
  rfl

theorem parse_selfCallText :
    parseText selfCallText = .ok [.init "f" [.func endlessFunction], .exp selfCall] := by
  rfl

/-! ## A new interpreter -/

section Store

variable {σ : Store} {g : Nat}

theorem scope_putVar (hg : g < σ.scopes.size) (name : String) (v : Value) :
    (σ.putVar g name v).scope g = { σ.scope g with vars := (σ.scope g).vars.put name v } := by
  rw [putVar, scope_modifyScope, if_pos ⟨rfl, hg⟩]

theorem out_putVar (σ : Store) (r : Nat) (name : String) (v : Value) :
    (σ.putVar r name v).out = σ.out :=
  rfl

theorem scope_foldl_putVar (fs : List (String × Native)) (hg : g < σ.scopes.size) :
    (fs.foldl (fun σ p => σ.putVar g p.1 (.native p.2)) σ).scope g = { σ.scope g with
      vars := fs.foldl (fun t p => t.put p.1 (.native p.2)) (σ.scope g).vars } ∧
    (fs.foldl (fun σ p => σ.putVar g p.1 (.native p.2)) σ).scopes.size = σ.scopes.size ∧
    (fs.foldl (fun σ p => σ.putVar g p.1 (.native p.2)) σ).out = σ.out := by
  induction fs generalizing σ with
  | nil => exact ⟨rfl, rfl, rfl⟩
  | cons p fs ih =>
    have hsize : (σ.putVar g p.1 (.native p.2)).scopes.size = σ.scopes.size :=
      size_modifyScope _ _ _
    obtain ⟨hscope, hsizes, hout⟩ :=
      ih (hsize ▸ hg : g < (σ.putVar g p.1 (.native p.2)).scopes.size)
    rw [scope_putVar hg] at hscope
    exact ⟨hscope, hsizes.trans hsize, hout⟩

/-- A store with the global scope `g` of an interpreter that has the depth limit `d`. -/
structure Furnished (d : Option Rat) (σ : Store) (g : Nat) : Prop where
  made : g < σ.scopes.size
  print : (σ.scope g).vars.get? "print" = some (.native .print)
  depth : (σ.scope g).depth = 0
  limit : (σ.scope g).limit = d

/-- The variables that a new interpreter has. -/
def globals (math : Nat) : Table Value :=
  Table.put "math" (.obj math) (Native.builtins.foldl (fun t p => Table.put p.1 (.native p.2) t) [])

theorem makeGlobal_eq {d : Option Rat} (h : tooDeep d 0 = false) (σ : Store) :
    ∃ τ, makeGlobal d true σ = .ok σ.scopes.size τ ∧ τ.out = σ.out ∧ σ.scopes.size < τ.scopes.size ∧
      τ.scope σ.scopes.size = ⟨globals σ.objects.size, none, 0, d⟩ := by
  have hglobal : globalScope d = .ok ⟨[], none, 0, d⟩ := by
    rw [globalScope, if_neg (Bool.eq_false_iff.mp h)]
  -- the scope and the object with the functions of mathematics are made, and then the variables are
  -- set
  obtain ⟨ρ, hρ⟩ : ∃ ρ, ((σ.newScope ⟨[], none, 0, d⟩).2.newObject Math.properties).2 = ρ :=
    ⟨_, rfl⟩
  have hsize : σ.scopes.size < ρ.scopes.size := by
    rw [← hρ]
    simp [newObject, newScope]
  have hnew : ρ.scope σ.scopes.size = ⟨[], none, 0, d⟩ := by
    rw [← hρ]
    exact (scope_newScope _ _ _).trans (if_pos rfl)
  obtain ⟨hscope, hsizes, hout⟩ := scope_foldl_putVar Native.builtins hsize
  obtain ⟨τ, hτ⟩ :
      ∃ τ, Native.builtins.foldl (fun τ p => τ.putVar σ.scopes.size p.1 (.native p.2)) ρ = τ :=
    ⟨_, rfl⟩
  rw [hτ] at hscope hsizes hout
  rw [hnew] at hscope
  refine ⟨τ.putVar σ.scopes.size "math" (.obj σ.objects.size), ?_, ?_, ?_, ?_⟩
  · rw [makeGlobal, hglobal, ← hτ, ← hρ]
    rfl
  · rw [out_putVar, hout, ← hρ]
    rfl
  · rw [putVar, size_modifyScope, hsizes]
    exact hsize
  · rw [scope_putVar (by rw [hsizes]; exact hsize), hscope]
    rfl

theorem Furnished.of_scope {d : Option Rat} {math : Nat} (hg : g < σ.scopes.size)
    (h : σ.scope g = ⟨globals math, none, 0, d⟩) : Furnished d σ g where
  made := hg
  print := by rw [h]; rfl
  depth := by rw [h]
  limit := by rw [h]

/-- A variable of the global scope is seen from there. -/
theorem lookup_global {name : String} {v : Value} (h : (σ.scope g).vars.get? name = some v) :
    σ.lookup g name = .ok v := by
  have howner : σ.ownerFrom name (g + 1) g = some g := by
    rw [ownerFrom, Table.has, h]
    rfl
  simp only [lookup, owner, howner, bind, Except.bind, h]
  rfl

/-- It is seen from a scope inside that has no variables of its own too. -/
theorem lookup_inner {name : String} {v : Value} (h : (σ.scope g).vars.get? name = some v)
    {s : Nat} (hs : g < s) (hvars : (σ.scope s).vars = []) (hparent : (σ.scope s).parent = some g) :
    σ.lookup s name = .ok v := by
  obtain ⟨s, rfl⟩ : ∃ k, s = k + 1 := ⟨s - 1, by omega⟩
  have howner : σ.ownerFrom name (s + 1 + 1) (s + 1) = some g := by
    rw [ownerFrom, hvars, hparent]
    show σ.ownerFrom name (s + 1) g = some g
    rw [ownerFrom, Table.has, h]
    rfl
  simp only [lookup, owner, howner, bind, Except.bind, h]
  rfl

end Store

/-! ## Writing a mark -/

variable {ctx : Context} {fuel scope : Nat} {σ τ : Store}

/-- The value of an expression that reduces to one token. -/
theorem reduce_eq {eval : Expr → Eval Value} {call : Nat → List Value → Eval Value}
    {ts ts' : Expr} {v : Value} (hliterals : literals eval ts σ = .ok ts' σ)
    (happly : applications eval call ts' σ = .ok [.val v] τ) (hv : v.isProper = true) :
    reduce eval call ts σ = .ok v τ := by
  rw [reduce]
  simp only [bind, EStateM.bind, hliterals, happly, Operator.settle_val, pure, EStateM.pure, hv]
  rfl

theorem evaluate_markCall (h : σ.lookup scope "print" = .ok (.native .print)) :
    evaluate ctx (fuel + 2) scope markCall σ = .ok .null (σ.write "#\n") := by
  have hresolve : resolve scope markCall σ =
      .ok [.val (.native .print), .sym .lparen, .val (.str "#"), .sym .rparen] σ := by
    have hnames :
        ∀ s, .name s ∈ markCall → σ.lookup scope s = .ok ((fun _ => .native .print) s) := by
      intro s hs
      obtain rfl : s = "print" := by simpa [markCall] using hs
      exact h
    exact resolve_eq_map (by decide) hnames
  rw [evaluate, bind_of_ok hresolve]
  refine reduce_eq rfl ?_ rfl
  -- the argument is a scalar
  have hargument : evaluate ctx (fuel + 1) scope [.val (.str "#")] σ = .ok (.str "#") σ :=
    evaluate_scalar ctx fuel scope (.str "#") σ
  have hvalues : arrayValues (evaluate ctx (fuel + 1) scope)
      [.sym .lbracket, .val (.str "#"), .sym .rbracket] σ = .ok ([.str "#"], 2) σ := by
    show (do return (← elements (evaluate ctx (fuel + 1) scope) [[.val (.str "#")]], 2) : Eval _)
        σ = _
    simp [elements, bind, EStateM.bind, pure, EStateM.pure, hargument]
  show (do
    let args ← arrayValues (evaluate ctx (fuel + 1) scope)
      [.sym .lbracket, .val (.str "#"), .sym .rbracket]
    let v ← Native.call .print args.1
    return [.val v] : Eval (List Token)) σ = _
  rw [bind_of_ok hvalues]
  rfl

theorem exec_markCall (h : σ.lookup scope "print" = .ok (.native .print)) :
    exec ctx (fuel + 3) scope (.exp markCall) σ = .ok () (σ.write "#\n") := by
  have hvalue : (do evaluate ctx (fuel + 2) scope (← load markCall) : Eval Value) σ =
      .ok .null (σ.write "#\n") :=
    evaluate_markCall h
  rw [exec]
  refine (bind_of_ok hvalue _).trans ?_
  rw [echo, get_bind, if_neg (by simp)]
  rfl

/-! ## Rounds of a loop -/

/-- Over time is a matter of whole numbers. -/
theorem overtime_add {l : Rat} (hl : 0 < l) (start k : Nat) :
    overtime l start (start + k) = decide (⌊l⌋₊ < k) := by
  have hk : ((start + k : Nat) : Rat) - start = (k : Rat) := by
    push_cast
    ring
  rw [overtime, hk, decide_eq_decide, Nat.floor_lt hl.le]

/-- The statements inside the loop. -/
theorem body_mark (h : σ.lookup scope "print" = .ok (.native .print)) :
    body (runAll (exec ctx (fuel + 3) scope) [.exp markCall]) σ = .ok true (σ.write "#\n") := by
  rw [body, runAll, bind_of_ok (exec_markCall h)]
  rfl

/-- The condition of the loop. -/
theorem condition_true :
    (do truth (← evaluate ctx (fuel + 3) scope [.val (.bool true)]) : Eval Bool) σ =
    .ok true σ := by
  have htrue : evaluate ctx (fuel + 3) scope [.val (.bool true)] σ = .ok (.bool true) σ :=
    evaluate_scalar ctx (fuel + 2) scope (.bool true) σ
  rw [bind_of_ok htrue]
  rfl

/-- One round of the loop writes a mark. With a limit it is the last one once the time has passed
it. -/
theorem round_eq (limit : Option Rat) (start : Nat)
    (h : σ.lookup scope "print" = .ok (.native .print)) :
    Statement.round limit start (do truth (← evaluate ctx (fuel + 3) scope [.val (.bool true)]))
      (runAll (exec ctx (fuel + 3) scope) [.exp markCall]) σ =
    match limit with
    | none => .ok true (σ.write "#\n")
    | some l =>
      if overtime l start σ.clock then
        .error (.failure (.error .loopTime)) ((σ.write "#\n").tick).2
      else .ok true ((σ.write "#\n").tick).2 := by
  unfold Statement.round
  rw [bind_of_ok condition_true, if_pos rfl, bind_of_ok (body_mark h), if_pos rfl]
  cases limit with
  | none => rfl
  | some l =>
    show (if overtime l start σ.clock then raise .loopTime >>= fun _ => pure true
      else pure true : Eval Bool) ((σ.write "#\n").tick).2 = _
    dsimp only
    split <;> rfl

/-- The step that the loop repeats. -/
def markRound (ctx : Context) (fuel scope start : Nat) : Eval Bool :=
  Statement.round ctx.loopLimit start
  (do truth (← evaluate ctx (fuel + 3) scope [.val (.bool true)]))
    (runAll (exec ctx (fuel + 3) scope) [.exp markCall])

theorem print_of_scopes (h : σ.lookup scope "print" = .ok (.native .print))
    (hscopes : τ.scopes = σ.scopes) :
    τ.lookup scope "print" = .ok (.native .print) := by
  rw [lookup_of_scopes hscopes]
  exact h

/-- Without a limit the loop goes on until its budget is used up. -/
theorem iterate_endless (hlimit : ctx.loopLimit = none)
    (h : σ.lookup scope "print" = .ok (.native .print)) (start n : Nat) :
    ∃ τ, iterate (markRound ctx fuel scope start) n σ = .error .exhausted τ := by
  induction n generalizing σ with
  | zero => exact ⟨σ, rfl⟩
  | succ n ih =>
    have hround : markRound ctx fuel scope start σ = .ok true (σ.write "#\n") := by
      rw [markRound, round_eq _ _ h, hlimit]
    have hprint : (σ.write "#\n").lookup scope "print" = .ok (.native .print) :=
      print_of_scopes h rfl
    obtain ⟨τ, hτ⟩ := ih hprint
    refine ⟨τ, ?_⟩
    rw [iterate, bind_of_ok hround, if_pos rfl]
    exact hτ

/-- With a limit the loop is stopped after the first round that ends past it. -/
theorem iterate_overtime {l : Rat} (hlimit : ctx.loopLimit = some l) (hl : 0 < l)
    (h : σ.lookup scope "print" = .ok (.native .print)) {start k n : Nat}
    (hclock : σ.clock = start + k) (hn : k + n = ⌊l⌋₊ + 1) :
    ∃ τ, iterate (markRound ctx fuel scope start) (n + 1) σ =
      .error (.failure (.error .loopTime)) τ ∧ marks τ.out = marks σ.out + (n + 1) := by
  -- by induction on the rounds that are left, while the time that has passed grows by one in each
  induction n generalizing σ k with
  | zero =>
    refine ⟨((σ.write "#\n").tick).2, ?_, marks_append σ.out "#\n"⟩
    have hround : markRound ctx fuel scope start σ =
        .error (.failure (.error .loopTime)) ((σ.write "#\n").tick).2 := by
      rw [markRound, round_eq _ _ h, hlimit]
      dsimp only
      rw [hclock, overtime_add hl, if_pos (by simp; omega)]
    rw [iterate, bind_of_error hround]
  | succ n ih =>
    have hround : markRound ctx fuel scope start σ = .ok true ((σ.write "#\n").tick).2 := by
      rw [markRound, round_eq _ _ h, hlimit]
      dsimp only
      rw [hclock, overtime_add hl, if_neg (by simp; omega)]
    have hprint : (((σ.write "#\n").tick).2).lookup scope "print" = .ok (.native .print) :=
      print_of_scopes h rfl
    have hnext : (((σ.write "#\n").tick).2).clock = start + (k + 1) := by
      show σ.clock + 1 = start + (k + 1)
      rw [hclock]
      omega
    obtain ⟨τ, hτ, hmarks⟩ := ih hprint hnext (by omega)
    refine ⟨τ, ?_, ?_⟩
    · rw [iterate, bind_of_ok hround, if_pos rfl]
      exact hτ
    · have hout : marks (((σ.write "#\n").tick).2).out = marks σ.out + 1 := marks_append σ.out "#\n"
      omega

/-- The loop as a statement. -/
theorem exec_loop : exec ctx (fuel + 4) scope (.loop [.val (.bool true)] [.exp markCall]) σ =
    iterate (markRound ctx fuel scope σ.clock) ctx.rounds (σ.tick).2 := by
  rw [exec]
  rfl

/-! ## Calls of a function by itself -/

/-- A store in which the function can be called: its closure is `r`, made in the global scope `g`.
-/
structure SelfCalling (x : Rat) (σ : Store) (g r : Nat) : Prop extends Furnished (some x) σ g where
  name : (σ.scope g).vars.get? "f" = some (.fn r)
  closure : σ.closure r = ⟨endlessFunction, some g⟩

variable {x : Rat} {g r : Nat}

theorem evaluate_selfCall (h : σ.lookup scope "f" = .ok (.fn r)) {e : Stop}
    (hcall : call ctx fuel scope r [] σ = .error e τ) :
    evaluate ctx (fuel + 1) scope selfCall σ = .error e τ := by
  have hresolve : resolve scope selfCall σ = .ok [.val (.fn r), .sym .lparen, .sym .rparen] σ := by
    have hnames : ∀ s, .name s ∈ selfCall → σ.lookup scope s = .ok ((fun _ => .fn r) s) := by
      intro s hs
      obtain rfl : s = "f" := by simpa [selfCall] using hs
      exact h
    exact resolve_eq_map (by decide) hnames
  rw [evaluate, bind_of_ok hresolve, reduce]
  have happly : applications (evaluate ctx fuel scope) (call ctx fuel scope)
      [.val (.fn r), .sym .lparen, .sym .rparen] σ = .error e τ :=
    bind_of_error hcall _
  have hliterals : literals (evaluate ctx fuel scope) [.val (.fn r), .sym .lparen, .sym .rparen] σ =
      .ok [.val (.fn r), .sym .lparen, .sym .rparen] σ := rfl
  rw [bind_of_ok hliterals, bind_of_error happly]

/-- The scope of a call of the function, if its depth is allowed. -/
theorem enter_eq (h : SelfCalling x σ g r) (hx : 1 < x) {caller k : Nat}
    (hdepth : (σ.scope caller).depth = k) (hcaller : caller < σ.scopes.size) :
    ∃ τ, τ.out = σ.out ∧ SelfCalling x τ g r ∧ τ.scope σ.scopes.size = ⟨[], some g, k + 1, some x⟩ ∧
      τ.scopes.size = σ.scopes.size + 1 ∧ enter caller g [] [] σ =
        if ⌈x⌉₊ ≤ k + 1 then .error (.failure (.error .callDepth)) τ else .ok σ.scopes.size τ := by
  have hchild : σ.childScope g [] [] = .ok ⟨[], some g, 1, some x⟩ := by
    have hdeep : ¬tooDeep (some x) (0 + 1) = true := by
      simpa [tooDeep] using hx
    simp only [childScope, h.depth, h.limit, if_neg hdeep]
    rfl
  obtain ⟨ρ, hρ⟩ : ∃ ρ, (σ.newScope ⟨[], some g, 1, some x⟩).2 = ρ := ⟨_, rfl⟩
  have hscope :
      ∀ q, ρ.scope q = if q = σ.scopes.size then ⟨[], some g, 1, some x⟩ else σ.scope q := by
    intro q
    rw [← hρ, scope_newScope]
  have hsize : ρ.scopes.size = σ.scopes.size + 1 := by
    rw [← hρ]
    simp [newScope]
  have hset : ∀ q, (ρ.setDepth σ.scopes.size (k + 1)).scope q =
      if q = σ.scopes.size then ⟨[], some g, k + 1, some x⟩ else σ.scope q := by
    intro q
    rw [setDepth, scope_modifyScope, hscope]
    by_cases hq : q = σ.scopes.size
    · rw [if_pos ⟨hq.symm, by omega⟩, if_pos hq, if_pos hq]
    · rw [if_neg fun hand => hq hand.1.symm, if_neg hq, if_neg hq]
  have hglobal : (ρ.setDepth σ.scopes.size (k + 1)).scope g = σ.scope g := by
    rw [hset, if_neg (Nat.ne_of_lt h.made)]
  refine ⟨ρ.setDepth σ.scopes.size (k + 1), ?_, ?_, ?_, ?_, ?_⟩
  · rw [← hρ]
    rfl
  · refine ⟨⟨?_, ?_, ?_, ?_⟩, ?_, ?_⟩
    · rw [setDepth, size_modifyScope, hsize]
      exact Nat.lt_succ_of_lt h.made
    · rw [hglobal, h.print]
    · rw [hglobal, h.depth]
    · rw [hglobal, h.limit]
    · rw [hglobal, h.name]
    · rw [← h.closure, ← hρ]
      rfl
  · rw [hset, if_pos rfl]
  · rw [setDepth, size_modifyScope, hsize]
  · rw [Statement.enter_eq, hchild]
    dsimp only
    rw [hρ, hscope, if_neg (Nat.ne_of_lt hcaller), hdepth]
    have hlimit : (ρ.setDepth σ.scopes.size (k + 1)).atLimit σ.scopes.size =
        decide (⌈x⌉₊ ≤ k + 1) := by
      rw [atLimit, hset, if_pos rfl, tooDeep, decide_eq_decide, Nat.ceil_le]
      push_cast
      rfl
    rw [hlimit]
    simp only [decide_eq_true_eq]

/-- If the limit allows no scope inside the global one then no call is allowed. -/
theorem enter_eq_scopeDepth (h : SelfCalling x σ g r) (hx : x ≤ 1) (caller : Nat) :
    enter caller g [] [] σ = .error (.failure (.error .scopeDepth)) σ := by
  have hchild : σ.childScope g [] [] = .error (.error .scopeDepth) := by
    have hdeep : tooDeep (some x) (0 + 1) = true := by
      simpa [tooDeep] using hx
    simp only [childScope, h.depth, h.limit, if_pos hdeep]
    rfl
  rw [Statement.enter_eq, hchild]

theorem SelfCalling.write (h : SelfCalling x σ g r) (s : String) : SelfCalling x (σ.write s) g r :=
  ⟨⟨h.made, h.print, h.depth, h.limit⟩, h.name, h.closure⟩

theorem call_eq (h : SelfCalling x σ g r) (caller : Nat) :
    call ctx (fuel + 1) caller r [] σ = (enter caller g [] [] >>= fun s =>
      returned (runAll (exec ctx fuel s) [.exp markCall, .ret selfCall])) σ := by
  rw [call, get_bind, h.closure]
  rfl

/-- A statement whose expression fails. -/
theorem exec_selfCall {e : Stop} (h : evaluate ctx fuel scope selfCall σ = .error e τ) :
    exec ctx (fuel + 1) scope (.ret selfCall) σ = .error e τ ∧
      exec ctx (fuel + 1) scope (.exp selfCall) σ = .error e τ := by
  have hvalue : (do evaluate ctx fuel scope (← load selfCall) : Eval Value) σ = .error e τ := h
  rw [exec, exec]
  exact ⟨bind_of_error hvalue _, bind_of_error hvalue _⟩

/-- **Each call that is allowed writes one mark.** The first one that is not ends all of them. -/
theorem call_marks (h : SelfCalling x σ g r) (hx : 1 < x) {caller k n : Nat}
    (hdepth : (σ.scope caller).depth = k) (hcaller : caller < σ.scopes.size)
    (hn : k + n + 1 = ⌈x⌉₊) :
    ∃ τ, call ctx (3 * n + 1) caller r [] σ = .error (.failure (.error .callDepth)) τ ∧
      marks τ.out = marks σ.out + n := by
  -- by induction on the depths that are left; three units of the budget are used at each
  induction n generalizing σ caller k with
  | zero =>
    obtain ⟨ρ, hout, _, _, _, henter⟩ := enter_eq h hx hdepth hcaller
    rw [if_pos (by omega)] at henter
    refine ⟨ρ, ?_, by rw [hout, Nat.add_zero]⟩
    rw [call_eq h, bind_of_error henter]
  | succ n ih =>
    obtain ⟨ρ, hout, hρ, hscope, hsize, henter⟩ := enter_eq h hx hdepth hcaller
    rw [if_neg (by omega)] at henter
    have hinner : ((ρ.write "#\n").scope σ.scopes.size).depth = (k + 1 : Nat) := by
      show (ρ.scope σ.scopes.size).depth = _
      rw [hscope]
      rfl
    have hprint : ρ.lookup σ.scopes.size "print" = .ok (.native .print) :=
      lookup_inner hρ.print h.made (by rw [hscope]) (by rw [hscope])
    have hname : (ρ.write "#\n").lookup σ.scopes.size "f" = .ok (.fn r) := by
      rw [lookup_of_scopes (show (ρ.write "#\n").scopes = ρ.scopes from rfl)]
      exact lookup_inner hρ.name h.made (by rw [hscope]) (by rw [hscope])
    obtain ⟨τ, hτ, hmarks⟩ :=
      ih (hρ.write "#\n") hinner (show σ.scopes.size < ρ.scopes.size by omega) (by omega)
    refine ⟨τ, ?_, ?_⟩
    · have hret : exec ctx (3 * n + 3) σ.scopes.size (.ret selfCall) (ρ.write "#\n") =
          .error (.failure (.error .callDepth)) τ :=
        (exec_selfCall (evaluate_selfCall hname hτ)).1
      rw [show 3 * (n + 1) + 1 = 3 * n + 3 + 1 by omega, call_eq h, bind_of_ok henter, returned,
        runAll, bind_of_ok (exec_markCall hprint), runAll, bind_of_error hret]
    · have hwritten : marks (ρ.write "#\n").out = marks ρ.out + 1 := marks_append ρ.out "#\n"
      rw [hout] at hwritten
      omega

/-- The function is made and becomes a variable. -/
theorem exec_init {math : Nat} (hg : g < σ.scopes.size)
    (h : σ.scope g = ⟨globals math, none, 0, some x⟩) :
    ∃ τ, exec ctx (fuel + 2) g (.init "f" [.func endlessFunction]) σ = .ok () τ ∧ τ.out = σ.out ∧
      SelfCalling x τ g σ.closures.size := by
  obtain ⟨ρ, hρ⟩ : ∃ ρ, ((σ.newClosure ⟨endlessFunction, none⟩).2.adopt g σ.closures.size) = ρ :=
    ⟨_, rfl⟩
  have hvalue : (do evaluate ctx (fuel + 1) g (← load [.func endlessFunction]) : Eval Value) σ =
      .ok (.fn σ.closures.size) ρ := by
    show evaluate ctx (fuel + 1) g [.val (.fn σ.closures.size)]
        (σ.newClosure ⟨endlessFunction, none⟩).2 = _
    rw [evaluate, bind_of_ok (show resolve g [.val (.fn σ.closures.size)]
      (σ.newClosure ⟨endlessFunction, none⟩).2 =
        .ok [.val (.fn σ.closures.size)] ρ by rw [← hρ]; rfl)]
    exact reduce_eq rfl rfl rfl
  have hscopes : ρ.scopes = σ.scopes := by
    rw [← hρ]
    rfl
  have hscope : ρ.scope g = ⟨globals math, none, 0, some x⟩ := by
    rw [scope, hscopes]
    exact h
  have hclosure : ρ.closure σ.closures.size = ⟨endlessFunction, some g⟩ := by
    rw [← hρ, closure_adopt, closure_newClosure]
    simp [newClosure]
  have hput : (ρ.putVar g "f" (.fn σ.closures.size)).scope g =
      ⟨(globals math).put "f" (.fn σ.closures.size), none, 0, some x⟩ := by
    rw [scope_putVar (by rw [hscopes]; exact hg), hscope]
  refine ⟨ρ.putVar g "f" (.fn σ.closures.size), ?_, ?_, ⟨⟨?_, ?_, ?_, ?_⟩, ?_, ?_⟩⟩
  · rw [exec]
    refine (bind_of_ok hvalue _).trans ?_
    have hcheck : ρ.checkNew g "f" = .ok () := by
      rw [checkNew, hscope]
      rfl
    rw [initialise, get_bind, hcheck]
    rfl
  · rw [out_putVar, ← hρ]
    rfl
  · rw [putVar, size_modifyScope, hscopes]
    exact hg
  · rw [hput]
    rfl
  · rw [hput]
  · rw [hput]
  · rw [hput]
    exact Table.get?_put_self _ _ _
  · exact hclosure

/-! ## Whole texts -/

variable {l d : Option Rat} {files : Table String} {console : Bool}

theorem runFresh_eq {s : String} {p : Program} (hmake : makeGlobal d true σ = .ok g τ)
    (hname : s.endsWith ".l.js" = false) (hparse : parseText s = .ok p) (b : Budget) :
    runFresh l d files s console b σ =
      reporting (runProgram ⟨l, console, b.rounds⟩ b.depth g p) τ := by
  rw [runFresh, Interpreter.make, bind_assoc, bind_of_ok hmake]
  have htext : runText ⟨l, console, b.rounds⟩ b files g s =
      runProgram ⟨l, console, b.rounds⟩ b.depth g p := by
    rw [runText, contentOf, if_neg (Bool.eq_false_iff.mp hname)]
    show ofFailure (parseText s) >>= _ = _
    rw [hparse]
    rfl
  show reporting (runText ⟨l, console, b.rounds⟩ b files g s) τ = _
  rw [htext]

/-- The report of an error that stops a program has no marks. -/
theorem marks_report {e : Error} (he : e = .loopTime ∨ e = .callDepth ∨ e = .scopeDepth)
    (s : String) :
    marks (s ++ (e.report ++ "\n")) = marks s := by
  have hreport : marks (e.report ++ "\n") = 0 := by
    rcases he with rfl | rfl | rfl
    · rfl
    · rfl
    · rfl
  rw [marks_append, hreport, Nat.add_zero]

/-- A text whose program is stopped by a limit. -/
theorem endsWith_stopped {s : String} {p : Program} {ρ : Store} {e : Error} {b : Budget}
    (hmake : makeGlobal d true σ = .ok g τ) (hname : s.endsWith ".l.js" = false)
    (hparse : parseText s = .ok p) (he : e = .loopTime ∨ e = .callDepth ∨ e = .scopeDepth)
    (hrun : runProgram ⟨l, console, b.rounds⟩ b.depth g p τ = .error (.failure (.error e)) ρ) :
    ∃ out, EndsWith (runFresh l d files s console) σ (none, out) ∧ marks out = marks ρ.out := by
  refine ⟨ρ.out ++ (e.report ++ "\n"), ⟨b, ?_⟩, marks_report he ρ.out⟩
  rw [runFresh_eq hmake hname hparse, reporting, hrun]
  rfl

/-- **The loop is stopped after one round more than its limit has whole units.** -/
theorem loop_ends {x : Rat} (hx : 0 < x) (hd : tooDeep d 0 = false) (σ : Store) :
    ∃ out, EndsWith (runFresh (some x) d files loopText console) σ (none, out) ∧
      marks out = marks σ.out + (⌊x⌋₊ + 1) := by
  obtain ⟨τ, hmake, hout, hsize, hscope⟩ := makeGlobal_eq hd σ
  have hprint : (τ.tick).2.lookup σ.scopes.size "print" = .ok (.native .print) :=
    print_of_scopes (lookup_global (Furnished.of_scope hsize hscope).print) rfl
  obtain ⟨ρ, hloop, hmarks⟩ : ∃ ρ, iterate
      (markRound ⟨some x, console, ⌊x⌋₊ + 1⟩ 0 σ.scopes.size τ.clock) (⌊x⌋₊ + 1) (τ.tick).2 =
        .error (.failure (.error .loopTime)) ρ ∧ marks ρ.out = marks τ.out + (⌊x⌋₊ + 1) :=
    iterate_overtime rfl hx hprint rfl (Nat.add_comm _ _)
  have hrun : runProgram ⟨some x, console, ⌊x⌋₊ + 1⟩ 4 σ.scopes.size
      [.loop [.val (.bool true)] [.exp markCall]] τ =
      .error (.failure (.error .loopTime)) ρ := by
    rw [runProgram, runAll]
    exact bind_of_error (exec_loop.trans hloop) _
  obtain ⟨out, hends, hcount⟩ := endsWith_stopped (b := ⟨4, ⌊x⌋₊ + 1⟩) hmake endsWith_loopText
      parse_loopText (.inl rfl) hrun
  exact ⟨out, hends, by rw [hcount, hmarks, hout]⟩

/-- Without a limit it is never stopped. -/
theorem loop_endless (hd : tooDeep d 0 = false) (σ : Store) (o : Option Stop × String) :
    ¬EndsWith (runFresh none d files loopText console) σ o := by
  rintro ⟨b, hb⟩
  obtain ⟨τ, hmake, hout, hsize, hscope⟩ := makeGlobal_eq hd σ
  have hprint : (τ.tick).2.lookup σ.scopes.size "print" = .ok (.native .print) :=
    print_of_scopes (lookup_global (Furnished.of_scope hsize hscope).print) rfl
  -- a budget that allows for the statements inside the loop ends only with the rounds
  have hlarge : observed (runFresh none d files loopText console ⟨b.depth + 4, b.rounds⟩ σ) =
      some o := by
    refine Budget.runFresh_mono ?_ ?_ hb
    · exact Nat.le_add_right _ _
    · exact Nat.le_refl _
  obtain ⟨ρ, hloop⟩ :
      ∃ ρ, iterate (markRound ⟨none, console, b.rounds⟩ b.depth σ.scopes.size τ.clock)
      b.rounds (τ.tick).2 = .error .exhausted ρ :=
    iterate_endless rfl hprint _ _
  have hrun : runProgram ⟨none, console, b.rounds⟩ (b.depth + 4) σ.scopes.size
      [.loop [.val (.bool true)] [.exp markCall]] τ = .error .exhausted ρ := by
    rw [runProgram, runAll]
    exact bind_of_error (exec_loop.trans hloop) _
  rw [runFresh_eq hmake endsWith_loopText parse_loopText, reporting, hrun] at hlarge
  cases hlarge

/-- **The function is called once less than its limit rounded up.** -/
theorem selfCall_ends {x : Rat} (hx : 0 < x) (σ : Store) :
    ∃ out, EndsWith (runFresh l (some x) files selfCallText console) σ (none, out) ∧
      marks out = marks σ.out + (⌈x⌉₊ - 1) := by
  have hd : tooDeep (some x) 0 = false := by simpa [tooDeep] using hx
  obtain ⟨τ, hmake, hout, hsize, hscope⟩ := makeGlobal_eq hd σ
  obtain ⟨n, hn⟩ : ∃ n, ⌈x⌉₊ = n + 1 := ⟨⌈x⌉₊ - 1, by have := Nat.ceil_pos.mpr hx; omega⟩
  obtain ⟨ρ, hinit, hsame, hself⟩ : ∃ ρ, exec ⟨l, console, 0⟩ (3 * n + 3) σ.scopes.size
      (.init "f" [.func endlessFunction]) τ = .ok () ρ ∧ ρ.out = τ.out ∧
        SelfCalling x ρ σ.scopes.size τ.closures.size :=
    exec_init hsize hscope
  obtain ⟨e, υ, he, hcall, hmarks⟩ : ∃ e υ, (e = .callDepth ∨ e = .scopeDepth) ∧
      call ⟨l, console, 0⟩ (3 * n + 1) σ.scopes.size τ.closures.size [] ρ =
        .error (.failure (.error e)) υ ∧
        marks υ.out = marks ρ.out + n := by
    by_cases hone : 1 < x
    · have hdepth : (ρ.scope σ.scopes.size).depth = (0 : Nat) := hself.depth
      have hleft : 0 + n + 1 = ⌈x⌉₊ := by omega
      obtain ⟨υ, hυ, hmarks⟩ := call_marks hself hone hdepth hself.made hleft
      exact ⟨_, υ, .inl rfl, hυ, hmarks⟩
    · -- not even the first call is allowed
      have hle : ⌈x⌉₊ ≤ 1 := Nat.ceil_le.mpr (by simpa using hone)
      obtain rfl : n = 0 := by omega
      exact ⟨_, ρ,
        .inr rfl, by rw [call_eq hself, bind_of_error
          (enter_eq_scopeDepth hself (not_lt.mp hone) _)], rfl⟩
  have hname : ρ.lookup σ.scopes.size "f" = .ok (.fn τ.closures.size) := lookup_global hself.name
  have hrun : runProgram ⟨l, console, 0⟩ (3 * n + 3) σ.scopes.size
      [.init "f" [.func endlessFunction], .exp selfCall] τ = .error (.failure (.error e)) υ := by
    rw [runProgram, runAll, bind_of_ok hinit, runAll]
    exact bind_of_error (exec_selfCall (evaluate_selfCall hname hcall)).2 _
  obtain ⟨out, hends, hcount⟩ := endsWith_stopped (b := ⟨3 * n + 3, 0⟩) hmake endsWith_selfCallText
      parse_selfCallText (.inr he) hrun
  exact ⟨out, hends, by rw [hcount, hmarks, hsame, hout, hn, Nat.add_sub_cancel]⟩

/-! ## Limits that are told apart -/

/-- The text of a program without statements shows whether an interpreter can be made at all. -/
theorem tooDeep_eq {t d : Option Rat} {σ : Store}
    (h : SameBehaviour (runFresh d t files "" console) (runFresh t d files "" console) σ) :
    tooDeep t 0 = tooDeep d 0 := by
  have hmade : ∀ {l l' : Option Rat}, tooDeep l' 0 = false →
      EndsWith (runFresh l l' files "" console) σ (none, σ.out) := by
    intro l l' hl'
    obtain ⟨τ, hmake, hout, _, _⟩ := makeGlobal_eq hl' σ
    refine ⟨⟨0, 0⟩, ?_⟩
    rw [runFresh_eq hmake (by decide +kernel) (p := []) rfl]
    show some (none, τ.out) = _
    rw [hout]
  have hunmade : ∀ {l l' : Option Rat}, tooDeep l' 0 = true →
      ¬EndsWith (runFresh l l' files "" console) σ (none, σ.out) := by
    rintro l l' hl' ⟨b, hb⟩
    rw [runFresh_of_tooDeep hl'] at hb
    cases hb
  cases ht : tooDeep t 0 with
  | true =>
    cases hd : tooDeep d 0 with
    | true => rfl
    | false => exact absurd ((h _).mpr (hmade hd)) (hunmade ht)
  | false =>
    cases hd : tooDeep d 0 with
    | true => exact absurd ((h _).mp (hmade ht)) (hunmade hd)
    | false => rfl

theorem pos_of_tooDeep {x : Rat} (h : tooDeep (some x) 0 = false) : 0 < x := by
  simpa [tooDeep] using h

/-- Two runs that come to the same and end have written the same. -/
theorem out_eq_of_sameBehaviour {run : Budget → Eval Unit} {σ : Store} {s out out' : String}
    {t d : Option Rat} (h : SameBehaviour run (runFresh t d files s console) σ)
    (hrun : EndsWith run σ (none, out)) (hfresh : EndsWith (runFresh t d files s console) σ
      (none, out')) : out = out' :=
  congrArg Prod.snd (((h _).mp hrun).unique hfresh)

/-- **Runs that come to the same on every text have limits that are alike.** -/
theorem sameWhole_of_sameBehaviour {t d : Option Rat} {σ : Store} (h : ∀ s, SameBehaviour
    (runFresh d t files s console) (runFresh t d files s console) σ) : SameWhole t d := by
  have hopen := tooDeep_eq (h "")
  have hnone : tooDeep none 0 = false := rfl
  cases t with
  | none =>
    cases d with
    | none => exact ⟨rfl, rfl⟩
    | some y =>
      -- the loop is stopped if the limits have changed places, and else it is not
      obtain ⟨out, hends, _⟩ := loop_ends (pos_of_tooDeep hopen.symm) hnone σ
      exact absurd ((h loopText _).mp hends) (loop_endless hopen.symm σ _)
  | some x =>
    cases d with
    | none =>
      obtain ⟨out, hends, _⟩ := loop_ends (pos_of_tooDeep hopen) hnone σ
      exact absurd ((h loopText _).mpr hends) (loop_endless hopen σ _)
    | some y =>
      rw [SameWhole.some_iff]
      cases hx : tooDeep (some x) 0 with
      | true =>
        -- both limits are at most zero, and so they count as zero
        have hx' : x ≤ 0 := by simpa [tooDeep] using hx
        have hy' : y ≤ 0 := by simpa [tooDeep] using hopen.symm.trans hx
        rw [Nat.ceil_eq_zero.mpr hx', Nat.ceil_eq_zero.mpr hy', Nat.floor_of_nonpos hx',
          Nat.floor_of_nonpos hy']
        exact ⟨rfl, rfl⟩
      | false =>
        have hy : tooDeep (some y) 0 = false := hopen ▸ hx
        have hxpos := pos_of_tooDeep hx
        have hypos := pos_of_tooDeep hy
        constructor
        · obtain ⟨out, hends, hmarks⟩ := selfCall_ends hxpos σ
          obtain ⟨out', hends', hmarks'⟩ := selfCall_ends hypos σ
          obtain rfl := out_eq_of_sameBehaviour (h selfCallText) hends hends'
          have := Nat.ceil_pos.mpr hxpos
          have := Nat.ceil_pos.mpr hypos
          omega
        · obtain ⟨out, hends, hmarks⟩ := loop_ends hypos hx σ
          obtain ⟨out', hends', hmarks'⟩ := loop_ends hxpos hy σ
          obtain rfl := out_eq_of_sameBehaviour (h loopText) hends hends'
          omega

end OwnLimits

/-- **A program that is run apart is held to the limits of its interpreter exactly if these are
alike.** Take an interpreter and a store. On every text the interpreter of its own comes to what an
interpreter newly made with the same limits comes to if, and only if, no whole number tells the
limit on loops and the limit on calls apart. -/
theorem runApart_keeps_limits_iff (i : Interpreter) (files : Table String)
    (console : Bool) (σ : Store) :
    (∀ s, SameBehaviour (fun b => i.runApart b files (.text s) console)
      (runFresh i.loopLimit i.depthLimit files s console) σ) ↔
      SameWhole i.loopLimit i.depthLimit := by
  simp only [runApart_text]
  constructor
  · intro h
    exact OwnLimits.sameWhole_of_sameBehaviour h
  · intro h s o
    constructor
    · rintro ⟨b, hb⟩
      exact ⟨b, AlikeLimits.observed_swap h.symm hb⟩
    · rintro ⟨b, hb⟩
      exact ⟨b, AlikeLimits.observed_swap h hb⟩

/-- Four rounds are within the limit of five on loops. Run apart, the loop is held to the limit of
two on calls. -/
theorem runApart_exchanges_limits : observed ((do
        let i ← Interpreter.make (some 5) (some 2) true
        i.runApart ⟨12, 9⟩ [] (.text "var i = 0; while (i < 4) \x7b i += 1; \x7d print('done');")
          false) empty) =
      some (none, "RuntimeError: looping for to long\n") ∧ observed ((do
        let i ← Interpreter.make (some 5) (some 2) true
        runFresh i.loopLimit i.depthLimit []
          "var i = 0; while (i < 4) \x7b i += 1; \x7d print('done');" false ⟨12, 9⟩) empty) =
      some (none, "done\n") := by
  decide +kernel

end LittleJ
