import LittleJ.Interpreter
import LittleJ.Proofs.CoupledRun
import LittleJ.Proofs.Housed
import Mathlib.Algebra.Order.Floor.Semiring
import Mathlib.Data.Rat.Floor

/-!
# Limited runs end

A program can go on forever in two ways only: by calls nested ever deeper, and by loops. A limit on
the depth of scopes stops the first, a limit on the time of loops the second; what is left is code
that gets shorter. Three measures say so:

* the *room* of a scope, by how much its depth is still below the limit. A call runs its body in a
  scope with less room;
* the *height* of a statement, which bounds how deeply evaluations nest before the next call. All
  functions that ever exist were written in the program or were there before, so one bound holds
  for all of them;
* the rounds of a loop. The clock goes up with each of them, so more rounds than the limit has
  units raise an error.

The fuel of a run bounds the nesting of its evaluations. Height plus room times the largest height
is therefore fuel enough, and no run with that much, and with more rounds than the limit has
units, uses up its budget.
-/

namespace LittleJ

open Stmt List Statement Store Eval Interpreter

variable {s : Stmt} {p : Program} {home scope k caller : Nat}

/-! ## Heights -/

mutual

/-- How high the code is that a token carries: only a function carries any. -/
def Token.height : Token → Nat
  | .func f => f.height
  | _ => 0

/-- How high the body of a function is. -/
def Function.height : Function → Nat
  | .mk _ body _ => Stmt.heights body

/-- The height of a statement: more than the nesting of evaluations that it takes apart from calls,
and no less than the height of any function written in it. -/
def Stmt.height : Stmt → Nat
  | .init _ e => Token.heights e + 3
  | .assign target e => Token.heights target + Token.heights e + 3
  | .ladder arms => Stmt.armHeights arms + 3
  | .loop condition code => Token.heights condition + Stmt.heights code + 3
  | .ret e => Token.heights e + 3
  | .brk => 3
  | .exp e => Token.heights e + 3

/-- The height of an expression: its length and all that its functions carry. -/
def Token.heights : List Token → Nat
  | [] => 0
  | t :: ts => t.height + Token.heights ts + 1

/-- The height of a block. -/
def Stmt.heights : List Stmt → Nat
  | [] => 0
  | s :: ss => s.height + Stmt.heights ss

/-- The height of the arms of a ladder. -/
def Stmt.armHeights : List (List Token × List Stmt) → Nat
  | [] => 0
  | (condition, code) :: arms =>
    Token.heights condition + Stmt.heights code + Stmt.armHeights arms

end

theorem Token.length_le_heights (e : List Token) : e.length ≤ Token.heights e := by
  induction e with
  | nil => simp [Token.heights]
  | cons t ts ih => simp only [Token.heights, length_cons]; omega

theorem Token.height_le_heights {f : Function} {e : List Token} (h : Token.func f ∈ e) :
    f.height ≤ Token.heights e := by
  induction e with
  | nil => simp at h
  | cons t ts ih =>
    simp only [Token.heights]
    rcases List.mem_cons.mp h with rfl | h
    · simp only [Token.height]; omega
    · have := ih h; omega

theorem Stmt.height_le_heights {p : List Stmt} (h : s ∈ p) : s.height ≤ Stmt.heights p := by
  induction p with
  | nil => simp at h
  | cons t ts ih =>
    simp only [Stmt.heights]
    rcases List.mem_cons.mp h with rfl | h
    · omega
    · have := ih h; omega

theorem Stmt.arm_le_armHeights {arm : List Token × List Stmt}
    {arms : List (List Token × List Stmt)} (h : arm ∈ arms) :
    Token.heights arm.1 + Stmt.heights arm.2 ≤ armHeights arms := by
  induction arms with
  | nil => simp at h
  | cons a arms ih =>
    obtain ⟨condition, code⟩ := a
    simp only [armHeights]
    rcases List.mem_cons.mp h with rfl | h
    · simp only; omega
    · have := ih h; omega

theorem Stmt.two_lt_height (s : Stmt) : 2 < s.height := by
  cases s <;> simp only [Stmt.height] <;> omega

/-- An expression of a statement is lower than the statement. -/
theorem Stmt.heights_lt_of_mem_exprs {e : Expr} (h : e ∈ s.exprs) :
    Token.heights e + 3 ≤ s.height := by
  cases s with
  | init name e' =>
    simp only [exprs, mem_singleton] at h
    subst h
    simp [Stmt.height]
  | assign target e' =>
    simp only [exprs, mem_cons, not_mem_nil, or_false] at h
    simp only [Stmt.height]
    rcases h with rfl | rfl <;> omega
  | ladder arms =>
    obtain ⟨arm, harm, rfl⟩ := List.mem_map.mp h
    have := arm_le_armHeights harm
    simp only [Stmt.height]; omega
  | loop condition code =>
    simp only [exprs, mem_singleton] at h
    subst h
    simp only [Stmt.height]; omega
  | ret e' =>
    simp only [exprs, mem_singleton] at h
    subst h
    simp [Stmt.height]
  | brk => simp [exprs] at h
  | exp e' =>
    simp only [exprs, mem_singleton] at h
    subst h
    simp [Stmt.height]

/-- A block of a statement is lower than the statement. -/
theorem Stmt.heights_lt_of_mem_blocks {b : Program} (h : b ∈ s.blocks) :
    Stmt.heights b + 3 ≤ s.height := by
  cases s with
  | ladder arms =>
    obtain ⟨arm, harm, rfl⟩ := List.mem_map.mp h
    have := arm_le_armHeights harm
    simp only [Stmt.height]; omega
  | loop condition code =>
    simp only [blocks, mem_singleton] at h
    subst h
    simp only [Stmt.height]; omega
  | _ => simp [blocks] at h

/-! ## Stores with a depth limit -/

namespace Store

/-- All scopes have the limit `d`, functions were made in scopes that exist, and no function is
higher than `H`. -/
structure Bounded (d : Rat) (H : Nat) (σ : Store) : Prop where
  limit : ∀ r, r < σ.scopes.size → (σ.scope r).limit = some d
  home : ∀ r h, (σ.closure r).home = some h → h < σ.scopes.size
  height : ∀ r, (σ.closure r).function.height ≤ H

variable {d : Rat} {H : Nat} {σ base : Store}

theorem Bounded.housed (h : Bounded d H σ) : Housed (· = some d) σ :=
  ⟨h.limit, h.home⟩

theorem Housed.bounded (h : Housed (· = some d) σ)
    (hheight : ∀ r, (σ.closure r).function.height ≤ H) :
    Bounded d H σ :=
  ⟨h.limit, h.home, hheight⟩

/-- The bound on heights may be raised. -/
theorem Bounded.mono {H' : Nat} (h : Bounded d H σ) (hH : H ≤ H') : Bounded d H' σ :=
  h.housed.bounded fun r => Nat.le_trans (h.height r) hH

theorem Bounded.height_of_eq {σ' : Store} (h : Bounded d H σ) (hc : σ'.closures = σ.closures)
    (r : Nat) : (σ'.closure r).function.height ≤ H := by
  unfold closure
  rw [hc]
  exact h.height r

/-- A change that leaves scopes and functions alone keeps the bounds. -/
theorem Bounded.of_eq {σ' : Store} (h : Bounded d H σ) (hs : σ'.scopes = σ.scopes)
    (hc : σ'.closures = σ.closures) : Bounded d H σ' :=
  (h.housed.of_eq hs hc).bounded (h.height_of_eq hc)

theorem Bounded.adopt (h : Bounded d H σ) (hh : home < σ.scopes.size) (r : Nat) :
    Bounded d H (σ.adopt home r) :=
  (h.housed.adopt hh r).bounded fun s => by rw [function_adopt]; exact h.height s

theorem Bounded.newClosure (h : Bounded d H σ) {f : Function} (hf : f.height ≤ H) :
    Bounded d H (σ.newClosure ⟨f, none⟩).2 := by
  refine (h.housed.newClosure f).bounded fun r => ?_
  rw [closure_newClosure]
  split
  · exact hf
  · exact h.height r

/-- A change to a scope that keeps its limit, such as setting a variable. -/
theorem Bounded.modifyScope (h : Bounded d H σ) (r : Nat) {f : Scope → Scope}
    (hf : ∀ s, (f s).limit = s.limit) : Bounded d H (σ.modifyScope r f) :=
  (h.housed.modifyScope r hf).bounded h.height

theorem Bounded.newScope (h : Bounded d H σ) {s : Scope} (hs : s.limit = some d) :
    (σ.newScope s).2.Bounded d H :=
  (h.housed.newScope hs).bounded h.height

end Store

/-! ## A run beside itself -/

namespace Termination

open Coupling

variable {d : Rat} {H : Nat} {base σ : Store}

/-- A run from `base` beside itself: the bounds hold all along, and nothing excuses that the budget
is used up. -/
def keeping (d : Rat) (H : Nat) (base : Store) : Coupling where
  rel σ₁ σ₂ := σ₁ = σ₂ ∧ σ₁.Bounded d H ∧ base.Grown σ₁
  excused _ := False
  brk := id
  ret _ := id

/-- Code runs in `scope` with room for `k` more calls inside each other. -/
structure Room (d : Rat) (base : Store) (scope k : Nat) : Prop where
  inStore : scope < base.scopes.size
  enough : d ≤ ((base.scope scope).depth : Rat) + k

theorem Room.grown (h : Room d base scope k) (hg : base.Grown σ) : Room d σ scope k where
  inStore := Nat.lt_of_lt_of_le h.inStore hg.size
  enough := by rw [hg.depth scope h.inStore]; exact h.enough

/-- Code in a scope that exists keeps the bounds. -/
theorem hosts (hs : scope < base.scopes.size) :
    (keeping d H base).Hosts scope (fun f => f.height ≤ H) := by
  refine .alone (I := fun σ => σ.Bounded d H ∧ base.Grown σ) (fun _ _ => Iff.rfl) ?_ ?_ ?_ ?_
  · rintro σ σ' hscopes hclosures hclock ⟨hb, hg⟩
    exact ⟨hb.of_eq hscopes hclosures, hg.of_eq hscopes hclock⟩
  · rintro σ r ⟨hb, hg⟩
    exact ⟨hb.adopt (Nat.lt_of_lt_of_le hs hg.size) r, hg.of_eq rfl rfl⟩
  · rintro σ f hf ⟨hb, hg⟩
    exact ⟨hb.newClosure hf, hg.of_eq rfl rfl⟩
  · rintro σ owner name v ⟨hb, hg⟩
    exact ⟨hb.modifyScope _ fun _ => rfl, hg.modifyScope _ (fun _ => rfl) fun _ => rfl⟩

/-- What was kept from a later store on was kept from an earlier one. -/
theorem matches_of_grown {α : Type} {P : α → Prop} {r₁ r₂ : EStateM.Result Stop Store α}
    (hg : base.Grown σ) (h : (keeping d H σ).Matches P r₁ r₂) :
    (keeping d H base).Matches P r₁ r₂ :=
  h.weaken ⟨fun hrel => ⟨hrel.1, hrel.2.1, hg.trans hrel.2.2⟩, id, id⟩

/-- How a run beside itself can end. -/
theorem ends_of_matches {α : Type} {P : α → Prop} {r : EStateM.Result Stop Store α}
    (h : (keeping d H base).Matches P r r) :
    (∃ a σ', r = .ok a σ' ∧ P a ∧ σ'.Bounded d H ∧ base.Grown σ') ∨
    (∃ e σ', r = .error e σ' ∧ e ≠ .exhausted ∧ σ'.Bounded d H ∧ base.Grown σ') := by
  cases r with
  | ok a σ' =>
    cases h with
    | ok ha hrel => exact Or.inl ⟨a, σ', rfl, ha, hrel.2⟩
  | error e σ' =>
    cases h with
    | stop he hrel => exact Or.inr ⟨e, σ', rfl, he, hrel.2⟩
    | excused he => exact he.elim

/-! ## Calls -/

/-- Entering a call gives a new scope, one deeper than the caller's and below the limit, or stops.
-/
theorem enter_cases (params : List String) (args : List Value) (hb : σ.Bounded d H)
    (hcaller : caller < σ.scopes.size) (hhome : home < σ.scopes.size) :
    (∃ e σ', enter caller home params args σ = .error e σ' ∧ e ≠ .exhausted ∧
      σ'.Bounded d H ∧ σ.Grown σ') ∨ (∃ scope σ', enter caller home params args σ = .ok scope σ' ∧
      σ'.Bounded d H ∧ σ.Grown σ' ∧ scope < σ'.scopes.size ∧ (σ'.scope scope).depth =
        (σ.scope caller).depth + 1 ∧
      ((σ'.scope scope).depth : Rat) < d) := by
  rcases Statement.enter_cases params args hb.housed hcaller hhome with
    ⟨e, σ', he, hne, hh, hg, hc⟩ | ⟨scope, σ', he, hh, hg, hc, hscope, hdepth, hopen⟩
  · exact Or.inl ⟨e, σ', he, hne, hh.bounded (hb.height_of_eq hc), hg⟩
  · refine Or.inr ⟨scope, σ', he, hh.bounded (hb.height_of_eq hc), hg, hscope, hdepth, ?_⟩
    unfold atLimit at hopen
    rw [hh.limit scope hscope] at hopen
    simpa [tooDeep] using hopen

/-- A call for which there is room runs its body with room for one call less. -/
theorem invoke (hroom : Room d σ caller k) (hb : σ.Bounded d H) (hhome : home < σ.scopes.size)
    (params : List String) (args : List Value) {code : Nat → Eval Unit}
    (hcode : ∀ scope σ' j, k = j + 1 → Room d σ' scope j →
      (keeping d H σ').Together (code scope) (code scope)) : (keeping d H σ).Matches (fun _ => True)
      ((do returned (code (← enter caller home params args))) σ)
      ((do returned (code (← enter caller home params args))) σ) := by
  rcases enter_cases params args hb hroom.inStore hhome with
    ⟨e, σ', he, hne, hb', hg⟩ | ⟨scope, σ', he, hb', hg, hscope, hdepth, hlt⟩
  · simp only [bind, EStateM.bind, he]
    exact .stop hne ⟨rfl, hb', hg⟩
  · simp only [bind, EStateM.bind, he]
    have henough := hroom.enough
    rw [hdepth] at hlt
    push_cast at hlt
    -- without room for a call the new depth would be at the limit
    obtain ⟨j, rfl⟩ : ∃ j, k = j + 1 := by
      refine ⟨k - 1, ?_⟩
      rcases Nat.eq_zero_or_pos k with rfl | hpos
      · simp only [Nat.cast_zero, add_zero] at henough
        linarith
      · omega
    have hroom' : Room d σ' scope j := by
      refine ⟨hscope, ?_⟩
      rw [hdepth]
      push_cast at henough ⊢
      linarith
    exact matches_of_grown hg
      (Hosts.returned (hcode scope σ' j rfl hroom') σ' σ' ⟨rfl, hb', Grown.refl σ'⟩)

/-! ## Loops -/

section

variable {l : Rat} {start : Nat} {m : Eval Bool} {b : Eval Unit}

/-- A round that goes on moves the clock, and leaves it within the limit. -/
theorem round_cases (l : Rat) (start : Nat) (hm : (keeping d H σ).Together m m)
    (hcode : ∀ σ', σ.Grown σ' → (keeping d H σ').Together b b) (hb : σ.Bounded d H) :
    (∃ σ', Statement.round (some l) start m b σ = .ok false σ' ∧ σ'.Bounded d H ∧ σ.Grown σ') ∨
    (∃ e σ', Statement.round (some l) start m b σ = .error e σ' ∧ e ≠ .exhausted ∧
      σ'.Bounded d H ∧ σ.Grown σ') ∨
    (∃ σ', Statement.round (some l) start m b σ = .ok true σ' ∧ σ'.Bounded d H ∧ σ.Grown σ' ∧
      σ.clock < σ'.clock ∧ (σ'.clock : Rat) ≤ start + l + 1) := by
  rcases ends_of_matches (hm σ σ ⟨rfl, hb, Grown.refl σ⟩) with
    ⟨holds, σ₁, hm₁, _, hb₁, hg₁⟩ | ⟨e, σ₁, hm₁, he, hb₁, hg₁⟩
  · cases holds with
    | false =>
      refine Or.inl ⟨σ₁, ?_, hb₁, hg₁⟩
      simp [Statement.round, bind, EStateM.bind, hm₁, pure, EStateM.pure]
    | true =>
      rcases ends_of_matches (Hosts.body (hcode σ₁ hg₁) σ₁ σ₁ ⟨rfl, hb₁, Grown.refl σ₁⟩) with
        ⟨ran, σ₂, hb₂', _, hb₂, hg₂⟩ | ⟨e, σ₂, hb₂', he, hb₂, hg₂⟩
      · cases ran with
        | false =>
          refine Or.inl ⟨σ₂, ?_, hb₂, hg₁.trans hg₂⟩
          simp [Statement.round, bind, EStateM.bind, hm₁, hb₂', pure, EStateM.pure]
        | true =>
          have hb₃ : (σ₂.tick).2.Bounded d H := hb₂.of_eq rfl rfl
          have hg₃ : σ.Grown (σ₂.tick).2 := (hg₁.trans hg₂).tick
          by_cases ho : overtime l start σ₂.clock
          · refine Or.inr (Or.inl ⟨.failure (.error .loopTime), (σ₂.tick).2, ?_, by simp, hb₃, hg₃⟩)
            simp only [Statement.round, bind, EStateM.bind, hm₁, hb₂', if_true, modifyGet_apply]
            simp only [tick, ho, if_true]
            rfl
          · refine Or.inr (Or.inr ⟨(σ₂.tick).2, ?_, hb₃, hg₃, ?_, ?_⟩)
            · simp only [Statement.round, bind, EStateM.bind, hm₁, hb₂', if_true, modifyGet_apply]
              simp only [tick, ho]
              rfl
            · exact Nat.lt_succ_of_le (hg₁.trans hg₂).clock
            · simp only [overtime, decide_eq_true_eq, not_lt] at ho
              simp only [tick, Nat.cast_add, Nat.cast_one]
              linarith
      · refine Or.inr (Or.inl ⟨e, σ₂, ?_, he, hb₂, hg₁.trans hg₂⟩)
        simp [Statement.round, bind, EStateM.bind, hm₁, hb₂']
  · refine Or.inr (Or.inl ⟨e, σ₁, ?_, he, hb₁, hg₁⟩)
    simp [Statement.round, bind, EStateM.bind, hm₁]

/-- **A loop ends** if it may have more rounds than the time limit has units left. -/
theorem iterate (hm : ∀ σ', base.Grown σ' → (keeping d H σ').Together m m)
    (hcode : ∀ σ', base.Grown σ' → (keeping d H σ').Together b b) (n : Nat) {σ : Store}
    (hb : σ.Bounded d H) (hg : base.Grown σ) (hclock : (σ.clock : Rat) ≤ start + l + 1)
    (hn : (start : Rat) + l + 1 < n + σ.clock) : (keeping d H base).Matches (fun _ => True)
      (Statement.iterate (Statement.round (some l) start m b) n σ)
      (Statement.iterate (Statement.round (some l) start m b) n σ) := by
  -- each round that goes on moves the clock by one at least, so the sum of rounds and clock does
  -- not fall
  induction n generalizing σ with
  | zero =>
    simp only [Nat.cast_zero, zero_add] at hn
    linarith
  | succ n ih =>
    rw [Statement.iterate]
    rcases round_cases l start (hm σ hg) (fun σ' h => hcode σ' (hg.trans h)) hb with
      ⟨σ', hr, hb', hg'⟩ | ⟨e, σ', hr, he, hb', hg'⟩ | ⟨σ', hr, hb', hg', hlt, hle⟩
    · simp only [bind, EStateM.bind, hr]
      exact .ok trivial ⟨rfl, hb', hg.trans hg'⟩
    · simp only [bind, EStateM.bind, hr]
      exact .stop he ⟨rfl, hb', hg.trans hg'⟩
    · simp only [bind, EStateM.bind, hr, if_true]
      refine ih hb' (hg.trans hg') hle ?_
      have : (σ.clock : Rat) + 1 ≤ σ'.clock := by exact_mod_cast hlt
      push_cast at hn
      linarith

theorem loop (hm : ∀ σ', base.Grown σ' → (keeping d H σ').Together m m)
    (hcode : ∀ σ', base.Grown σ' → (keeping d H σ').Together b b) (hl : 0 ≤ l) {rounds : Nat}
    (hrounds : l < rounds) : (keeping d H base).Together (Statement.loop (some l) rounds m b)
      (Statement.loop (some l) rounds m b) := by
  rintro σ _ ⟨rfl, hb, hg⟩
  have hg' : base.Grown (σ.tick).2 := hg.tick
  show (keeping d H base).Matches _
    (Statement.iterate (Statement.round (some l) σ.clock m b) rounds (σ.tick).2) _
  refine iterate hm hcode rounds (hb.of_eq rfl rfl) hg' ?_ ?_
  · simp only [tick, Nat.cast_add, Nat.cast_one]; linarith
  · simp only [tick, Nat.cast_add, Nat.cast_one]; linarith

end

/-! ## Whole runs -/

/-- Fuel for the height of the code, and for the largest height `H` at each call there is room for,
is enough at this much fuel. -/
structure Enough (d : Rat) (H : Nat) (ctx : Context) (fuel : Nat) : Prop where
  evaluate : ∀ base scope k e, Room d base scope k → e.length + 2 + k * H ≤ fuel →
    (keeping d H base).Together (evaluate ctx fuel scope e) (evaluate ctx fuel scope e)
  call : ∀ base caller k r args, Room d base caller k → k * H + 1 ≤ fuel →
    (keeping d H base).Together (call ctx fuel caller r args) (call ctx fuel caller r args)
  exec : ∀ base scope k s, Room d base scope k → s.height ≤ H → s.height + k * H ≤ fuel →
    (keeping d H base).Together (exec ctx fuel scope s) (exec ctx fuel scope s)

namespace Enough

variable {ctx : Context} {fuel : Nat}

theorem block (h : Enough d H ctx fuel) {base : Store} (hroom : Room d base scope k)
    (hH : Stmt.heights p ≤ H) (hfuel : Stmt.heights p + k * H ≤ fuel) :
    (keeping d H base).Together (runAll (LittleJ.exec ctx fuel scope) p)
      (runAll (LittleJ.exec ctx fuel scope) p) := by
  refine Hosts.runAll p fun s hs => ?_
  have := Stmt.height_le_heights hs
  exact h.exec base scope k s hroom (by omega) (by omega)

/-- A call uses up one call that there is room for, and with it the fuel for one height. -/
theorem call_succ (h : Enough d H ctx fuel) {base : Store} {r : Nat} {args : List Value}
    (hroom : Room d base caller k) (hfuel : k * H + 1 ≤ fuel + 1) :
    (keeping d H base).Together (LittleJ.call ctx (fuel + 1) caller r args)
      (LittleJ.call ctx (fuel + 1) caller r args) := by
  rw [LittleJ.call]
  refine Coupled.read ?_
  rintro σ _ ⟨rfl, hb, hg⟩
  -- all that matters of the function is its height and the scope it was made in
  have hheight := hb.height r
  have hhome := hb.home r
  generalize σ.closure r = f at hheight hhome
  by_cases hargs : (args.length != f.function.params.length) = true
  · simp only [hargs, if_true]
    refine Together.bind ((hosts hroom.inStore).shownArguments args) (fun _ => ?_) _ _ ⟨rfl, hb, hg⟩
    exact Coupled.throw_bind (by simp)
  · simp only [hargs, Bool.false_eq_true, if_false]
    cases hf : f.home with
    | none => exact Coupled.breakdown _ _ ⟨rfl, hb, hg⟩
    | some home =>
      obtain ⟨⟨params, body, source⟩, home'⟩ := f
      refine matches_of_grown hg (invoke (hroom.grown hg) hb (hhome home hf) _ _ ?_)
      rintro scope σ' j rfl hroom'
      rw [Nat.succ_mul] at hfuel
      simp only [Function.height] at hheight
      exact h.block (p := body) hroom' (by omega) (by omega)

/-- A statement hands less height to its expressions and blocks, and what a loop does in a round
ends. -/
theorem exec_succ (h : Enough d H ctx fuel) {l : Rat} (hlimit : ctx.loopLimit = some l) (hl : 0 ≤ l)
    (hrounds : l < ctx.rounds) {base : Store} (hroom : Room d base scope k) (hH : s.height ≤ H)
    (hfuel : s.height + k * H ≤ fuel + 1) :
    (keeping d H base).Together (LittleJ.exec ctx (fuel + 1) scope s)
      (LittleJ.exec ctx (fuel + 1) scope s) := by
  by_cases hs : ∃ condition code, s = .loop condition code
  · obtain ⟨condition, code, rfl⟩ := hs
    rw [LittleJ.exec, hlimit]
    simp only [Stmt.height] at hH hfuel
    refine Coupled.bind ((hosts hroom.inStore).load condition fun f hf => ?_) fun ts hts => ?_
    · have := Token.height_le_heights hf
      omega
    · have hlen := Token.length_le_heights condition
      refine loop (fun σ' hg => ?_) (fun σ' hg => ?_) hl hrounds
      · refine Together.bind (h.evaluate σ' scope k ts (hroom.grown hg) (by omega)) fun v => ?_
        exact Coupled.truth
      · exact h.block (hroom.grown hg) (by omega) (by omega)
  · refine (hosts hroom.inStore).exec (n := fuel - 1 - k * H) (fun e he => ?_)
      (fun r args => ?_) s (fun m b he => hs ⟨m, b, he⟩) rfl (fun e he => ?_)
      (fun e he f hf => ?_) fun b hb => ?_
    · exact h.evaluate base scope k e hroom (by omega)
    · have hpos := s.two_lt_height
      exact h.call base scope k r args hroom (by omega)
    · have hexpr := heights_lt_of_mem_exprs he
      have hlen := Token.length_le_heights e
      omega
    · have hexpr := heights_lt_of_mem_exprs he
      have hfunction := Token.height_le_heights hf
      omega
    · have hcode := heights_lt_of_mem_blocks hb
      exact h.block hroom (by omega) (by omega)

end Enough

section

variable {ctx : Context} {l : Rat} (hlimit : ctx.loopLimit = some l) (hl : 0 ≤ l)
  (hrounds : l < ctx.rounds)

include hlimit hl hrounds

/-- **Fuel for the height of the code, and for the largest height at each call there is room for, is
enough.** -/
theorem enough (fuel : Nat) : Enough d H ctx fuel := by
  induction fuel with
  | zero =>
    constructor
    · intro base scope k e _ hfuel
      omega
    · intro base caller k r args _ hfuel
      omega
    · intro base scope k s _ _ hfuel
      have hpos := s.two_lt_height
      omega
  | succ fuel ih =>
    constructor
    · intro base scope k e hroom hfuel
      refine (hosts hroom.inStore).evaluate (n := e.length) (fun e' he' => ?_) (fun r args => ?_) e
        (Nat.le_refl _)
      · exact ih.evaluate base scope k e' hroom (by omega)
      · exact ih.call base scope k r args hroom (by omega)
    · intro base caller k r args hroom hfuel
      exact ih.call_succ hroom hfuel
    · intro base scope k s hroom hH hfuel
      exact ih.exec_succ hlimit hl hrounds hroom hH hfuel

/-- A program run with enough fuel ends, and leaves the bounds as they were. -/
theorem runProgram (hroom : Room d σ scope k) (hb : σ.Bounded d H)
    (hp : Stmt.heights p ≤ H) {fuel : Nat} (hfuel : Stmt.heights p + k * H ≤ fuel) :
    (keeping d H σ).Matches (fun _ => True) (LittleJ.runProgram ctx fuel scope p σ)
      (LittleJ.runProgram ctx fuel scope p σ) := by
  refine Hosts.runAll p (fun s hs => ?_) σ σ ⟨rfl, hb, Grown.refl σ⟩
  have := Stmt.height_le_heights hs
  exact (enough hlimit hl hrounds fuel).exec σ scope k s hroom (by omega) (by omega)

end

end Termination

/-! ## Where programs are started -/

/-- The stores in which a program may be started under the depth limit `d`: one with a global scope
and the built-in functions in it, and what becomes of it when values of a host are added, scopes are
made inside others, and programs are run under some limit on loops. -/
inductive Reached (d : Rat) : Store → Prop where
  | global {scope : Nat} {σ : Store} : makeGlobal (some d) true empty = .ok scope σ → Reached d σ
  | natives {i : Interpreter} {values : List (String × Token)} {σ σ' : Store} :
      Reached d σ → i.addNatives values σ = .ok () σ' → Reached d σ'
  | child {scope inner : Nat} {σ σ' : Store} :
      Reached d σ → scope < σ.scopes.size → makeChild scope [] [] σ = .ok inner σ' → Reached d σ'
  | ran {scope fuel : Nat} {σ σ' : Store} {ctx : Context} {t : Rat} {p : Program} :
      Reached d σ → scope < σ.scopes.size → ctx.loopLimit = some t → 0 < t →
      (runProgram ctx fuel scope p σ = .ok () σ' ∨
        ∃ e, e ≠ .exhausted ∧ runProgram ctx fuel scope p σ = .error e σ') → Reached d σ'

/-- A sequence that comes to a value did so in both of its parts. -/
theorem Eval.ok_of_bind {α β : Type} {m : Eval α} {f : α → Eval β} {b : β} {σ σ' : Store}
    (h : (m >>= f) σ = .ok b σ') : ∃ a σ₁, m σ = .ok a σ₁ ∧ f a σ₁ = .ok b σ' := by
  simp only [bind, EStateM.bind] at h
  split at h
  · exact ⟨_, _, by assumption, h⟩
  · simp at h

namespace Termination

variable {d : Rat} {H : Nat} {σ σ' : Store}

theorem bounded_putVar (hb : σ.Bounded d H) (scope : Nat) (name : String) (v : Value) :
    (σ.putVar scope name v).Bounded d H :=
  hb.modifyScope _ fun _ => rfl

theorem bounded_empty : Store.empty.Bounded d 0 :=
  Store.housed_empty.bounded fun r => by rw [Store.closure_empty]; exact Nat.le_refl _

theorem bounded_builtins (fs : List (String × Native)) (scope : Nat) (hb : σ.Bounded d H) :
    (fs.foldl (fun σ p => σ.putVar scope p.1 (.native p.2)) σ).Bounded d H := by
  induction fs generalizing σ with
  | nil => exact hb
  | cons p fs ih => exact ih (bounded_putVar hb scope p.1 _)

theorem bounded_addBuiltins (hb : σ.Bounded d H) (h : addBuiltins scope σ = .ok () σ') :
    σ'.Bounded d H := by
  unfold addBuiltins at h
  obtain ⟨math, σ₁, hnew, h⟩ := ok_of_bind h
  cases hnew
  obtain ⟨_, σ₂, hput, h⟩ := ok_of_bind h
  cases hput
  cases h
  refine bounded_putVar (bounded_builtins Native.builtins scope ?_) _ _ _
  exact hb.of_eq rfl rfl

theorem bounded_makeGlobal (h : makeGlobal (some d) true empty = .ok scope σ) : σ.Bounded d 0 := by
  unfold makeGlobal globalScope at h
  split at h
  · obtain ⟨_, _, hraise, _⟩ := ok_of_bind h
    cases hraise
  · obtain ⟨s, _, hs, h⟩ := ok_of_bind h
    cases hs
    obtain ⟨global, σ₁, hnew, h⟩ := ok_of_bind h
    cases hnew
    obtain ⟨_, σ₂, hb, h⟩ := ok_of_bind h
    cases h
    exact bounded_addBuiltins (bounded_empty.newScope rfl) hb

/-- Makes a value of a host a variable. -/
def setNative (i : Interpreter) (name : String) : Token → Eval Unit
  | .val v =>
    if v.isProper then modify (·.putVar i.global name v)
    else Eval.breakdown (.internal ("illegal native " ++ name))
  | _ => Eval.breakdown (.internal ("illegal native " ++ name))

theorem addNatives_cons (i : Interpreter) (name : String) (t : Token)
    (rest : List (String × Token)) :
    i.addNatives ((name, t) :: rest) = (do
      if ((← get).scope i.global).vars.has name then
        modify (·.write ("WARNING!! Conflicting native name " ++ name))
      setNative i name t
      i.addNatives rest) := by
  cases t with
  | val v =>
    cases hv : v.isProper with
    | false => simp only [addNatives, setNative, hv]; rfl
    | true => simp only [addNatives, setNative, hv, if_true]
  | _ => rfl

theorem bounded_setNative {i : Interpreter} {name : String} {t : Token} (hb : σ.Bounded d H)
    (h : setNative i name t σ = .ok () σ') : σ'.Bounded d H := by
  unfold setNative at h
  split at h
  · split at h
    · cases h
      exact bounded_putVar hb _ _ _
    · cases h
  · cases h

theorem bounded_addNatives {i : Interpreter} (values : List (String × Token)) (hb : σ.Bounded d H)
    (h : i.addNatives values σ = .ok () σ') : σ'.Bounded d H := by
  induction values generalizing σ with
  | nil => cases h; exact hb
  | cons entry rest ih =>
    have hset : ∀ σ₁ : Store, σ₁.Bounded d H →
        (do setNative i entry.1 entry.2; i.addNatives rest : Eval Unit) σ₁ = .ok () σ' →
        σ'.Bounded d H := by
      intro σ₁ hb₁ h
      obtain ⟨_, σ₂, hset, h⟩ := ok_of_bind h
      exact ih (bounded_setNative hb₁ hset) h
    rw [addNatives_cons] at h
    obtain ⟨_, _, hget, h⟩ := ok_of_bind h
    cases hget
    dsimp only at h
    -- a name that is taken is reported, which changes no scope
    split at h
    · obtain ⟨_, _, hwrite, h⟩ := ok_of_bind h
      cases hwrite
      exact hset (σ.write _) (hb.of_eq rfl rfl) h
    · exact hset σ hb h

theorem bounded_makeChild {inner : Nat} (hb : σ.Bounded d H) (hs : scope < σ.scopes.size)
    (h : makeChild scope [] [] σ = .ok inner σ') : σ'.Bounded d H := by
  unfold makeChild at h
  obtain ⟨_, _, hget, h⟩ := ok_of_bind h
  cases hget
  obtain ⟨s, σ₁, hchild, h⟩ := ok_of_bind h
  cases hs' : σ.childScope scope [] [] with
  | error x => rw [hs'] at hchild; cases hchild
  | ok s' =>
    rw [hs'] at hchild
    cases hchild
    cases h
    exact hb.newScope (by rw [limit_of_childScope hs', hb.limit scope hs])

/-- Fuel and rounds that are enough for a program in a scope. -/
theorem exists_budget (hb : σ.Bounded d H) (hs : scope < σ.scopes.size) {t : Rat} (ht : 0 < t)
    (p : Program) :
    ∃ b : Budget, ∃ H' : Nat, ∀ (ctx : Context) (fuel : Nat),
      ctx.loopLimit = some t → b.rounds ≤ ctx.rounds → b.depth ≤ fuel →
      (keeping d H' σ).Matches (fun _ => True) (LittleJ.runProgram ctx fuel scope p σ)
        (LittleJ.runProgram ctx fuel scope p σ) := by
  let H' := max H (Stmt.heights p)
  let k := ⌈d - (σ.scope scope).depth⌉₊
  refine ⟨⟨Stmt.heights p + k * H', ⌊t⌋₊ + 1⟩, H', fun ctx fuel hlimit hrounds hfuel => ?_⟩
  have hroom : Room d σ scope k := by
    refine ⟨hs, ?_⟩
    have := Nat.le_ceil (d - ((σ.scope scope).depth : Rat))
    linarith
  have hlt : t < ctx.rounds := by
    have h₁ := Nat.lt_floor_add_one t
    have h₂ : ((⌊t⌋₊ + 1 : Nat) : Rat) ≤ ctx.rounds := by exact_mod_cast hrounds
    push_cast at h₂
    linarith
  exact runProgram hlimit ht.le hlt hroom (hb.mono (Nat.le_max_left _ _))
    (Nat.le_max_right _ _) hfuel

/-- A program that ended left a store with bounds, if it was started in one. -/
theorem bounded_ran (hb : σ.Bounded d H) {fuel : Nat} (hs : scope < σ.scopes.size)
    {ctx : Context} {t : Rat} (hlimit : ctx.loopLimit = some t) (ht : 0 < t)
    (h : LittleJ.runProgram ctx fuel scope p σ = .ok () σ' ∨
      ∃ e, e ≠ .exhausted ∧ LittleJ.runProgram ctx fuel scope p σ = .error e σ') :
      ∃ H', σ'.Bounded d H' := by
  obtain ⟨b, H', henough⟩ := exists_budget hb hs ht p
  -- the run did not use up its budget, so it is also a run under one that is enough
  have hmono : LittleJ.runProgram ⟨ctx.loopLimit, ctx.echo, max ctx.rounds b.rounds⟩
      (max fuel b.depth) scope p σ = LittleJ.runProgram ctx fuel scope p σ := by
    refine Budget.runProgram_mono (by rfl) (by rfl) (Nat.le_max_left _ _) (Nat.le_max_left _ _)
      fun σ'' hx => ?_
    rcases h with h | ⟨e, he, h⟩
    · rw [h] at hx; cases hx
    · rw [h] at hx; cases hx; exact he rfl
  have hends := ends_of_matches (henough ⟨ctx.loopLimit, ctx.echo, max ctx.rounds b.rounds⟩
    (max fuel b.depth) hlimit (Nat.le_max_right _ _) (Nat.le_max_right _ _))
  rw [hmono] at hends
  refine ⟨H', ?_⟩
  rcases hends with ⟨_, σ'', hr, _, hb', _⟩ | ⟨_, σ'', hr, _, hb', _⟩
  · rcases h with h | ⟨e, _, h⟩ <;> rw [h] at hr <;> cases hr
    exact hb'
  · rcases h with h | ⟨e, _, h⟩ <;> rw [h] at hr <;> cases hr
    exact hb'

/-- Every store in which a program may be started has bounds. -/
theorem bounded_reached (h : Reached d σ) : ∃ H, σ.Bounded d H := by
  induction h with
  | global h => exact ⟨0, bounded_makeGlobal h⟩
  | natives _ h ih => exact ih.imp fun _ hb => bounded_addNatives _ hb h
  | child _ hs h ih => exact ih.imp fun _ hb => bounded_makeChild hb hs h
  | ran _ hs hlimit ht h ih =>
    obtain ⟨H, hb⟩ := ih
    exact bounded_ran hb hs hlimit ht h

end Termination

/-- **No program runs forever under limits.** Whatever has been done in the store before, a program
that is started in one of its scopes, under a depth limit and a limit on loops, comes to an end:
some budget is enough, and all larger ones give the same end, which is a value or an error. -/
theorem limited_run_ends {d t : Rat} (ht : 0 < t) {σ : Store} (hσ : Reached d σ) {scope : Nat}
    (hs : scope < σ.scopes.size) (p : Program) (echo : Bool) :
    ∃ (b : Budget) (r : EStateM.Result Stop Store Unit), (∀ σ', r ≠ .error .exhausted σ') ∧
      ∀ b' : Budget, b.depth ≤ b'.depth → b.rounds ≤ b'.rounds →
        runProgram ⟨some t, echo, b'.rounds⟩ b'.depth scope p σ = r := by
  obtain ⟨H, hb⟩ := Termination.bounded_reached hσ
  obtain ⟨b, H', henough⟩ := Termination.exists_budget hb hs ht p
  have hends := Termination.ends_of_matches
    (henough ⟨some t, echo, b.rounds⟩ b.depth rfl (Nat.le_refl _) (Nat.le_refl _))
  have hnot :
      ∀ σ', runProgram ⟨some t, echo, b.rounds⟩ b.depth scope p σ ≠ .error .exhausted σ' := by
    intro σ' hx
    rcases hends with ⟨_, _, hr, _⟩ | ⟨_, _, hr, he, _⟩
    · rw [hx] at hr; cases hr
    · rw [hx] at hr; cases hr; exact he rfl
  exact ⟨b, _, hnot, fun b' hdepth hrounds =>
    Budget.runProgram_mono (by rfl) (by rfl) hrounds hdepth hnot⟩

/-- A function that calls itself in a loop without end, and a call of it. -/
def Termination.endless : Program :=
  let callAgain : Stmt := .exp [.name "f", .sym .lparen, .sym .rparen]
  [.init "f" [.func (.mk [] [.loop [.val (.bool true)] [callAgain]] [])], callAgain]

theorem limited_run_ends_endless : ∃ σ, makeGlobal (some 3) true empty = .ok 0 σ ∧
    0 < σ.scopes.size ∧
      ∃ (b : Budget) (r : EStateM.Result Stop Store Unit), (∀ σ', r ≠ .error .exhausted σ') ∧
        ∀ b' : Budget, b.depth ≤ b'.depth → b.rounds ≤ b'.rounds →
          runProgram ⟨some 2, false, b'.rounds⟩ b'.depth 0 Termination.endless σ = r := by
  obtain ⟨σ, hglobal, hs⟩ : ∃ σ, makeGlobal (some 3) true empty = .ok 0 σ ∧ 0 < σ.scopes.size :=
    ⟨_, rfl, by decide⟩
  exact ⟨σ, hglobal, hs, limited_run_ends (by norm_num)
    (.global hglobal) hs Termination.endless false⟩

end LittleJ
