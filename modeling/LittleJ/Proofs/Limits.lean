import LittleJ.Interpreter
import LittleJ.Proofs.CoupledRun
import Mathlib.Algebra.Order.Ring.Rat
import Mathlib.Tactic.Linarith

/-!
# Looser limits

Limits are there to stop a program, never to change what it does. Take the same program in the same
store, once under some limits and once under looser ones. As long as the first run is not stopped by
a limit the two hold the same: same variables, same values, same output.

The one thing that cannot stay the same is the clock. A loop without a time limit does not look at
it, so the second run may read it less often. But then it has no time limit, and what the clock says
does not matter to it. If both runs have a time limit they read the clock at the same moments, and
the time that a loop takes is the same in both, whenever they were started.
-/

namespace LittleJ

open Store Statement

/-- The second limit allows all that the first does. Having no limit allows everything. -/
def Looser (l l' : Option Rat) : Prop :=
  ∀ y, l' = some y → ∃ x, l = some x ∧ x ≤ y

theorem Looser.refl (l : Option Rat) : Looser l l :=
  fun y h => ⟨y, h, le_rfl⟩

/-- A depth that the looser limit forbids is forbidden by the tighter one. -/
theorem Store.tooDeep_of_looser {l l' : Option Rat} (h : Looser l l') {depth : Int}
    (hdeep : tooDeep l' depth = true) : tooDeep l depth = true := by
  cases l' with
  | none => simp [tooDeep] at hdeep
  | some y =>
    obtain ⟨x, rfl, hle⟩ := h y rfl
    simp only [tooDeep, decide_eq_true_eq] at hdeep ⊢
    exact le_trans hle hdeep

/-- A time that is too long for the looser limit is too long for the tighter one, if as much time
has passed. -/
theorem Statement.overtime_of_le {x y : Rat} (h : x ≤ y) {start start' now now' : Nat} {δ : Int}
    (hstart : (start : Int) = start' + δ) (hnow : (now : Int) = now' + δ)
    (hover : overtime y start' now' = true) : overtime x start now = true := by
  simp only [overtime, decide_eq_true_eq] at hover ⊢
  have hs : (start : Rat) = start' + δ := by exact_mod_cast hstart
  have hn : (now : Rat) = now' + δ := by exact_mod_cast hnow
  linarith

namespace Limits

open Coupling

variable {t t' : Option Rat} {δ : Int} {σ₁ σ₂ : Store}

/-- The stores of two runs, of which the second has the looser limits and the time limit `t'`. Where
it has one, the clock of the first is ahead by `δ`. -/
structure Loosened (t' : Option Rat) (δ : Int) (σ₁ σ₂ : Store) : Prop where
  agree : σ₁.Agree σ₂
  limit : ∀ r, Looser (σ₁.scope r).limit (σ₂.scope r).limit
  clock : t'.isSome → (σ₁.clock : Int) = σ₂.clock + δ

/-- The first run may use up its budget, and may be stopped by a limit. -/
def excused (e : Stop) : Prop :=
  e = .exhausted ∨ ∃ x : Error, e = .failure (.error x) ∧ x.kind = .runtime

def coupling (t' : Option Rat) (δ : Int) : Coupling where
  rel := Loosened t' δ
  excused := excused
  brk := by simp [excused]
  ret := by simp [excused]

/-- The same change to a scope of both stores, one that does not look at limits. -/
theorem Loosened.modifyScope (h : Loosened t' δ σ₁ σ₂) (r : Nat) {f : Scope → Scope}
    (hvars : ∀ s s', s.vars = s'.vars → (f s).vars = (f s').vars)
    (hparent : ∀ s, (f s).parent = s.parent)
    (hdepth : ∀ s s', s.depth = s'.depth → (f s).depth = (f s').depth)
    (hlimit : ∀ s, (f s).limit = s.limit) :
    Loosened t' δ (σ₁.modifyScope r f) (σ₂.modifyScope r f) where
  agree := h.agree.modifyScope r hvars hparent hdepth
  limit s := by
    rw [scope_modifyScope, scope_modifyScope, h.agree.size]
    split
    · rw [hlimit, hlimit]; exact h.limit s
    · exact h.limit s
  clock := h.clock

theorem Loosened.putVar (h : Loosened t' δ σ₁ σ₂) (r : Nat) (name : String) (v : Value) :
    Loosened t' δ (σ₁.putVar r name v) (σ₂.putVar r name v) :=
  h.modifyScope r (fun s s' he => by simp only [he]) (fun _ => rfl) (fun _ _ he => he) fun _ => rfl

/-- The same new scope in both stores, but for its limit. -/
theorem Loosened.newScope (h : Loosened t' δ σ₁ σ₂) {s : Scope} {l l' : Option Rat}
    (hl : Looser l l') :
    Loosened t' δ (σ₁.newScope { s with limit := l }).2 (σ₂.newScope { s with limit := l' }).2 where
  agree := h.agree.newScope s l l'
  limit r := by
    rw [scope_newScope, scope_newScope, h.agree.size]
    split
    · exact hl
    · exact h.limit r
  clock := h.clock

/-- Code may run in every scope: nothing that a step does depends on limits or the clock. -/
theorem hosts (scope : Nat) : (coupling t' δ).Hosts scope fun _ => True where
  agree h := h.agree
  arrays _ h := ⟨{ h.agree with arrays := rfl }, h.limit, h.clock⟩
  objects _ h := ⟨{ h.agree with objects := rfl }, h.limit, h.clock⟩
  seed _ h := ⟨{ h.agree with seed := rfl }, h.limit, h.clock⟩
  out _ h := ⟨{ h.agree with out := rfl }, h.limit, h.clock⟩
  adopt r h := ⟨{ h.agree with closures := by simp [adopt, h.agree.closures] }, h.limit, h.clock⟩
  closure _ h :=
    ⟨{ h.agree with closures := by simp [newClosure, h.agree.closures] }, h.limit, h.clock⟩
  makeVar _ h := Loosened.putVar h _ _ _
  setVar _ h := Loosened.putVar h _ _ _

/-! ## Calls -/

theorem excused_runtime {e : Error} (h : e.kind = .runtime) : excused (.failure (.error e)) :=
  Or.inr ⟨e, rfl, h⟩

/-- The scope of a call is the same but for its limit, or the first run reached its limit. -/
theorem childScope_cases (h : Loosened t' δ σ₁ σ₂) (home : Nat) (params : List String)
    (args : List Value) : σ₁.childScope home params args = .error (.error .scopeDepth) ∨
    (∃ x, σ₁.childScope home params args = .error x ∧ σ₂.childScope home params args = .error x) ∨
    (∃ (s : Scope) (l l' : Option Rat), σ₁.childScope home params args = .ok { s with limit := l } ∧
      σ₂.childScope home params args = .ok { s with limit := l' } ∧ Looser l l') := by
  unfold childScope
  by_cases hlen : (params.length != args.length) = true
  · rw [if_pos hlen, if_pos hlen]
    exact Or.inr (Or.inl ⟨_, rfl, rfl⟩)
  · rw [if_neg hlen, if_neg hlen]
    dsimp only
    by_cases hdeep : tooDeep (σ₁.scope home).limit ((σ₁.scope home).depth + 1) = true
    · rw [if_pos hdeep]
      exact Or.inl rfl
    · have hdeep' : ¬tooDeep (σ₂.scope home).limit ((σ₂.scope home).depth + 1) = true := by
        rw [← h.agree.depth home]
        exact fun hd => hdeep (tooDeep_of_looser (h.limit home) hd)
      rw [if_neg hdeep, if_neg hdeep', ← h.agree.depth home]
      exact Or.inr (Or.inr ⟨⟨Table.putAll (params.zip args) [], some home, _, none⟩, _, _, rfl, rfl,
        h.limit home⟩)

theorem Loosened.setDepth (h : Loosened t' δ σ₁ σ₂) (r : Nat) (depth : Int) :
    Loosened t' δ (σ₁.setDepth r depth) (σ₂.setDepth r depth) :=
  h.modifyScope r (fun _ _ he => he) (fun _ => rfl) (fun _ _ _ => rfl) fun _ => rfl

/-- Entering a call: the second run reaches its limit only if the first does. -/
theorem enter (caller home : Nat) (params : List String) (args : List Value) :
    (coupling t' δ).Together (Statement.enter caller home params args)
      (Statement.enter caller home params args) := by
  intro σ₁ σ₂ h
  rw [enter_eq, enter_eq]
  rcases childScope_cases h home params args with
    he | ⟨x, he₁, he₂⟩ | ⟨s, l, l', he₁, he₂, hl⟩
  · rw [he]; exact .excused (excused_runtime rfl)
  · rw [he₁, he₂]; exact .failure h
  · rw [he₁, he₂]
    dsimp only
    have hnew : Loosened t' δ (σ₁.newScope { s with limit := l }).2
      (σ₂.newScope { s with limit := l' }).2 := Loosened.newScope h hl
    revert hnew
    generalize (σ₁.newScope { s with limit := l }).2 = τ₁
    generalize (σ₂.newScope { s with limit := l' }).2 = τ₂
    intro hnew
    -- both new scopes get the depth of the call, and only their limits differ
    rw [h.agree.size, hnew.agree.depth caller]
    have hset := hnew.setDepth σ₂.scopes.size ((τ₂.scope caller).depth + 1)
    revert hset
    generalize τ₁.setDepth σ₂.scopes.size ((τ₂.scope caller).depth + 1) = ρ₁
    generalize τ₂.setDepth σ₂.scopes.size ((τ₂.scope caller).depth + 1) = ρ₂
    intro hset
    by_cases hlim : ρ₁.atLimit σ₂.scopes.size = true
    · rw [if_pos hlim]; exact .excused (excused_runtime rfl)
    · have hlim' : ¬ρ₂.atLimit σ₂.scopes.size = true := by
        unfold atLimit at hlim ⊢
        rw [← hset.agree.depth]
        exact fun hd => hlim (tooDeep_of_looser (hset.limit _) hd)
      rw [if_neg hlim, if_neg hlim']
      exact .ok trivial hset

/-! ## Loops -/

theorem Loosened.tick (h : Loosened t' δ σ₁ σ₂) : Loosened t' δ (σ₁.tick).2 (σ₂.tick).2 where
  agree := { h.agree with }
  limit := h.limit
  clock ht := by
    have := h.clock ht
    simp only [Store.tick]
    push_cast
    omega

/-- If the second run has no time limit then the first may read the clock alone. -/
theorem Loosened.tick_left (h : Loosened none δ σ₁ σ₂) : Loosened none δ (σ₁.tick).2 σ₂ where
  agree := { h.agree with }
  limit := h.limit
  clock ht := by simp at ht

/-- Rounds of two loops that were started at the same moment, but for `δ`. -/
theorem round (hlimit : Looser t t') {start start' : Nat}
    (hstart : t'.isSome → (start : Int) = start' + δ) {m₁ m₂ : Eval Bool} {b₁ b₂ : Eval Unit}
    (hm : (coupling t' δ).Together m₁ m₂) (hb : (coupling t' δ).Together b₁ b₂) :
    (coupling t' δ).Together (Statement.round t start m₁ b₁) (Statement.round t' start' m₂ b₂) := by
  unfold Statement.round
  refine Together.bind hm fun b => Coupled.ite (fun _ => ?_) fun _ => Coupled.pure trivial
  refine Together.bind (Hosts.body hb) fun b => Coupled.ite (fun _ => ?_) fun _ =>
    Coupled.pure trivial
  intro σ₁ σ₂ h
  cases t' with
  | none =>
    -- the second loop has no limit and reads no clock
    cases t with
    | none => exact .ok trivial h
    | some x =>
      show (coupling none δ).Matches _
        ((if overtime x start σ₁.clock then Eval.raise .loopTime >>= fun _ => pure true
          else pure true : Eval Bool) (σ₁.tick).2) (.ok true σ₂)
      split
      · exact .excused (excused_runtime rfl)
      · exact .ok trivial h.tick_left
  | some y =>
    -- both loops read the clock, and the second is over time only if the first is
    obtain ⟨x, rfl, hle⟩ := hlimit y rfl
    show (coupling (some y) δ).Matches _
      ((if overtime x start σ₁.clock then Eval.raise .loopTime >>= fun _ => pure true
        else pure true : Eval Bool) (σ₁.tick).2)
      ((if overtime y start' σ₂.clock then Eval.raise .loopTime >>= fun _ => pure true
        else pure true : Eval Bool) (σ₂.tick).2)
    by_cases hover : overtime x start σ₁.clock = true
    · rw [if_pos hover]
      exact .excused (excused_runtime rfl)
    · have hover' : ¬overtime y start' σ₂.clock = true := fun ho =>
        hover (overtime_of_le hle (hstart rfl) (h.clock rfl) ho)
      rw [if_neg hover, if_neg hover']
      exact .ok trivial h.tick

/-! ## Whole runs -/

theorem throughout (ctx₁ ctx₂ : Context) (hlimit : Looser ctx₁.loopLimit ctx₂.loopLimit)
    (hecho : ctx₁.echo = ctx₂.echo) (hrounds : ctx₁.rounds ≤ ctx₂.rounds) :
    (coupling ctx₂.loopLimit δ).Throughout ctx₁ ctx₂ where
  hosts := hosts
  exhausted := Or.inl rfl
  echo := hecho
  enter := enter
  loop := by
    intro m₁ m₂ b₁ b₂ hm hb σ₁ σ₂ h
    exact Together.iterate (Or.inl rfl) (round hlimit h.clock hm hb) hrounds _ _ h.tick

end Limits

/-! ## The same end -/

/-- Two runs ended in the same way: both normally or with the same error, and with the same in their
stores. -/
inductive SameEnd : EStateM.Result Stop Store Unit → EStateM.Result Stop Store Unit → Prop where
  | ok {σ₁ σ₂ : Store} : σ₁.Agree σ₂ → SameEnd (.ok () σ₁) (.ok () σ₂)
  | error {e : Stop} {σ₁ σ₂ : Store} : σ₁.Agree σ₂ → SameEnd (.error e σ₁) (.error e σ₂)

/-- A store whose scopes all have the limit `d`, at a time `clock`. -/
def Store.under (σ : Store) (d : Option Rat) (clock : Nat) : Store :=
  { σ with scopes := σ.scopes.map fun s => { s with limit := d }, clock }

theorem Store.scope_under (σ : Store) (d : Option Rat) (clock r : Nat) : (σ.under d clock).scope r =
      if r < σ.scopes.size then { σ.scope r with limit := d } else default := by
  unfold under scope
  by_cases h : r < σ.scopes.size
  · simp [Array.getD, h]
  · simp [Array.getD, h]

theorem Limits.loosened_under {d d' : Option Rat} (hd : Looser d d') (t' : Option Rat) (σ : Store)
    (c c' : Nat) : Limits.Loosened t' ((c : Int) - c') (σ.under d c) (σ.under d' c') where
  agree :=
    { arrays := rfl
      objects := rfl
      closures := rfl
      slots := rfl
      seed := rfl
      out := rfl
      size := by simp [under]
      vars := fun r => by rw [scope_under, scope_under]; split <;> rfl
      parent := fun r => by rw [scope_under, scope_under]; split <;> rfl
      depth := fun r => by rw [scope_under, scope_under]; split <;> rfl }
  limit r := by
    rw [scope_under, scope_under]
    split
    · exact hd
    · exact Looser.refl _
  clock _ := by simp [under]

/-- **Limits do not change what a program does.** A run under a depth limit `d` and a time limit `t`
that is not stopped by one of them ends in the same way under looser limits, at whatever time it is
started: same output, same variables and values, and the same error if there is one. A limit that is
absent or zero is none. -/
theorem limits_transparent {d t d' t' : Option Rat}
    (hd : Looser (d.bind limitOf) (d'.bind limitOf))
    (ht : Looser (t.bind limitOf) (t'.bind limitOf)) (σ : Store) (clock clock' scope : Nat)
    (p : Program) (echo : Bool) (b b' : Budget) (hdepth : b.depth ≤ b'.depth)
    (hrounds : b.rounds ≤ b'.rounds) {r : EStateM.Result Stop Store Unit}
    (hrun : runProgram ⟨t.bind limitOf, echo, b.rounds⟩ b.depth scope p
      (σ.under (d.bind limitOf) clock) = r)
    (hended : ∀ τ, r ≠ .error .exhausted τ)
    (hunlimited : ∀ (e : Error) τ, r = .error (.failure (.error e)) τ → e.kind ≠ .runtime) :
    SameEnd r (runProgram ⟨t'.bind limitOf, echo, b'.rounds⟩ b'.depth scope p
      (σ.under (d'.bind limitOf) clock')) := by
  have hmatches := (Limits.throughout ⟨t.bind limitOf, echo, b.rounds⟩
    ⟨t'.bind limitOf, echo, b'.rounds⟩ ht rfl hrounds).runProgram hdepth scope p _ _
    (Limits.loosened_under hd _ σ clock clock')
  rw [hrun] at hmatches
  revert hmatches
  generalize runProgram _ _ _ _ _ = r'
  intro hmatches
  cases hmatches with
  | ok _ hrel => exact .ok hrel.agree
  | stop _ hrel => exact .error hrel.agree
  | excused he =>
    rcases he with rfl | ⟨e, rfl, hkind⟩
    · exact absurd rfl (hended _)
    · exact absurd hkind (hunlimited e _ rfl)

/-- A function that writes into a variable, called in a loop that is left after the first round. -/
def Limits.onceAround : Program :=
  [.init "f" [.func (.mk [] [.assign [.name "x"] [.val (.str "seen")], .ret [.val .null]] [])],
    .loop [.val (.bool true)] [.exp [.name "f", .sym .lparen, .sym .rparen], .brk]]

theorem limits_transparent_onceAround :
    ∃ (σ τ : Store), runProgram ⟨(some 5).bind limitOf, true, 3⟩ 9 0 Limits.onceAround
        (σ.under ((some 2).bind limitOf) 0) = .ok () τ ∧
      SameEnd (.ok () τ) (runProgram ⟨(some 0).bind limitOf, true, 3⟩ 9 0 Limits.onceAround
        (σ.under (none.bind limitOf) 7)) := by
  obtain ⟨τ, hrun⟩ : ∃ τ, runProgram ⟨(some 5).bind limitOf, true, 3⟩ 9 0 Limits.onceAround
      ((Store.empty.newScope ⟨[("x", .null)], none, 0, none⟩).2.under ((some 2).bind limitOf) 0) =
      .ok () τ := ⟨_, by with_unfolding_all rfl⟩
  have hd : Looser ((some 2).bind limitOf) (none.bind limitOf) := by simp [Looser]
  have ht : Looser ((some 5).bind limitOf) ((some 0).bind limitOf) := by simp [Looser, limitOf]
  exact ⟨_, τ, hrun, limits_transparent hd ht _ 0 7 0 Limits.onceAround true ⟨9, 3⟩ ⟨9, 3⟩
    (Nat.le_refl 9) (Nat.le_refl 3) hrun (fun _ => by simp) (fun _ _ => by simp)⟩

end LittleJ
