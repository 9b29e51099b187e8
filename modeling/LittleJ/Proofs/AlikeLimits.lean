import LittleJ.Proofs.Limits
import LittleJ.Proofs.Outcome
import Mathlib.Data.Rat.Floor

/-!
# Limits that cannot be told apart

Depths and times are whole numbers, so of a limit only its place among the whole numbers matters. A
depth is refused once it reaches the limit, and a loop once its time has passed the limit. What
counts is therefore which whole numbers lie at or above the limit, and which lie above it. Two
limits that are alike in both respects stop every program at the same moment and in the same way.
-/

namespace LittleJ

open Store Statement Interpreter

/-- No whole number tells two limits apart. Either there is none in both cases; or both are there
and the same whole numbers are reached by both, and passed by both. What lies below zero counts as
zero. -/
def SameWhole (l l' : Option Rat) : Prop :=
  l.map Nat.ceil = l'.map Nat.ceil ∧ l.map Nat.floor = l'.map Nat.floor

instance (l l' : Option Rat) : Decidable (SameWhole l l') :=
  inferInstanceAs (Decidable (_ ∧ _))

namespace SameWhole

variable {l l' : Option Rat} {x y : Rat}

theorem symm (h : SameWhole l l') : SameWhole l' l :=
  ⟨h.1.symm, h.2.symm⟩

theorem some_iff : SameWhole (some x) (some y) ↔ ⌈x⌉₊ = ⌈y⌉₊ ∧ ⌊x⌋₊ = ⌊y⌋₊ := by
  simp [SameWhole]

theorem none_or_some (h : SameWhole l l') :
    l = none ∧ l' = none ∨ ∃ x y, l = some x ∧ l' = some y ∧ ⌈x⌉₊ = ⌈y⌉₊ ∧ ⌊x⌋₊ = ⌊y⌋₊ := by
  cases l with
  | none =>
    cases l' with
    | none => exact .inl ⟨rfl, rfl⟩
    | some y => simp [SameWhole] at h
  | some x =>
    cases l' with
    | none => simp [SameWhole] at h
    | some y => exact .inr ⟨x, y, rfl, rfl, some_iff.1 h⟩

/-- The outermost scope is refused under both or under neither. -/
theorem tooDeep_zero (h : SameWhole l l') : Store.tooDeep l 0 = Store.tooDeep l' 0 := by
  rcases h.none_or_some with ⟨rfl, rfl⟩ | ⟨x, y, rfl, rfl, hceil, _⟩
  · rfl
  · have hx := Nat.ceil_eq_zero (a := x)
    have hy := Nat.ceil_eq_zero (a := y)
    simp only [Store.tooDeep, decide_eq_decide, Int.cast_zero]
    rw [← hx, ← hy, hceil]

/-- A depth is refused under both or under neither. Limits that allow an outermost scope are above
zero, so this holds of depths below zero as well. -/
theorem tooDeep (h : SameWhole l l') (hopen : Store.tooDeep l 0 = false) (depth : Int) :
    Store.tooDeep l depth = Store.tooDeep l' depth := by
  have hopen' : Store.tooDeep l' 0 = false := h.tooDeep_zero ▸ hopen
  rcases h.none_or_some with ⟨rfl, rfl⟩ | ⟨x, y, rfl, rfl, hceil, _⟩
  · rfl
  · simp only [Store.tooDeep, decide_eq_false_iff_not, Int.cast_zero, not_le] at hopen hopen'
    simp only [Store.tooDeep, decide_eq_decide]
    rcases Int.lt_or_le depth 0 with hneg | hpos
    · have hcast : (depth : Rat) < 0 := by exact_mod_cast hneg
      constructor
      · intro hle
        linarith
      · intro hle
        linarith
    · obtain ⟨n, rfl⟩ := Int.eq_ofNat_of_zero_le hpos
      rw [Int.cast_natCast, ← Nat.ceil_le, ← Nat.ceil_le, hceil]

/-- A time is too long under both or under neither. -/
theorem overtime (hfloor : ⌊x⌋₊ = ⌊y⌋₊) (hx : 0 < x) (hy : 0 < y) (start now : Nat) :
    Statement.overtime x start now = Statement.overtime y start now := by
  simp only [Statement.overtime, decide_eq_decide]
  rcases Nat.lt_or_ge start now with hlt | hle
  · obtain ⟨k, rfl⟩ : ∃ k, now = start + k := ⟨now - start, by omega⟩
    have hk : ((start + k : Nat) : Rat) - start = (k : Rat) := by push_cast; ring
    rw [hk, ← Nat.floor_lt hx.le, ← Nat.floor_lt hy.le, hfloor]
  · have hcast : (now : Rat) ≤ start := by exact_mod_cast hle
    constructor
    · intro h
      linarith
    · intro h
      linarith

end SameWhole

/-! ## Two runs under such limits -/

namespace AlikeLimits

open Coupling

variable {σ₁ σ₂ : Store}

/-- Two stores that hold the same and stand at the same time, and whose limits forbid the same
depths. -/
structure Alike (σ₁ σ₂ : Store) : Prop where
  agree : σ₁.Agree σ₂
  limit : ∀ r depth, Store.tooDeep (σ₁.scope r).limit depth = Store.tooDeep (σ₂.scope r).limit depth
  clock : σ₁.clock = σ₂.clock

/-- Two runs whose stores are alike, and of which only the first may use up its budget. -/
def coupling : Coupling :=
  { Budget.coupling with rel := Alike }

theorem alike_refl (σ : Store) : Alike σ σ where
  agree := ⟨rfl, rfl, rfl, rfl, rfl, rfl, rfl, fun _ => rfl, fun _ => rfl, fun _ => rfl⟩
  limit _ _ := rfl
  clock := rfl

theorem Alike.modifyScope (h : Alike σ₁ σ₂) (r : Nat) {f : Scope → Scope}
    (hvars : ∀ s s', s.vars = s'.vars → (f s).vars = (f s').vars)
    (hparent : ∀ s, (f s).parent = s.parent) (hdepth : ∀ s s', s.depth = s'.depth → (f s).depth =
      (f s').depth) (hlimit : ∀ s, (f s).limit = s.limit) :
    Alike (σ₁.modifyScope r f) (σ₂.modifyScope r f) where
  agree := h.agree.modifyScope r hvars hparent hdepth
  limit s depth := by
    rw [scope_modifyScope, scope_modifyScope, h.agree.size]
    split
    · rw [hlimit, hlimit]
      exact h.limit s depth
    · exact h.limit s depth
  clock := h.clock

theorem Alike.putVar (h : Alike σ₁ σ₂) (r : Nat) (name : String) (v : Value) :
    Alike (σ₁.putVar r name v) (σ₂.putVar r name v) :=
  h.modifyScope r (fun s s' he => by simp only [he]) (fun _ => rfl) (fun _ _ he => he) fun _ => rfl

theorem Alike.setDepth (h : Alike σ₁ σ₂) (r : Nat) (depth : Int) :
    Alike (σ₁.setDepth r depth) (σ₂.setDepth r depth) :=
  h.modifyScope r (fun _ _ he => he) (fun _ => rfl) (fun _ _ _ => rfl) fun _ => rfl

theorem Alike.newScope (h : Alike σ₁ σ₂) (s : Scope) {l l' : Option Rat}
    (hl : ∀ depth, Store.tooDeep l depth = Store.tooDeep l' depth) :
    Alike (σ₁.newScope { s with limit := l }).2 (σ₂.newScope { s with limit := l' }).2 where
  agree := h.agree.newScope s l l'
  limit r depth := by
    rw [scope_newScope, scope_newScope, h.agree.size]
    split
    · exact hl depth
    · exact h.limit r depth
  clock := h.clock

theorem Alike.tick (h : Alike σ₁ σ₂) : Alike (σ₁.tick).2 (σ₂.tick).2 where
  agree := { h.agree with }
  limit := h.limit
  clock := by rw [Store.tick, Store.tick, h.clock]

theorem hosts (scope : Nat) : coupling.Hosts scope fun _ => True where
  agree h := h.agree
  arrays _ h := ⟨{ h.agree with arrays := rfl }, h.limit, h.clock⟩
  objects _ h := ⟨{ h.agree with objects := rfl }, h.limit, h.clock⟩
  seed _ h := ⟨{ h.agree with seed := rfl }, h.limit, h.clock⟩
  out _ h := ⟨{ h.agree with out := rfl }, h.limit, h.clock⟩
  adopt r h := ⟨{ h.agree with closures := by simp [adopt, h.agree.closures] }, h.limit, h.clock⟩
  closure _ h :=
    ⟨{ h.agree with closures := by simp [newClosure, h.agree.closures] }, h.limit, h.clock⟩
  makeVar _ h := Alike.putVar h _ _ _
  setVar _ h := Alike.putVar h _ _ _

theorem shares : coupling.Shares where
  excused h := h
  hosts := hosts
  putVar _ _ _ h := Alike.putVar h _ _ _

/-- Entering a call: both runs reach their limit, or neither does. -/
theorem enter (caller home : Nat) (params : List String) (args : List Value) :
    coupling.Together (Statement.enter caller home params args)
    (Statement.enter caller home params args) := by
  intro σ₁ σ₂ h
  rw [enter_eq, enter_eq]
  unfold childScope
  by_cases hlen : (params.length != args.length) = true
  · rw [if_pos hlen, if_pos hlen]
    exact .failure h
  rw [if_neg hlen, if_neg hlen]
  dsimp only
  rw [← h.agree.depth home, h.limit home]
  by_cases hdeep : Store.tooDeep (σ₂.scope home).limit ((σ₁.scope home).depth + 1) = true
  · rw [if_pos hdeep, if_pos hdeep]
    exact .failure h
  rw [if_neg hdeep, if_neg hdeep]
  dsimp only
  have hnew :=
    Alike.newScope h ⟨Table.putAll (params.zip args) [], some home, (σ₁.scope home).depth + 1, none⟩
    (h.limit home)
  dsimp only at hnew
  revert hnew
  generalize (σ₁.newScope ⟨_, _, _, (σ₁.scope home).limit⟩).2 = τ₁
  generalize (σ₂.newScope ⟨_, _, _, (σ₂.scope home).limit⟩).2 = τ₂
  intro hnew
  -- both new scopes get the depth of the call
  rw [h.agree.size, hnew.agree.depth caller]
  have hset := hnew.setDepth σ₂.scopes.size ((τ₂.scope caller).depth + 1)
  revert hset
  generalize τ₁.setDepth σ₂.scopes.size ((τ₂.scope caller).depth + 1) = ρ₁
  generalize τ₂.setDepth σ₂.scopes.size ((τ₂.scope caller).depth + 1) = ρ₂
  intro hset
  have hlimit : ρ₁.atLimit σ₂.scopes.size = ρ₂.atLimit σ₂.scopes.size := by
    unfold atLimit
    rw [hset.limit, hset.agree.depth]
  rw [hlimit]
  by_cases hlim : ρ₂.atLimit σ₂.scopes.size = true
  · rw [if_pos hlim, if_pos hlim]
    exact .failure hset
  · rw [if_neg hlim, if_neg hlim]
    exact .ok trivial hset

/-- A loop reads the clock, or does not, in both runs; and both are over time, or neither is. -/
theorem round {l l' : Option Rat} (h : SameWhole l l') (hopen : Store.tooDeep l 0 = false)
    (start : Nat) {m₁ m₂ : Eval Bool} {b₁ b₂ : Eval Unit} (hm : coupling.Together m₁ m₂)
    (hb : coupling.Together b₁ b₂) :
    coupling.Together (Statement.round l start m₁ b₁) (Statement.round l' start m₂ b₂) := by
  have hopen' : Store.tooDeep l' 0 = false := h.tooDeep_zero ▸ hopen
  unfold Statement.round
  refine Together.bind hm fun b => Coupled.ite (fun _ => ?_) fun _ => Coupled.pure trivial
  refine Together.bind (Hosts.body hb) fun b => Coupled.ite (fun _ => ?_) fun _ =>
    Coupled.pure trivial
  rcases h.none_or_some with ⟨rfl, rfl⟩ | ⟨x, y, rfl, rfl, _, hfloor⟩
  · exact Coupled.pure trivial
  · simp only [Store.tooDeep, decide_eq_false_iff_not, Int.cast_zero, not_le] at hopen hopen'
    intro σ₁ σ₂ hrel
    show coupling.Matches _
      ((if Statement.overtime x start σ₁.clock then Eval.raise .loopTime >>= fun _ => pure true
        else pure true : Eval Bool) (σ₁.tick).2)
      ((if Statement.overtime y start σ₂.clock then Eval.raise .loopTime >>= fun _ => pure true
        else pure true : Eval Bool) (σ₂.tick).2)
    rw [hrel.clock, SameWhole.overtime hfloor hopen hopen']
    by_cases hover : Statement.overtime y start σ₂.clock = true
    · rw [if_pos hover]
      exact .failure hrel.tick
    · rw [if_neg hover]
      exact .ok trivial hrel.tick

theorem throughout {ctx₁ ctx₂ : Context} (h : SameWhole ctx₁.loopLimit ctx₂.loopLimit)
    (hopen : Store.tooDeep ctx₁.loopLimit 0 = false) (hecho : ctx₁.echo = ctx₂.echo)
    (hrounds : ctx₁.rounds = ctx₂.rounds) : coupling.Throughout ctx₁ ctx₂ where
  hosts := hosts
  exhausted := rfl
  echo := hecho
  enter := enter
  loop := by
    intro m₁ m₂ b₁ b₂ hm hb σ₁ σ₂ hrel
    have hstart : σ₁.clock = σ₂.clock := hrel.clock
    show coupling.Matches _ (iterate (Statement.round _ σ₁.clock m₁ b₁) _ (σ₁.tick).2)
      (iterate (Statement.round _ σ₂.clock m₂ b₂) _ (σ₂.tick).2)
    rw [hstart]
    exact Together.iterate rfl (round h hopen _ hm hb) (Nat.le_of_eq hrounds) _ _ hrel.tick

/-- The global scopes of two interpreters. -/
theorem globalScope {d d' : Option Rat} (h : SameWhole d d') :
    coupling.Together (Eval.ofError (Store.globalScope d) >>= fun s => Eval.make (·.newScope s))
      (Eval.ofError (Store.globalScope d') >>= fun s => Eval.make (·.newScope s)) := by
  unfold Store.globalScope
  rw [← h.tooDeep_zero]
  by_cases hdeep : Store.tooDeep d 0 = true
  · rw [if_pos hdeep, if_pos hdeep]
    exact Coupled.throw_bind (by simp)
  · rw [if_neg hdeep, if_neg hdeep]
    refine Coupled.make fun σ₁ σ₂ hrel => ⟨hrel.agree.size, ?_⟩
    exact Alike.newScope hrel ⟨[], none, 0, none⟩ (h.tooDeep (Bool.eq_false_iff.mpr hdeep))

/-- What an interpreter comes to under two limits that are alike, it comes to when they change
places. -/
theorem observed_swap {t d : Option Rat} (h : SameWhole t d) {files : Table String} {s : String}
    {console : Bool} {b : Budget} {σ : Store} {o : Option Stop × String}
    (ho : observed (runFresh t d files s console b σ) = some o) :
    observed (runFresh d t files s console b σ) = some o := by
  cases hopen : Store.tooDeep t 0 with
  | true =>
    -- neither interpreter can be made
    rw [runFresh_of_tooDeep (h.tooDeep_zero ▸ hopen)] at ho
    rw [runFresh_of_tooDeep hopen]
    exact ho
  | false =>
    have hthroughout : coupling.Throughout ⟨t, console, b.rounds⟩ ⟨d, console, b.rounds⟩ :=
      throughout h hopen rfl rfl
    have hboth := shares.runFresh (shares.makeGlobal (globalScope h.symm)) hthroughout
        (Nat.le_refl _) files s
    exact shares.observed (hboth σ σ (alike_refl σ)) ho

end AlikeLimits

end LittleJ
