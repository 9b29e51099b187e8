import LittleJ.Proofs.Gauges
import Mathlib.Logic.Relation

/-!
# Watching a run

A *watch* says what a run may have to do with: which numbers, arrays, objects and functions it may
hold, which scopes it may see and in which ones it may run, which literals it may make functions of
and which statements it may run. A store is *closed* if what may be held leads only to what may be
held, and if everything that has yet to be made may be held.

`Watch.Step` lists all that a run can do to the store, with what the watch allows of it. Closed
stores stay closed, so a run that starts with what it may hold never comes to hold anything else.
What is to be known of a run is then read off the steps: which entries can change, and how.

The watch also compares the run with the watched one. The two are the same, unless the alarm rings
or the gauge objects to a number that arithmetic made. If the alarm rings, the store then is one
that the run comes through. Nothing is said about the run after a number that the gauge objects to.
-/

namespace LittleJ

open Store EStateM Eval

/-! ## What a run may hold -/

/-- The built-in functions, and the operators that are not under a gauge, make numbers in `P` of
numbers in `P`. -/
structure Number.Closed (P : Float → Prop) : Prop where
  neg : ∀ {x}, P x → P (-x)
  remainder : ∀ {x y}, (y == 0.0) = false → P x → P y → P (Number.remainder x y)
  count : ∀ {n x}, Native.count n = .ok x → P x
  ordinal : ∀ c : Char, P (Float.ofNat c.toNat)
  unary : ∀ {f g x y}, Math.unary? f = some g → P x → g x = .ok y → P y
  atan2 : ∀ {x y z}, P x → P y → Math.real₂ Float.atan2 x y = .ok z → P z
  power : ∀ {x y z}, P x → P y → Math.power x y = .ok (some z) → P z
  random : ∀ n < Nat.pow 2 53, P (Number.ofParts false n (-53))
  constants : ∀ {name x}, (name, Value.num x) ∈ Math.constants → P x
  guest : P 7.0

theorem Number.closed_all : Number.Closed fun _ => True := by
  constructor <;> intros <;> trivial

/-- The parts of a store that a run may have to do with. -/
structure Region where
  number : Float → Prop
  numbers : Number.Closed number
  array : Nat → Prop
  object : Nat → Prop
  closure : Nat → Prop
  /-- The scopes whose variables may be seen and set. -/
  home : Nat → Prop
  /-- The scopes in which code may run. -/
  active : Nat → Prop
  home_of_active : ∀ {s}, active s → home s

namespace Region

variable (g : Region)

/-- A value may be held. -/
def value : Value → Prop
  | .num x => g.number x
  | .arr r => g.array r
  | .obj r => g.object r
  | .fn r => g.closure r
  | _ => True

/-- All values among tokens may be held. -/
def tokens (ts : List Token) : Prop :=
  ∀ v, Token.val v ∈ ts → g.value v

variable {g} {t : Token} {ts us : List Token} {v : Value}

theorem tokens_nil : g.tokens [] := by
  simp [tokens]

theorem tokens.of_subset (h : g.tokens ts) (hsub : us ⊆ ts) : g.tokens us :=
  fun v hv => h v (hsub hv)

theorem tokens.tail (h : g.tokens (t :: ts)) : g.tokens ts :=
  h.of_subset (List.subset_cons_self _ _)

theorem tokens.head (h : g.tokens (.val v :: ts)) : g.value v :=
  h v List.mem_cons_self

theorem tokens.cons (ht : ∀ v, t = .val v → g.value v) (h : g.tokens ts) : g.tokens (t :: ts) := by
  intro v hv
  rcases List.mem_cons.1 hv with hv | hv
  · exact ht v hv.symm
  · exact h v hv

theorem tokens.cons_val (hv : g.value v) (h : g.tokens ts) : g.tokens (.val v :: ts) :=
  h.cons fun _ he => Token.val.inj he ▸ hv

/-- A token may stay in front of others if it comes from a list that may be held. -/
theorem tokens.cons_of_mem (h : g.tokens ts) (hus : g.tokens us) (ht : t ∈ us) :
    g.tokens (t :: ts) :=
  h.cons fun v he => hus v (he ▸ ht)

theorem tokens.append (h : g.tokens ts) (h' : g.tokens us) : g.tokens (ts ++ us) :=
  fun v hv => (List.mem_append.1 hv).elim (h v) (h' v)

theorem tokens.reverse (h : g.tokens ts) : g.tokens ts.reverse :=
  h.of_subset fun _ => List.mem_reverse.1

theorem tokens_sym (y : Symbol) : g.tokens [.sym y] := by
  simp [tokens]

/-- Everything may be held. -/
def whole : Region where
  number _ := True
  numbers := Number.closed_all
  array _ := True
  object _ := True
  closure _ := True
  home _ := True
  active _ := True
  home_of_active _ := trivial

theorem value_whole (v : Value) : whole.value v := by
  cases v <;> trivial

theorem tokens_whole (ts : List Token) : whole.tokens ts :=
  fun v _ => value_whole v

end Region

/-- What a run may have to do with, and what is asked before each start and about each number that
arithmetic makes. -/
structure Watch extends Region where
  alarm : Alarm
  gauge : Gauge
  /-- A number that the gauge does not object to may be held. -/
  passed : ∀ {x}, gauge x = none → number x
  /-- The literals that functions may be made of. -/
  function : Function → Prop
  /-- The statements that may run. The flag says whether they are in a loop of their body. -/
  stmt : Bool → Stmt → Prop
  /-- Whether a `break` may stand outside of all loops of its body. -/
  loose : Prop
  body : ∀ {f}, function f → ∀ s ∈ f.body, stmt false s
  values : ∀ {b s}, stmt b s → ∀ e ∈ s.exprs, toRegion.tokens e
  functions : ∀ {b s}, stmt b s → ∀ e ∈ s.exprs, ∀ f, Token.func f ∈ e → function f
  arms : ∀ {b arms}, stmt b (.ladder arms) → ∀ a ∈ arms, ∀ s ∈ a.2, stmt b s
  code : ∀ {b condition code}, stmt b (.loop condition code) → ∀ s ∈ code, stmt true s
  jump : stmt false .brk → loose

namespace Watch

variable (g : Watch)

/-- What may be held leads only to what may be held, and whatever is made next may be held. -/
structure Closed (σ : Store) : Prop where
  arrays : ∀ {r}, g.array r → ∀ v ∈ σ.array r, g.value v
  objects : ∀ {r}, g.object r → ∀ e ∈ σ.object r, g.value e.2
  bodies : ∀ {r}, g.closure r → r < σ.closures.size →
      ∀ s ∈ (σ.closure r).function.body, g.stmt false s
  homes : ∀ {r h}, g.closure r → (σ.closure r).home = some h → g.home h
  vars : ∀ {s}, g.home s → ∀ e ∈ (σ.scope s).vars, g.value e.2
  parents : ∀ {s p}, g.home s → (σ.scope s).parent = some p → g.home p
  newArrays : ∀ {r}, σ.arrays.size ≤ r → g.array r
  newObjects : ∀ {r}, σ.objects.size ≤ r → g.object r
  newClosures : ∀ {r}, σ.closures.size ≤ r → g.closure r
  newScopes : ∀ {s}, σ.scopes.size ≤ s → g.active s

/-- A change that a run can make to the store. -/
inductive Step (σ : Store) : Store → Prop
  | newArray {xs : Array Value} : (∀ v ∈ xs, g.value v) → Step σ (σ.newArray xs).2
  | newObject {t : Table Value} : (∀ e ∈ t, g.value e.2) → Step σ (σ.newObject t).2
  | newClosure {f : Function} : g.function f → Step σ (σ.newClosure ⟨f, none⟩).2
  | modifyArray {r : Nat} {f : Array Value → Array Value} :
      g.array r → (∀ v ∈ f (σ.array r), g.value v) → Step σ (σ.modifyArray r f)
  | modifyObject {r : Nat} {f : Table Value → Table Value} :
      g.object r → (∀ e ∈ f (σ.object r), g.value e.2) → Step σ (σ.modifyObject r f)
  | adopt {scope r : Nat} : g.active scope → g.closure r → Step σ (σ.adopt scope r)
  /-- A new variable is made where code runs. -/
  | makeVar {scope : Nat} {name : String} {v : Value} :
      g.active scope → (σ.scope scope).vars.has name = false → g.value v →
      Step σ (σ.putVar scope name v)
  /-- A variable is set in a scope that has it. -/
  | setVar {scope : Nat} {name : String} {v : Value} :
      g.home scope → (σ.scope scope).vars.has name = true → g.value v →
      Step σ (σ.putVar scope name v)
  /-- An outermost scope. -/
  | global {limit : Option Rat} : Step σ (σ.newScope ⟨[], none, 0, limit⟩).2
  /-- A scope inside another one. -/
  | child {home : Nat} {params : List String} {args : List Value} {inner : Scope} :
      g.home home → (∀ v ∈ args, g.value v) → σ.childScope home params args = .ok inner →
      Step σ (σ.newScope inner).2
  /-- A scope inside another one, as a call makes it. -/
  | enter {caller home : Nat} {params : List String} {args : List Value} {inner : Scope} :
      g.active caller → g.home home → (∀ v ∈ args, g.value v) →
      σ.childScope home params args = .ok inner →
      Step σ ((σ.newScope inner).2.setDepth σ.scopes.size
        (((σ.newScope inner).2.scope caller).depth + 1))
  | newSlot {e : Expr} : Step σ (σ.newSlot e).2
  | setSlot {slot : Nat} {e : Expr} : Step σ (σ.setSlot slot e)
  | seed {n : Nat} : Step σ { σ with seed := n }
  | tick : Step σ σ.tick.2
  | write {s : String} : Step σ (σ.write s)

/-- Any number of changes. -/
abbrev Steps : Store → Store → Prop :=
  Relation.ReflTransGen g.Step

variable {g} {σ τ : Store}

/-! ## Closed stores stay closed -/

namespace Closed

theorem newArray {xs : Array Value} (h : g.Closed σ) (hxs : ∀ v ∈ xs, g.value v) :
    g.Closed (σ.newArray xs).2 :=
  { h with
    arrays := by
      intro r hr
      rw [array_newArray]
      split
      · exact hxs
      · exact h.arrays hr
    newArrays := by
      intro r hr
      simp only [Store.newArray, Array.size_push] at hr
      exact h.newArrays (by omega) }

theorem newObject {t : Table Value} (h : g.Closed σ) (ht : ∀ e ∈ t, g.value e.2) :
    g.Closed (σ.newObject t).2 :=
  { h with
    objects := by
      intro r hr
      rw [object_newObject]
      split
      · exact ht
      · exact h.objects hr
    newObjects := by
      intro r hr
      simp only [Store.newObject, Array.size_push] at hr
      exact h.newObjects (by omega) }

theorem newClosure {f : Function} (h : g.Closed σ) (hf : g.function f) :
    g.Closed (σ.newClosure ⟨f, none⟩).2 :=
  { h with
    bodies := by
      intro r hr hlt
      simp only [Store.newClosure, Array.size_push] at hlt
      rw [Store.closure_newClosure]
      split
      · exact g.body hf
      · exact h.bodies hr (by omega)
    homes := by
      intro r k hr hk
      rw [Store.closure_newClosure] at hk
      split at hk
      · simp at hk
      · exact h.homes hr hk
    newClosures := by
      intro r hr
      simp only [Store.newClosure, Array.size_push] at hr
      exact h.newClosures (by omega) }

theorem modifyArray {r : Nat} {f : Array Value → Array Value} (h : g.Closed σ)
    (hf : ∀ v ∈ f (σ.array r), g.value v) : g.Closed (σ.modifyArray r f) :=
  { h with
    arrays := by
      intro s hs
      rw [Store.array_modifyArray]
      split
      · rename_i hrs
        exact hrs.1 ▸ hf
      · exact h.arrays hs
    newArrays := by
      intro s hs
      simp only [Store.modifyArray, Array.size_modify] at hs
      exact h.newArrays hs }

theorem modifyObject {r : Nat} {f : Table Value → Table Value} (h : g.Closed σ)
    (hf : ∀ e ∈ f (σ.object r), g.value e.2) : g.Closed (σ.modifyObject r f) :=
  { h with
    objects := by
      intro s hs
      rw [Store.object_modifyObject]
      split
      · rename_i hrs
        exact hrs.1 ▸ hf
      · exact h.objects hs
    newObjects := by
      intro s hs
      simp only [Store.modifyObject, Array.size_modify] at hs
      exact h.newObjects hs }

theorem adopt {scope r : Nat} (h : g.Closed σ) (hs : g.active scope) : g.Closed (σ.adopt scope r) :=
  { h with
    bodies := by
      intro s hg hlt
      simp only [Store.adopt, Array.size_modify] at hlt
      rw [Store.function_adopt]
      exact h.bodies hg hlt
    homes := by
      intro s k hg hk
      rcases Store.home_adopt σ scope r s with he | he
      · exact h.homes hg (he ▸ hk)
      · obtain rfl := Option.some.inj (he.symm.trans hk)
        exact g.home_of_active hs
    newClosures := by
      intro s hle
      simp only [Store.adopt, Array.size_modify] at hle
      exact h.newClosures hle }

/-- A change to a scope that leaves it with what may be held, inside the same scope. -/
theorem modifyScope {r : Nat} {f : Scope → Scope} (h : g.Closed σ)
    (hvars : ∀ e ∈ (f (σ.scope r)).vars, e ∈ (σ.scope r).vars ∨ g.value e.2)
    (hparent : (f (σ.scope r)).parent = (σ.scope r).parent) : g.Closed (σ.modifyScope r f) :=
  { h with
    vars := by
      intro s hs e he
      rw [scope_modifyScope] at he
      split at he
      · rename_i hrs
        obtain rfl := hrs.1
        exact (hvars e he).elim (h.vars hs e) id
      · exact h.vars hs e he
    parents := by
      intro s p hs hp
      rw [scope_modifyScope] at hp
      split at hp
      · rename_i hrs
        obtain rfl := hrs.1
        exact h.parents hs (hparent ▸ hp)
      · exact h.parents hs hp
    newScopes := by
      intro s hs
      rw [size_modifyScope] at hs
      exact h.newScopes hs }

theorem putVar {scope : Nat} {name : String} {v : Value} (h : g.Closed σ) (hv : g.value v) :
    g.Closed (σ.putVar scope name v) := by
  refine h.modifyScope (fun e he => ?_) rfl
  rcases Table.mem_put he with hev | he
  · exact Or.inr (hev ▸ hv)
  · exact Or.inl he

theorem newScope {s : Scope} (h : g.Closed σ) (hvars : ∀ e ∈ s.vars, g.value e.2)
    (hparent : ∀ p, s.parent = some p → g.home p) : g.Closed (σ.newScope s).2 :=
  { h with
    vars := by
      intro r hr
      rw [Store.scope_newScope]
      split
      · exact hvars
      · exact h.vars hr
    parents := by
      intro r p hr hp
      rw [Store.scope_newScope] at hp
      split at hp
      · exact hparent p hp
      · exact h.parents hr hp
    newScopes := by
      intro r hr
      simp only [Store.newScope, Array.size_push] at hr
      exact h.newScopes (by omega) }

theorem setDepth {scope : Nat} {depth : Int} (h : g.Closed σ) : g.Closed (σ.setDepth scope depth) :=
  h.modifyScope (fun _ he => Or.inl he) rfl

end Closed

/-- The scope of a call holds the arguments, and stands inside the home of the function. -/
theorem closed_childScope {home : Nat} {params : List String} {args : List Value} {inner : Scope}
    (h : g.Closed σ) (hhome : g.home home) (hargs : ∀ v ∈ args, g.value v)
    (hinner : σ.childScope home params args = .ok inner) : g.Closed (σ.newScope inner).2 := by
  unfold childScope at hinner
  split at hinner
  · simp at hinner
  · dsimp only at hinner
    split at hinner
    · simp at hinner
    · obtain rfl := Except.ok.inj hinner
      refine h.newScope (fun e he => ?_) fun p hp => Option.some.inj hp ▸ hhome
      rcases Table.mem_putAll he with he | he
      · obtain ⟨p, hp, hpe⟩ := List.mem_map.1 he
        exact hpe ▸ hargs p.2 (List.of_mem_zip hp).2
      · simp at he

theorem Step.closed (h : g.Closed σ) (hstep : g.Step σ τ) : g.Closed τ := by
  cases hstep with
  | newArray hxs => exact h.newArray hxs
  | newObject ht => exact h.newObject ht
  | newClosure hf => exact h.newClosure hf
  | modifyArray _ hf => exact h.modifyArray hf
  | modifyObject _ hf => exact h.modifyObject hf
  | adopt hs _ => exact h.adopt hs
  | makeVar _ _ hv => exact h.putVar hv
  | setVar _ _ hv => exact h.putVar hv
  | global => exact h.newScope (by simp) (by simp)
  | child hhome hargs hinner => exact closed_childScope h hhome hargs hinner
  | enter _ hhome hargs hinner => exact (closed_childScope h hhome hargs hinner).setDepth
  | newSlot => exact { h with }
  | setSlot => exact { h with }
  | seed => exact { h with }
  | tick => exact { h with }
  | write => exact { h with }

theorem Closed.steps (h : g.Closed σ) (hsteps : g.Steps σ τ) : g.Closed τ := by
  induction hsteps with
  | refl => exact h
  | tail _ hstep ih => exact hstep.closed ih

/-- If everything may be held, all that matters are the bodies of functions. -/
theorem closed_of_whole (hg : g.toRegion = Region.whole)
    (h : ∀ r, r < σ.closures.size → ∀ s ∈ (σ.closure r).function.body, g.stmt false s) :
    g.Closed σ := by
  have value : ∀ v, g.value v := fun v => hg ▸ Region.value_whole v
  exact
    { arrays := fun _ v _ => value v
      objects := fun _ e _ => value e.2
      bodies := fun _ hr => h _ hr
      homes := fun _ _ => hg ▸ trivial
      vars := fun _ e _ => value e.2
      parents := fun _ _ => hg ▸ trivial
      newArrays := fun _ => hg ▸ trivial
      newObjects := fun _ => hg ▸ trivial
      newClosures := fun _ => hg ▸ trivial
      newScopes := fun _ => hg ▸ trivial }

/-- Everything is allowed. -/
def free : Watch where
  toRegion := Region.whole
  alarm _ _ := none
  gauge := .silent
  passed _ := trivial
  function _ := True
  stmt _ _ := True
  loose := True
  body _ _ _ := trivial
  values _ e _ := Region.tokens_whole e
  functions _ _ _ _ _ := trivial
  arms _ _ _ _ _ := trivial
  code _ _ _ := trivial
  jump _ := trivial

theorem closed_free (σ : Store) : free.Closed σ :=
  closed_of_whole rfl fun _ _ _ _ => trivial

/-! ## Runs under a watch -/

variable (g)

/-- The store of a moment of a run from `σ` on. -/
def Reached (σ τ : Store) : Prop :=
  g.Closed τ ∧ g.Steps σ τ

/-- A start that the watch allows. -/
def admits : Task → Prop
  | .evaluate scope e => g.active scope ∧ g.tokens e
  | .call caller r args => g.active caller ∧ g.closure r ∧ ∀ v ∈ args, g.value v
  | .exec scope s => g.active scope ∧ ∃ b, g.stmt b s

/-- The ways in which a run may stop. `place` says where: in an expression, or in a body, and then
whether in a loop of it. -/
def leaves (place : Option Bool) : Stop → Prop
  | .failure _ => True
  | .exhausted => True
  | .ret v => place.isSome ∧ g.value v
  | .brk => place = some true ∨ g.loose

variable {α β : Type} {place : Option Bool} {P : α → Prop} {Q : β → Prop} {ρ : Store}

/-- A run from `σ` on ended as the watch allows, and `P` holds of its result. -/
inductive Fine (place : Option Bool) (P : α → Prop) (σ : Store) : Result Stop Store α → Prop
  | ok {a : α} {τ : Store} : P a → g.Reached σ τ → Fine place P σ (.ok a τ)
  | stop {e : Stop} {τ : Store} : g.leaves place e → g.Reached σ τ → Fine place P σ (.error e τ)

/-- The gauge objects to no number. -/
def Quiet : Prop :=
  g.gauge = .silent

/-- How a watched run ends beside the run itself: just as well, or because the alarm rang at a
moment that the run comes through, or because the gauge objected. Only under a quiet gauge can
something be said about the run after that. -/
inductive Ends (place : Option Bool) (P : α → Prop) (σ : Store) :
    Result Stop Store α → Result Stop Store α → Prop
  | same {r : Result Stop Store α} : g.Fine place P σ r → Ends place P σ r r
  | rang {t : Task} {τ : Store} {f : Failure} {r : Result Stop Store α} :
      g.admits t → g.Reached σ τ → g.alarm t τ = some f → (g.Quiet → g.Fine place P τ r) →
      Ends place P σ (.error (.failure f) τ) r
  | objected {x : Float} {τ : Store} {f : Failure} {r : Result Stop Store α} :
      g.gauge x = some f → g.Reached σ τ → Ends place P σ (.error (.failure f) τ) r

/-- A watched computation and the computation itself keep to the watch, and `P` holds of the result.
-/
def Keeps (place : Option Bool) (P : α → Prop) (m₁ m₂ : Eval α) : Prop :=
  ∀ σ, g.Closed σ → g.Ends place P σ (m₁ σ) (m₂ σ)

/-- Nothing is said about the result. -/
abbrev Runs (place : Option Bool) (m₁ m₂ : Eval α) : Prop :=
  g.Keeps place (fun _ => True) m₁ m₂

variable {g}

theorem Reached.refl (h : g.Closed σ) : g.Reached σ σ :=
  ⟨h, .refl⟩

theorem Reached.trans (h : g.Reached σ τ) (h' : g.Reached τ ρ) : g.Reached σ ρ :=
  ⟨h'.1, h.2.trans h'.2⟩

theorem Reached.step (h : g.Closed σ) (hstep : g.Step σ τ) : g.Reached σ τ :=
  ⟨hstep.closed h, .single hstep⟩

theorem leaves_mono {e : Stop} (b : Bool) (h : g.leaves none e) : g.leaves (some b) e := by
  cases e with
  | failure f => trivial
  | ret v => exact absurd h.1 (by simp)
  | brk => exact Or.inr (h.resolve_left (by simp))
  | exhausted => trivial

namespace Fine

variable {r : Result Stop Store α}

theorem trans (h : g.Reached σ τ) (h' : g.Fine place P τ r) : g.Fine place P σ r := by
  cases h' with
  | ok ha hr => exact .ok ha (h.trans hr)
  | stop he hr => exact .stop he (h.trans hr)

theorem mono {P' : α → Prop} {place' : Option Bool} (h : g.Fine place P σ r) (hP : ∀ a, P a → P' a)
    (hplace : ∀ e, g.leaves place e → g.leaves place' e) : g.Fine place' P' σ r := by
  cases h with
  | ok ha hr => exact .ok (hP _ ha) hr
  | stop he hr => exact .stop (hplace _ he) hr

end Fine

namespace Ends

variable {r₁ r₂ : Result Stop Store α}

/-- Whether or not the alarm rang, the run itself ended as the watch allows. -/
theorem fine (h : g.Ends place P σ r₁ r₂) (hg : g.Quiet) : g.Fine place P σ r₂ := by
  cases h with
  | same h => exact h
  | rang _ hr _ h => exact (h hg).trans hr
  | objected hx _ => exact absurd hx (by simp [show g.gauge = .silent from hg, Gauge.silent])

theorem trans (h : g.Reached σ τ) (h' : g.Ends place P τ r₁ r₂) : g.Ends place P σ r₁ r₂ := by
  cases h' with
  | same h' => exact .same (h'.trans h)
  | rang ht hr hf h' => exact .rang ht (h.trans hr) hf h'
  | objected hx hr => exact .objected hx (h.trans hr)

theorem mono {P' : α → Prop} {place' : Option Bool} (h : g.Ends place P σ r₁ r₂)
    (hP : ∀ a, P a → P' a) (hplace : ∀ e, g.leaves place e → g.leaves place' e) :
    g.Ends place' P' σ r₁ r₂ := by
  cases h with
  | same h => exact .same (h.mono hP hplace)
  | rang ht hr hf h => exact .rang ht hr hf fun hg => (h hg).mono hP hplace
  | objected hx hr => exact .objected hx hr

end Ends

/-! ## Taking computations apart -/

namespace Keeps

theorem mono {m₁ m₂ : Eval α} {P' : α → Prop} {place' : Option Bool} (h : g.Keeps place P m₁ m₂)
    (hP : ∀ a, P a → P' a) (hplace : ∀ e, g.leaves place e → g.leaves place' e) :
    g.Keeps place' P' m₁ m₂ :=
  fun σ hσ => (h σ hσ).mono hP hplace

/-- What may stop an expression may stop the body it stands in. -/
theorem inBody {m₁ m₂ : Eval α} (h : g.Keeps none P m₁ m₂) : g.Keeps place P m₁ m₂ := by
  cases place with
  | none => exact h
  | some b => exact h.mono (fun _ => id) fun _ => leaves_mono b

theorem pure {a : α} (h : P a) : g.Keeps place P (Pure.pure a) (Pure.pure a) :=
  fun _ hσ => .same (.ok h (.refl hσ))

/-- What follows a first step keeps to the watch if it does so after every result. -/
theorem bind {m₁ m₂ : Eval α} {f₁ f₂ : α → Eval β} (hm : g.Keeps place P m₁ m₂)
    (hf : ∀ a, P a → g.Keeps place Q (f₁ a) (f₂ a)) : g.Keeps place Q (m₁ >>= f₁) (m₂ >>= f₂) := by
  intro σ hσ
  have h := hm σ hσ
  simp only [Bind.bind, EStateM.bind]
  revert h
  generalize m₁ σ = r₁
  generalize m₂ σ = r₂
  intro h
  cases h with
  | same h =>
    cases h with
    | ok ha hr => exact (hf _ ha _ hr.1).trans hr
    | stop he hr => exact .same (.stop he hr)
  | rang ht hτ hrang h =>
    refine .rang ht hτ hrang fun hg => ?_
    cases h hg with
    | ok ha hr => exact ((hf _ ha _ hr.1).fine hg).trans hr
    | stop he hr => exact .stop he hr
  | objected hx hr => exact .objected hx hr

theorem throw {e : Stop} (he : g.leaves place e) :
    g.Keeps place P (MonadExcept.throw e) (MonadExcept.throw e) :=
  fun _ hσ => .same (.stop he (.refl hσ))

theorem raise {e : Error} : g.Keeps place P (raise e) (raise e) :=
  Keeps.throw trivial

theorem breakdown {f : Fault} : g.Keeps place P (breakdown f) (breakdown f) :=
  Keeps.throw trivial

theorem ite {p : Prop} [Decidable p] {m₁ m₂ n₁ n₂ : Eval α} (ht : p → g.Keeps place P m₁ m₂)
    (hf : ¬p → g.Keeps place P n₁ n₂) :
    g.Keeps place P (if p then m₁ else n₁) (if p then m₂ else n₂) := by
  by_cases h : p
  · rw [if_pos h, if_pos h]; exact ht h
  · rw [if_neg h, if_neg h]; exact hf h

/-- A check that raises an error if it fails, and what follows if it does not. -/
theorem check {p : Prop} [Decidable p] {e : Error} {f₁ f₂ : PUnit → Eval β}
    (h : g.Keeps place Q (f₁ ⟨⟩) (f₂ ⟨⟩)) :
    g.Keeps place Q (if p then Eval.raise e >>= f₁ else f₁ ⟨⟩)
      (if p then Eval.raise e >>= f₂ else f₂ ⟨⟩) :=
  .ite (fun _ => .bind (P := fun _ => False) .raise fun _ h => h.elim) fun _ => h

/-- A check that breaks down if it fails, and what follows if it does not. -/
theorem ensure {p : Prop} [Decidable p] {x : Fault} {f₁ f₂ : PUnit → Eval β}
    (h : g.Keeps place Q (f₁ ⟨⟩) (f₂ ⟨⟩)) :
    g.Keeps place Q (if p then Eval.breakdown x >>= f₁ else f₁ ⟨⟩)
      (if p then Eval.breakdown x >>= f₂ else f₂ ⟨⟩) :=
  .ite (fun _ => .bind (P := fun _ => False) .breakdown fun _ h => h.elim) fun _ => h

/-- Reading the store: what follows may use that it is closed. -/
theorem read {f₁ f₂ : Store → Eval α} (h : ∀ σ, g.Closed σ → g.Ends place P σ (f₁ σ σ) (f₂ σ σ)) :
    g.Keeps place P (get >>= f₁) (get >>= f₂) :=
  h

theorem modifyAll {f : Store → Store} (h : ∀ σ, g.Closed σ → g.Steps σ (f σ)) :
    g.Runs place (modify f : Eval PUnit) (modify f) :=
  fun σ hσ => .same (.ok trivial ⟨hσ.steps (h σ hσ), h σ hσ⟩)

theorem modify {f : Store → Store} (h : ∀ σ, g.Closed σ → g.Step σ (f σ)) :
    g.Runs place (modify f : Eval PUnit) (modify f) :=
  .modifyAll fun σ hσ => .single (h σ hσ)

theorem make {f : Store → Nat × Store} {P : Nat → Prop}
    (h : ∀ σ, g.Closed σ → P (f σ).1 ∧ g.Step σ (f σ).2) :
    g.Keeps place P (Eval.make f) (Eval.make f) :=
  fun σ hσ => .same (.ok (h σ hσ).1 (.step hσ (h σ hσ).2))

theorem ofFault_of {r : Except Fault α} (h : ∀ a, r = .ok a → P a) :
    g.Keeps place P (ofFault r) (ofFault r) := by
  cases r with
  | ok a => exact .pure (h a rfl)
  | error f => exact .breakdown

theorem ofFault {r : Except Fault α} : g.Runs place (ofFault r) (ofFault r) :=
  .ofFault_of fun _ _ => trivial

theorem ofError_of {r : Except Error α} (h : ∀ a, r = .ok a → P a) :
    g.Keeps place P (ofError r) (ofError r) := by
  cases r with
  | ok a => exact .pure (h a rfl)
  | error e => exact .raise

theorem ofFailure_of {r : Except Failure α} (h : ∀ a, r = .ok a → P a) :
    g.Keeps place P (ofFailure r) (ofFailure r) := by
  cases r with
  | ok a => exact .pure (h a rfl)
  | error f => exact .throw trivial

theorem truth {v : Value} : g.Runs place (Eval.truth v) (Eval.truth v) := by
  unfold Eval.truth
  cases v.truth? with
  | some b => exact .pure trivial
  | none => exact .breakdown

end Keeps

end Watch

end LittleJ
