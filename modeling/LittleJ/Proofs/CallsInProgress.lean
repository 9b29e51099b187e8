import LittleJ.Proofs.CoupledTree
import LittleJ.Proofs.Housed
import Mathlib.Data.Rat.Cast.Defs

/-!
# Calls in progress

A call runs its body in a scope of its own. That scope lies inside the one where the function was
made, and has the limit of that one, but its depth is one more than the caller's. So the depth of
the scope where code runs counts the calls in progress, whatever scopes the functions were made in:
a function made deep inside other calls is no deeper than its caller says. A scope that comes to its
limit is refused before anything runs in it, which bounds the calls in progress.

To see them, a run is *counted*. Each layer knows how many calls there are around it, hands this on
to its evaluations and statements and one more to the body of a call, and tells it to an alarm
before each start.
-/

namespace LittleJ

open Layer

/-- The scope in which something is about to be done. -/
def Task.scope : Task → Nat
  | .evaluate scope _ => scope
  | .call caller _ _ => caller
  | .exec scope _ => scope

namespace Layer

/-- Running with a budget inside a number of calls, every start watched by an alarm that is told
this number. -/
def counting (alarm : Nat → Alarm) (ctx : Context) : Nat → Nat → Layer
  | 0, calls => spent.watched (alarm calls)
  | fuel + 1, calls =>
    let here := (counting alarm ctx fuel calls).above ctx
    -- what a call runs is its body, and that has one more call around it
    let inside := (counting alarm ctx fuel (calls + 1)).above ctx
    watched (alarm calls) ⟨here.evaluate, inside.call, here.exec⟩

/-- Counting by itself changes nothing. -/
theorem counting_silent (ctx : Context) (fuel calls : Nat) :
    counting (fun _ _ _ => none) ctx fuel calls = within ctx fuel := by
  induction fuel generalizing calls with
  | zero =>
    rw [within_zero]
    rfl
  | succ fuel ih =>
    rw [counting, ih calls, ih (calls + 1), within_succ]
    rfl

/-- The ways to run a program in a scope, as functions of the layer below: its statements are read
afresh, or a tree of it was kept. -/
inductive RunsIn (ctx : Context) (scope : Nat) : (Layer → Eval Unit) → Prop
  | fresh (p : Program) : RunsIn ctx scope fun l => runAll (l.exec scope) p
  | kept (ks : List Kept) : RunsIn ctx scope fun l => l.execTree ctx scope ks

end Layer

/-- Two runs end in the same way, or both use up their budget. -/
def EndAlike {α : Type} (r₁ r₂ : EStateM.Result Stop Store α) : Prop :=
  r₁ = r₂ ∨ (∃ τ, r₁ = .error .exhausted τ) ∧ ∃ τ, r₂ = .error .exhausted τ

/-- Runs with equal stores end alike if either of them may use up its budget, and neither has
another excuse. -/
theorem Coupling.Matches.endAlike {c : Coupling} {α : Type} {P : α → Prop}
    {r₁ r₂ : EStateM.Result Stop Store α} (h : c.Matches P r₁ r₂) (h' : c.Matches P r₂ r₁)
    (hrel : ∀ {σ₁ σ₂}, c.rel σ₁ σ₂ → σ₁ = σ₂) (hexcused : ∀ {e}, c.excused e → e = .exhausted) :
    EndAlike r₁ r₂ := by
  cases h with
  | ok _ hσ => exact Or.inl (by rw [hrel hσ])
  | stop _ hσ => exact Or.inl (by rw [hrel hσ])
  | excused he =>
    cases hexcused he
    cases h' with
    | stop _ hσ => exact Or.inl (by rw [hrel hσ])
    | excused he' =>
      cases hexcused he'
      exact Or.inr ⟨⟨_, rfl⟩, _, rfl⟩

/-- A property of the moments of a run, and of the calls in progress then, holds always: an alarm
that is silent wherever the property holds does not ring. An alarm that rings ends the run with a
failure, so a run that uses up its budget was not ended by one. -/
def AlwaysCounted {α : Type} (ctx : Context) (fuel : Nat) (run : Layer → Eval α) (σ : Store)
    (P : Nat → Task → Store → Prop) : Prop :=
  ∀ alarm : Nat → Alarm, (∀ calls t τ, P calls t τ → alarm calls t τ = none) →
    EndAlike (run (counting alarm ctx fuel 0) σ) (run (within ctx fuel) σ)

theorem Layer.RunsIn.together {c : Coupling} {ctx : Context} {scope : Nat} {run : Layer → Eval Unit}
    (h : RunsIn ctx scope run) {l₁ l₂ : Layer} (hl : c.Alongside scope l₁ l₂)
    (hc : c.Tends scope ctx ctx) : c.Together (run l₁) (run l₂) := by
  cases h with
  | fresh p => exact hl.runAll p
  | kept ks => exact hl.execTree hc ks

namespace CallsInProgress

open Coupling

variable {L : Option Rat → Prop} {s : Int} {calls : Nat} {base σ : Store} {ctx : Context}
  {a b : Nat → Alarm}

/-! ## A run beside itself -/

/-- A run from `base` under two alarms: the stores are equal all along, and housed. -/
def housing (L : Option Rat → Prop) (base : Store) : Coupling :=
  { Budget.coupling with rel := fun σ₁ σ₂ => σ₁ = σ₂ ∧ σ₁.Housed L ∧ base.Grown σ₁ }

theorem hosts {scope : Nat} (hs : scope < base.scopes.size) :
    (housing L base).Hosts scope fun _ => True := by
  refine .alone (I := fun σ => σ.Housed L ∧ base.Grown σ) (fun _ _ => Iff.rfl) ?_ ?_ ?_ ?_
  · rintro σ σ' hscopes hclosures hclock ⟨hh, hg⟩
    exact ⟨hh.of_eq hscopes hclosures, hg.of_eq hscopes hclock⟩
  · rintro σ r ⟨hh, hg⟩
    exact ⟨hh.adopt (Nat.lt_of_lt_of_le hs hg.size) r, hg.of_eq rfl rfl⟩
  · rintro σ f _ ⟨hh, hg⟩
    exact ⟨hh.newClosure f, hg.of_eq rfl rfl⟩
  · rintro σ owner name v ⟨hh, hg⟩
    exact ⟨hh.modifyScope _ fun _ => rfl, hg.modifyScope _ (fun _ => rfl) fun _ => rfl⟩

theorem tick : (housing L base).Together (modifyGet Store.tick) (modifyGet Store.tick) := by
  rintro σ _ ⟨rfl, hh, hg⟩
  exact .ok trivial ⟨rfl, hh.of_eq rfl rfl, hg.tick⟩

theorem tends {scope : Nat} (hs : scope < base.scopes.size) (ctx : Context) :
    (housing L base).Tends scope ctx ctx where
  hosts := hosts hs
  setSlot slot ts := by
    refine Coupled.modify ?_
    rintro σ _ ⟨rfl, hh, hg⟩
    exact ⟨rfl, hh.of_eq rfl rfl, hg.of_eq rfl rfl⟩
  echo := rfl
  loop hm hb := Together.loop rfl tick _ hm hb (Nat.le_refl _)

/-- What holds from a later store on holds from an earlier one. -/
theorem matches_of_grown {α : Type} {P : α → Prop} {r₁ r₂ : EStateM.Result Stop Store α}
    (hg : base.Grown σ) (h : (housing L σ).Matches P r₁ r₂) : (housing L base).Matches P r₁ r₂ :=
  h.weaken ⟨fun hrel => ⟨hrel.1, hrel.2.1, hg.trans hrel.2.2⟩, id, id⟩

/-- Runs that end alike whichever of them may use up its budget. -/
theorem endAlike_of_matches {α : Type} {P : α → Prop} {r₁ r₂ : EStateM.Result Stop Store α}
    (h : (housing L base).Matches P r₁ r₂) (h' : (housing L base).Matches P r₂ r₁) :
    EndAlike r₁ r₂ :=
  h.endAlike h' (fun hrel => hrel.1) id

/-! ## Depths -/

/-- Code may run in a scope with this many calls in progress since the depth was `s`: the scope
exists, it is as deep as that, and it is not at its limit. -/
structure Counted (s : Int) (calls : Nat) (σ : Store) (scope : Nat) : Prop where
  inStore : scope < σ.scopes.size
  depth : (σ.scope scope).depth = s + calls
  below : σ.atLimit scope = false

theorem Counted.grown {scope : Nat} (h : Counted s calls base scope) (hg : base.Grown σ) :
    Counted s calls σ scope where
  inStore := Nat.lt_of_lt_of_le h.inStore hg.size
  depth := by rw [hg.depth scope h.inStore]; exact h.depth
  below := by
    unfold Store.atLimit
    rw [hg.limit scope h.inStore, hg.depth scope h.inStore]
    exact h.below

/-- An alarm that is silent wherever code may run. -/
def Silent (L : Option Rat → Prop) (s : Int) (alarm : Nat → Alarm) : Prop :=
  ∀ calls t (τ : Store), τ.Housed L → Counted s calls τ t.scope → alarm calls t τ = none

/-- Two silent alarms are heeded alike. -/
theorem heed {α : Type} {m₁ m₂ : Eval α} (ha : Silent L s a) (hb : Silent L s b) (t : Task)
    (hc : Counted s calls base t.scope) (h : (housing L base).Together m₁ m₂) :
    (housing L base).Together (Layer.heed (a calls) t m₁) (Layer.heed (b calls) t m₂) := by
  rintro σ _ ⟨rfl, hh, hg⟩
  unfold Layer.heed
  rw [ha calls t σ hh (hc.grown hg), hb calls t σ hh (hc.grown hg)]
  exact h σ σ ⟨rfl, hh, hg⟩

theorem watched {l₁ l₂ : Layer} (ha : Silent L s a) (hb : Silent L s b) {scope : Nat}
    (hc : Counted s calls base scope) (h : (housing L base).Alongside scope l₁ l₂) :
    (housing L base).Alongside scope (l₁.watched (a calls)) (l₂.watched (b calls)) where
  evaluate e := heed ha hb (.evaluate scope e) hc (h.evaluate e)
  call r args := heed ha hb (.call scope r args) hc (h.call r args)
  exec st := heed ha hb (.exec scope st) hc (h.exec st)

/-! ## Calls -/

/-- A call runs its body with one more call in progress, in a scope as deep as that. -/
theorem invoke {caller home : Nat} (hc : Counted s calls σ caller) (hσ : σ.Housed L)
    (hhome : home < σ.scopes.size) (params : List String) (args : List Value)
    {code₁ code₂ : Nat → Eval Unit} (hcode : ∀ scope σ', Counted s (calls + 1) σ' scope →
      (housing L σ').Together (code₁ scope) (code₂ scope)) : (housing L σ).Matches (fun _ => True)
      ((do Statement.returned (code₁ (← Statement.enter caller home params args))) σ)
      ((do Statement.returned (code₂ (← Statement.enter caller home params args))) σ) := by
  rcases Statement.enter_cases params args hσ hc.inStore hhome with
    ⟨e, σ', he, hne, hh, hg, _⟩ | ⟨scope, σ', he, hh, hg, _, hscope, hdepth, hopen⟩
  · simp only [bind, EStateM.bind, he]
    exact .stop hne ⟨rfl, hh, hg⟩
  · simp only [bind, EStateM.bind, he]
    have hcounted : Counted s (calls + 1) σ' scope := by
      refine ⟨hscope, ?_, hopen⟩
      rw [hdepth, hc.depth]
      push_cast
      omega
    exact matches_of_grown hg
      (Hosts.returned (hcode scope σ' hcounted) σ' σ' ⟨rfl, hh, Store.Grown.refl σ'⟩)

theorem above_call {l₁ l₂ : Layer} (hl : ∀ base scope, Counted s (calls + 1) base scope →
      (housing L base).Alongside scope l₁ l₂) {caller : Nat} (hc : Counted s calls base caller)
    (ctx : Context) (r : Nat) (args : List Value) :
    (housing L base).Together ((l₁.above ctx).call caller r args)
      ((l₂.above ctx).call caller r args) := by
  refine Coupled.read ?_
  rintro σ _ ⟨rfl, hh, hg⟩
  have hrel : (housing L base).rel σ σ := ⟨rfl, hh, hg⟩
  -- all that matters of the function is that the scope it was made in exists
  have hhome := hh.home r
  generalize σ.closure r = f at hhome
  by_cases hargs : (args.length != f.function.params.length) = true
  · simp only [hargs, if_true]
    refine Together.bind ((hosts hc.inStore).shownArguments args) (fun _ => ?_) _ _ hrel
    exact Coupled.throw_bind (by simp)
  · simp only [hargs, Bool.false_eq_true, if_false]
    cases hf : f.home with
    | none => exact Coupled.breakdown _ _ hrel
    | some home =>
      refine matches_of_grown hg (invoke (hc.grown hg) hh (hhome home hf) _ _ ?_)
      intro scope σ' hcounted
      exact (hl σ' scope hcounted).runAll f.function.body

/-! ## Whole runs -/

/-- **Under silent alarms nothing is changed by counting**, at any number of calls in progress. -/
theorem alongside (ha : Silent L s a) (hb : Silent L s b) (fuel calls : Nat) (base : Store)
    (scope : Nat) (hc : Counted s calls base scope) :
    (housing L base).Alongside scope (counting a ctx fuel calls)
      (counting b ctx fuel calls) := by
  -- a call goes on in another store, in another scope and with one more call in progress
  induction fuel generalizing calls base scope with
  | zero =>
    refine watched ha hb hc ⟨fun _ => ?_, fun _ _ => ?_, fun _ => ?_⟩
    · exact Coupled.exhausted rfl _
    · exact Coupled.exhausted rfl _
    · exact Coupled.exhausted rfl _
  | succ fuel ih =>
    have hhere := ih calls base scope hc
    refine watched ha hb hc ⟨?_, ?_, ?_⟩
    · exact hhere.above_evaluate (hosts hc.inStore) ctx ctx
    · exact above_call (ih (calls + 1)) hc ctx
    · exact hhere.above_exec (hosts hc.inStore) rfl (tends hc.inStore ctx).loop

/-- A run under one silent alarm is a run under another. -/
theorem runs (ha : Silent L s a) (hb : Silent L s b) {scope : Nat} (hc : Counted s calls σ scope)
    (hσ : σ.Housed L) {run : Layer → Eval Unit} (hrun : RunsIn ctx scope run) (fuel : Nat) :
    (housing L σ).Matches (fun _ => True) (run (counting a ctx fuel calls) σ)
      (run (counting b ctx fuel calls) σ) :=
  hrun.together (alongside ha hb fuel calls σ scope hc) (tends hc.inStore ctx) σ σ
    ⟨rfl, hσ, Store.Grown.refl σ⟩

end CallsInProgress

/-- **The depth of a scope counts the calls in progress, and so bounds them.** At every moment of a
run that is started in a scope, what is about to be done is to be done in a scope that is deeper
than the first one by the number of calls in progress, and not at its limit; in a store where all
scopes have one limit, the start's depth and the calls together are below it. -/
theorem depth_counts_calls {σ : Store}
    (hhome : ∀ r h, (σ.closure r).home = some h → h < σ.scopes.size) {scope : Nat}
    (hscope : scope < σ.scopes.size) (hopen : σ.atLimit scope = false) {ctx : Context} (fuel : Nat)
    {run : Layer → Eval Unit} (hrun : RunsIn ctx scope run) :
    AlwaysCounted ctx fuel run σ fun calls t τ =>
      (τ.scope t.scope).depth = (σ.scope scope).depth + calls ∧ τ.atLimit t.scope = false ∧
      ∀ d : Rat, (∀ r, r < σ.scopes.size → (σ.scope r).limit = some d) →
        ((σ.scope scope).depth : Rat) + calls < d := by
  intro alarm hsilent
  -- every scope that is made gets its limit from one that was there
  let L : Option Rat → Prop := fun l => ∃ r, r < σ.scopes.size ∧ l = (σ.scope r).limit
  have hσ : σ.Housed L := ⟨fun r hr => ⟨r, hr, rfl⟩, hhome⟩
  have hstart : CallsInProgress.Counted (σ.scope scope).depth 0 σ scope :=
    ⟨hscope, by simp, hopen⟩
  have halarm : CallsInProgress.Silent L (σ.scope scope).depth alarm := by
    intro calls t τ hτ hc
    refine hsilent calls t τ ⟨hc.depth, hc.below, fun d hd => ?_⟩
    obtain ⟨r, hr, hlimit⟩ := hτ.limit t.scope hc.inStore
    have hbelow := hc.below
    rw [Store.atLimit, hlimit, hd r hr, hc.depth] at hbelow
    simpa [Store.tooDeep] using hbelow
  have hnone : CallsInProgress.Silent L (σ.scope scope).depth fun _ _ _ => none :=
    fun _ _ _ _ _ => rfl
  have hto := CallsInProgress.runs halarm hnone hstart hσ hrun fuel
  have hfrom := CallsInProgress.runs hnone halarm hstart hσ hrun fuel
  rw [counting_silent] at hto hfrom
  exact CallsInProgress.endAlike_of_matches hto hfrom

/-- A scope of depth two where five is too deep. -/
def CallsInProgress.deepStart : Store :=
  (Store.empty.newScope ⟨[], none, 2, some 5⟩).2

/-- A function that makes another one, which is called after the call that made it has ended and
calls the first in turn. -/
def CallsInProgress.handedOut : Program :=
  let callMake : List Token := [.name "make", .sym .lparen, .sym .rparen]
  let handed : Function := .mk [] [.exp callMake] []
  [.init "make" [.func (.mk [] [.ret [.func handed]] [])],
    .exp (callMake ++ [.sym .lparen, .sym .rparen])]

theorem depth_counts_calls_handedOut : (∀ r h, (CallsInProgress.deepStart.closure r).home = some h →
      h < CallsInProgress.deepStart.scopes.size) ∧
    0 < CallsInProgress.deepStart.scopes.size ∧ CallsInProgress.deepStart.atLimit 0 = false ∧
    AlwaysCounted ⟨none, false, 9⟩ 30 (fun l => runAll (l.exec 0) CallsInProgress.handedOut)
      CallsInProgress.deepStart fun calls t τ =>
        (τ.scope t.scope).depth = (CallsInProgress.deepStart.scope 0).depth + calls ∧
        τ.atLimit t.scope = false ∧
        ∀ d : Rat, (∀ r, r < CallsInProgress.deepStart.scopes.size →
            (CallsInProgress.deepStart.scope r).limit = some d) →
          ((CallsInProgress.deepStart.scope 0).depth : Rat) + calls < d := by
  have hhome :=
    (Store.housed_empty.newScope (L := fun _ => True) (s := ⟨[], none, 2, some 5⟩) trivial).home
  exact ⟨hhome, by decide, by decide +kernel,
    depth_counts_calls hhome (by decide) (by decide +kernel) 30 (.fresh CallsInProgress.handedOut)⟩

end LittleJ
