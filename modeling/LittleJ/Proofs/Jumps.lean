import LittleJ.Proofs.FunctionsRead
import LittleJ.Proofs.WatchedRun

/-!
# Jumps and calls

A call takes every `return` that is made in the body, so none gets to the caller. With `break` it is
different: loops take it, and calls do not. A `break` outside of all loops of its body leaves the
call and ends the loop of the caller, or of the caller's caller. Only if all functions keep their
breaks inside loops does a call end in one of three ways: with a value, with a failure, or not at
all.
-/

namespace LittleJ

/-- A statement has a `break` that none of its own loops takes. -/
inductive Stmt.BreaksOut : Stmt → Prop
  | brk : BreaksOut .brk
  | arm {arms : List (Expr × Program)} {a : Expr × Program} {s : Stmt} :
      a ∈ arms → s ∈ a.2 → BreaksOut s → BreaksOut (.ladder arms)

/-- A function keeps its breaks inside loops, and so do the functions written in its body. -/
structure Function.KeepsBreaks (f : Function) : Prop where
  own : ∀ s ∈ f.body, ¬s.BreaksOut
  inner : ∀ h : Function, Program.Holds f.body h → ∀ s ∈ h.body, ¬s.BreaksOut

namespace Watch

/-- Code may run if its functions keep their breaks and, unless it is in a loop, it keeps its own.
-/
def keepingBreaks : Watch where
  toRegion := Region.whole
  alarm _ _ := none
  gauge := .silent
  passed _ := trivial
  function f := f.KeepsBreaks
  stmt inLoop s := (∀ f, s.Holds f → ∀ u ∈ f.body, ¬u.BreaksOut) ∧ (inLoop = false → ¬s.BreaksOut)
  loose := False
  body hf s hs := ⟨fun h hh => hf.inner h ⟨s, hs, hh⟩, fun _ => hf.own s hs⟩
  values _ e _ := Region.tokens_whole e
  functions hs e he f hf :=
    ⟨hs.1 f (.here he hf), fun h ⟨t, ht, hh⟩ => hs.1 h (.inBody he hf ht hh)⟩
  arms hs a ha s hmem :=
    ⟨fun f hf => hs.1 f (.inBlock (List.mem_map_of_mem ha) hmem hf), fun hb h =>
      hs.2 hb (.arm ha hmem h)⟩
  code hs s hmem := ⟨fun f hf => hs.1 f (.inBlock (List.mem_singleton_self _) hmem hf), by simp⟩
  jump hs := hs.2 rfl .brk

theorem closed_keepingBreaks {σ : Store}
    (h : ∀ q, q < σ.closures.size → (σ.closure q).function.KeepsBreaks) : keepingBreaks.Closed σ :=
  closed_of_whole rfl fun q hq => keepingBreaks.body (h q hq)

end Watch

/-- Only what a watch allows to leave an expression gets out of a call. -/
theorem Watch.leaves_of_call {g : Watch} (hg : g.toRegion = Region.whole) (hquiet : g.Quiet)
    {ctx : Context} {fuel caller r : Nat} {args : List Value} {σ τ : Store}
    (hσ : g.Closed σ) {e : Stop} (h : call ctx fuel caller r args σ = .error e τ) :
    g.leaves none e := by
  have hcaller : g.active caller := hg ▸ trivial
  have hr : g.closure r := hg ▸ trivial
  have hargs : ∀ v ∈ args, g.value v := fun v _ => hg ▸ Region.value_whole v
  have hfine := ((Watch.beside_within hquiet ctx fuel).call hcaller hr hargs σ hσ).fine hquiet
  rw [show (Layer.within ctx fuel).call caller r args σ = .error e τ from h] at hfine
  cases hfine with
  | stop he _ => exact he

theorem Statement.returned_eq_brk {code : Eval Unit} {σ τ : Store} :
    Statement.returned code σ = .error .brk τ ↔ code σ = .error .brk τ := by
  unfold Statement.returned
  generalize code σ = r
  cases r with
  | ok _ ρ =>
    have hne : Eval.raise .noReturn ρ ≠ (.error .brk τ : EStateM.Result Stop Store Value) := by
      intro h
      cases h
    simp [hne]
  | error e ρ => cases e <;> simp

section

variable {ctx : Context} {fuel caller r : Nat} {args : List Value} {σ τ : Store}

/-- A call with a wrong number of arguments fails. -/
theorem call_of_length_ne (h : args.length ≠ (σ.closure r).function.params.length) :
    ∃ f, call ctx (fuel + 1) caller r args σ = .error (.failure f) σ := by
  rw [call]
  simp only [bind, EStateM.bind, Eval.get_apply, bne_iff_ne, ne_eq, h, not_false_eq_true, if_true,
    Statement.shownArguments]
  cases args.mapM σ.print with
  | ok texts => exact ⟨_, rfl⟩
  | error f => exact ⟨_, rfl⟩

theorem call_of_homeless (h : args.length = (σ.closure r).function.params.length)
    (hhome : (σ.closure r).home = none) :
    call ctx (fuel + 1) caller r args σ = .error (.failure (.fault (.internal ""))) σ := by
  rw [call]
  simp only [bind, EStateM.bind, Eval.get_apply, h, bne_self_eq_false, Bool.false_eq_true,
    if_false, hhome]
  rfl

/-- A call with the right number of arguments enters a scope and runs the body there. -/
theorem call_of_home {home : Nat} (h : args.length = (σ.closure r).function.params.length)
    (hhome : (σ.closure r).home = some home) : call ctx (fuel + 1) caller r args σ =
      (do let inner ← Statement.enter caller home (σ.closure r).function.params args
          Statement.returned (runAll (exec ctx fuel inner) (σ.closure r).function.body)) σ := by
  rw [call]
  simp only [bind, EStateM.bind, Eval.get_apply, h, bne_self_eq_false, Bool.false_eq_true,
    if_false, hhome]

theorem Statement.enter_ne_brk {home : Nat} {params : List String} :
    Statement.enter caller home params args σ ≠ .error .brk τ := by
  rw [Statement.enter_eq]
  split
  · simp
  · dsimp only
    split <;> simp

/-- A call stops with a `break` just if its body does. -/
theorem call_eq_brk_iff : call ctx (fuel + 1) caller r args σ = .error .brk τ ↔
      ∃ home inner ρ, args.length = (σ.closure r).function.params.length ∧
      (σ.closure r).home = some home ∧
        Statement.enter caller home (σ.closure r).function.params args σ = .ok inner ρ ∧
        runAll (exec ctx fuel inner) (σ.closure r).function.body ρ = .error .brk τ := by
  constructor
  · intro h
    by_cases hargs : args.length = (σ.closure r).function.params.length
    · cases hhome : (σ.closure r).home with
      | none =>
        rw [call_of_homeless hargs hhome] at h
        cases h
      | some home =>
        rw [call_of_home hargs hhome] at h
        simp only [bind, EStateM.bind] at h
        cases henter : Statement.enter caller home (σ.closure r).function.params args σ with
        | ok inner ρ =>
          rw [henter] at h
          exact ⟨home, inner, ρ, hargs, rfl, henter, Statement.returned_eq_brk.1 h⟩
        | error e ρ =>
          rw [henter] at h
          cases h
          exact absurd henter Statement.enter_ne_brk
    · obtain ⟨f, hf⟩ := call_of_length_ne hargs
      rw [hf] at h
      cases h
  · rintro ⟨home, inner, ρ, hargs, hhome, henter, hbody⟩
    rw [call_of_home hargs hhome]
    simp only [bind, EStateM.bind, henter]
    exact Statement.returned_eq_brk.2 hbody

end

/-- **Which jumps cross calls.** A call never stops with a `return`. It stops with a `break` just if
its body does, in the scope that the call made for it; the loop of the caller then ends, whatever it
was about to do with the result. That never happens if all functions keep their breaks inside loops:
then a call gives a value, fails, or does not end. -/
theorem jumps_across_calls (ctx : Context) (fuel caller r : Nat) (args : List Value) (σ : Store) :
    (∀ v τ, call ctx fuel caller r args σ ≠ .error (.ret v) τ) ∧
    (∀ τ, call ctx (fuel + 1) caller r args σ = .error .brk τ ↔
      ∃ home inner ρ, args.length = (σ.closure r).function.params.length ∧
      (σ.closure r).home = some home ∧
        Statement.enter caller home (σ.closure r).function.params args σ = .ok inner ρ ∧
        runAll (exec ctx fuel inner) (σ.closure r).function.body ρ = .error .brk τ) ∧
    (∀ τ, call ctx fuel caller r args σ = .error .brk τ →
      ∀ next : Value → Eval Unit, Statement.body (call ctx fuel caller r args >>= next) σ =
        .ok false τ) ∧
    ((∀ q, q < σ.closures.size → (σ.closure q).function.KeepsBreaks) →
      ∀ τ, call ctx fuel caller r args σ ≠ .error .brk τ) := by
  refine ⟨fun v τ h => ?_, fun τ => call_eq_brk_iff, fun τ h next => ?_, fun hkeeps τ h => ?_⟩
  · have hleaves := Watch.leaves_of_call (g := Watch.free) rfl rfl (Watch.closed_free σ) h
    exact absurd hleaves.1 (by simp)
  · simp only [Statement.body, bind, EStateM.bind, h]
  · have hleaves := Watch.leaves_of_call (g := Watch.keepingBreaks) rfl rfl
      (Watch.closed_keepingBreaks hkeeps) h
    exact hleaves.elim (by simp) id

/-- A text whose function breaks out of the loop that calls it. -/
def strayBreakText : String :=
  "var f = function () \x7b break; \x7d; while (true) \x7b f(); \x7d print('end');"

/-- The loop without an end is ended by the `break` in the function that it calls. -/
theorem strayBreak_ends_loop : outputOf ⟨10, 5⟩ strayBreakText = "end\n" := by
  decide +kernel

end LittleJ
