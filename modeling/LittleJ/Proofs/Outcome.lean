import LittleJ.Interpreter
import LittleJ.Proofs.CoupledRun

/-!
# What a run comes to

From outside a run is known by how it ends and by what it has written. The budget is no part of
that: it only says how long we look. A run that ends within some budget ends in the same way within
every larger one, so it comes to one outcome at most; and two runs behave alike if they come to the
same outcomes.

Interpreters that are newly made and run a text are compared as the runs of programs are. Making one
and reporting how a program ended respect every coupling that lets only the budget differ.
-/

namespace LittleJ

open Store

variable {s : String} {console : Bool} {σ : Store}

/-- What can be told of the end of a run: why it stopped, if it did, and what has been written.
Nothing can be told if the budget was used up. -/
def observed : EStateM.Result Stop Store Unit → Option (Option Stop × String)
  | .ok _ σ => some (none, σ.out)
  | .error .exhausted _ => none
  | .error e σ => some (some e, σ.out)

theorem observed_error {e : Stop} (he : e ≠ .exhausted) (σ : Store) :
    observed (.error e σ) = some (some e, σ.out) := by
  cases e with
  | exhausted => exact absurd rfl he
  | _ => rfl

/-- A run comes to an outcome: it does so within some budget. -/
def EndsWith (run : Budget → Eval Unit) (σ : Store) (o : Option Stop × String) : Prop :=
  ∃ b, observed (run b σ) = some o

/-- Two runs from one store come to the same: where one of them ends so does the other, in the same
way and with the same written. -/
def SameBehaviour (run run' : Budget → Eval Unit) (σ : Store) : Prop :=
  ∀ o, EndsWith run σ o ↔ EndsWith run' σ o

/-- Runs a text in an interpreter that is newly made with the given limits. -/
def Interpreter.runFresh (loopLimit depthLimit : Option Rat) (files : Table String) (s : String)
    (console : Bool) (budget : Budget) : Eval Unit := do
  (← make loopLimit depthLimit true).run budget files (.text s) console

/-- A text that is run apart is run by a new interpreter to which the two limits are given the other
way round. -/
theorem Interpreter.runApart_text (i : Interpreter) (budget : Budget)
    (files : Table String) (s : String) (console : Bool) :
    i.runApart budget files (.text s) console = runFresh i.depthLimit i.loopLimit files s
    console budget :=
  rfl

/-- An interpreter whose limit allows no scope at all cannot be made. -/
theorem Interpreter.runFresh_of_tooDeep {l d : Option Rat} (h : tooDeep d 0 = true)
    {files : Table String} {b : Budget} :
    runFresh l d files s console b σ = .error (.failure (.error .scopeDepth)) σ := by
  have hglobal : globalScope d = .error .scopeDepth := by rw [globalScope, if_pos h]
  rw [runFresh, make, makeGlobal, hglobal]
  rfl

namespace Coupling

variable {c : Coupling} {d d' l l' : Option Rat}

/-- A coupling under which only the budget may differ: no other end is excused, and what is written
is shared. -/
structure Shares (c : Coupling) : Prop where
  excused : ∀ {e}, c.excused e → e = .exhausted
  hosts : ∀ scope, c.Hosts scope fun _ => True
  putVar : ∀ {σ₁ σ₂ : Store} (r : Nat) (name : String) (v : Value), c.rel σ₁ σ₂ →
    c.rel (σ₁.putVar r name v) (σ₂.putVar r name v)

namespace Shares

variable (hc : c.Shares)

include hc

theorem observed {r₁ r₂ : EStateM.Result Stop Store Unit} (hm : c.Matches (fun _ => True) r₁ r₂)
    {o : Option Stop × String} (h : observed r₁ = some o) : LittleJ.observed r₂ = some o := by
  cases hm with
  | ok _ hrel =>
    rw [← h, LittleJ.observed, LittleJ.observed, ((hc.hosts 0).agree hrel).out]
  | @stop e _ _ _ hrel =>
    have he : e ≠ .exhausted := by
      rintro rfl
      cases h
    rw [← h, observed_error he, observed_error he, ((hc.hosts 0).agree hrel).out]
  | excused he =>
    obtain rfl := hc.excused he
    cases h

/-- Reporting how two runs ended: what one of them says the other says too. -/
theorem reporting {m₁ m₂ : Eval Unit} (h : c.Together m₁ m₂) :
    c.Together (Interpreter.reporting m₁) (Interpreter.reporting m₂) := by
  intro σ₁ σ₂ hrel
  have hwrite : ∀ {τ₁ τ₂ : Store} (s : String), c.rel τ₁ τ₂ → c.rel (τ₁.write s) (τ₂.write s) := by
    intro τ₁ τ₂ s hτ
    rw [write, write, ((hc.hosts 0).agree hτ).out]
    exact (hc.hosts 0).out _ hτ
  have hends := h σ₁ σ₂ hrel
  unfold Interpreter.reporting
  revert hends
  generalize m₁ σ₁ = r₁
  generalize m₂ σ₂ = r₂
  intro hends
  cases hends with
  | ok _ hτ => exact .ok trivial hτ
  | @stop e _ _ he hτ =>
    cases e with
    | failure f =>
      cases f with
      | error e => exact .ok trivial (hwrite _ hτ)
      | fault f => exact .failure hτ
    | ret v => exact .ok trivial (hwrite _ hτ)
    | brk => exact .ok trivial (hwrite _ hτ)
    | exhausted => exact .stop he hτ
  | excused he =>
    obtain rfl := hc.excused he
    exact .excused he

/-- Making two interpreters, given that their global scopes are. -/
theorem makeGlobal
    (hscope : c.Together (Eval.ofError (globalScope d) >>= fun s => Eval.make (·.newScope s))
      (Eval.ofError (globalScope d') >>= fun s => Eval.make (·.newScope s))) :
    c.Together (Interpreter.makeGlobal d true) (Interpreter.makeGlobal d' true) := by
  have hbuiltins : ∀ (fs : List (String × Native)) (global : Nat) {σ₁ σ₂ : Store}, c.rel σ₁ σ₂ →
      c.rel (fs.foldl (fun σ p => σ.putVar global p.1 (.native p.2)) σ₁)
        (fs.foldl (fun σ p => σ.putVar global p.1 (.native p.2)) σ₂) := by
    intro fs global
    induction fs with
    | nil => exact fun hrel => hrel
    | cons p fs ih => exact fun hrel => ih (hc.putVar _ _ _ hrel)
  have hadd :
      ∀ global, c.Together (Interpreter.addBuiltins global) (Interpreter.addBuiltins global) := by
    intro global
    refine Together.bind ((hc.hosts 0).newObject _) fun math => ?_
    refine Together.bind (Coupled.modify fun _ _ hrel => hbuiltins _ _ hrel) fun _ => ?_
    exact Coupled.modify fun _ _ hrel => hc.putVar _ _ _ hrel
  have hall := Together.bind hscope fun global =>
    Together.bind (hadd global) fun _ => Coupled.pure (a := global) trivial
  rw [bind_assoc, bind_assoc] at hall
  exact hall

/-- Two interpreters that are newly made and run the same text. -/
theorem runFresh {b b' : Budget} (hmake : c.Together (Interpreter.makeGlobal d true)
    (Interpreter.makeGlobal d' true))
    (h : c.Throughout ⟨l, console, b.rounds⟩ ⟨l', console, b'.rounds⟩) (hdepth : b.depth ≤ b'.depth)
    (files : Table String) (s : String) :
    c.Together (Interpreter.runFresh l d files s console b)
    (Interpreter.runFresh l' d' files s console b') := by
  unfold Interpreter.runFresh Interpreter.make
  rw [bind_assoc, bind_assoc]
  refine Together.bind hmake fun global => hc.reporting ?_
  refine Together.bind Coupled.ofFault fun content => ?_
  exact Together.bind Coupled.ofFailure fun program => h.runProgram hdepth global program

end Shares

end Coupling

/-! ## One outcome at most -/

namespace Budget

open Coupling

theorem shares : coupling.Shares where
  excused h := h
  hosts := hosts
  putVar := by rintro σ _ r name v rfl; rfl

/-- An interpreter that has run a text within a budget does the same within every larger one. -/
theorem runFresh_mono {b b' : Budget} (hdepth : b.depth ≤ b'.depth) (hrounds : b.rounds ≤ b'.rounds)
    {l d : Option Rat} {files : Table String} {o : Option Stop × String}
    (h : observed (Interpreter.runFresh l d files s console b σ) = some o) :
    observed (Interpreter.runFresh l d files s console b' σ) = some o := by
  have hscope :
      coupling.Together (Eval.ofError (globalScope d) >>= fun s => Eval.make (·.newScope s))
      (Eval.ofError (globalScope d) >>= fun s => Eval.make (·.newScope s)) :=
    Together.bind Coupled.ofError fun inner => Coupled.make (by rintro σ _ rfl; exact ⟨rfl, rfl⟩)
  have hthroughout : coupling.Throughout ⟨l, console, b.rounds⟩ ⟨l, console, b'.rounds⟩ :=
    throughout rfl rfl hrounds
  have hboth := shares.runFresh (shares.makeGlobal hscope) hthroughout hdepth files s
  exact shares.observed (hboth σ σ rfl) h

end Budget

/-- **A text that is run in a new interpreter comes to one outcome at most.** -/
theorem EndsWith.unique {l d : Option Rat} {files : Table String} {o o' : Option Stop × String}
    (h : EndsWith (Interpreter.runFresh l d files s console) σ o)
    (h' : EndsWith (Interpreter.runFresh l d files s console) σ o') : o = o' := by
  obtain ⟨b, hb⟩ := h
  obtain ⟨b', hb'⟩ := h'
  -- both are outcomes within the larger of the two budgets
  have hlarge : observed (Interpreter.runFresh l d files s console
      ⟨max b.depth b'.depth, max b.rounds b'.rounds⟩ σ) = some o :=
    Budget.runFresh_mono (Nat.le_max_left _ _) (Nat.le_max_left _ _) hb
  have hlarge' : observed (Interpreter.runFresh l d files s console
      ⟨max b.depth b'.depth, max b.rounds b'.rounds⟩ σ) = some o' :=
    Budget.runFresh_mono (Nat.le_max_right _ _) (Nat.le_max_right _ _) hb'
  exact Option.some.inj (hlarge.symm.trans hlarge')

end LittleJ
