import LittleJ.Eval.Run

/-!
# Two runs side by side

Most facts about running compare two runs: under a smaller and a larger budget, or under tighter and
looser limits. A fact about a single run is one of these too, with the run beside itself: what holds
between a store and its copy is then what the run keeps.

A *coupling* says what holds between the two stores all along, and for which reasons the first run
may stop while the second goes its own way. Two computations are *coupled* if they end alike from
related stores. The rules below take a computation apart; what holds of a step is shown once, for
every coupling that the step respects.
-/

namespace LittleJ

/-- How two runs are compared. -/
structure Coupling where
  /-- What holds between the two stores all along. -/
  rel : Store → Store → Prop
  /-- The reasons to stop that the second run need not share. -/
  excused : Stop → Prop
  /-- A jump is always shared, for it may be taken inside the run. -/
  brk : ¬excused .brk
  ret : ∀ v, ¬excused (.ret v)
  /-- The reasons to stop that both runs may have. That a budget is used up is mostly none. -/
  shared : Stop → Prop := (· ≠ .exhausted)
  sharing : ∀ e, e ≠ .exhausted → shared e := by exact fun _ h => h

namespace Coupling

variable {α β : Type} {c : Coupling} {P : α → Prop} {Q : β → Prop}

/-- Two runs end alike: with the same result, or stopped by the same thing, in related stores. -/
inductive Matches (c : Coupling) (P : α → Prop) :
    EStateM.Result Stop Store α → EStateM.Result Stop Store α → Prop where
  | ok {a : α} {σ₁ σ₂ : Store} : P a → c.rel σ₁ σ₂ → Matches c P (.ok a σ₁) (.ok a σ₂)
  | stop {e : Stop} {σ₁ σ₂ : Store} :
      c.shared e → c.rel σ₁ σ₂ → Matches c P (.error e σ₁) (.error e σ₂)
  | excused {e : Stop} {σ₁ : Store} {r : EStateM.Result Stop Store α} :
      c.excused e → Matches c P (.error e σ₁) r

/-- From related stores two computations end alike, and `P` holds of their result. -/
def Coupled (c : Coupling) (P : α → Prop) (m₁ m₂ : Eval α) : Prop :=
  ∀ σ₁ σ₂, c.rel σ₁ σ₂ → c.Matches P (m₁ σ₁) (m₂ σ₂)

/-- Nothing is said about the result. -/
abbrev Together (c : Coupling) (m₁ m₂ : Eval α) : Prop :=
  c.Coupled (fun _ => True) m₁ m₂

/-! ## Taking computations apart -/

/-- A failure is always shared. -/
theorem Matches.failure {x : Failure} {σ₁ σ₂ : Store} (h : c.rel σ₁ σ₂) :
    c.Matches P (.error (.failure x) σ₁) (.error (.failure x) σ₂) :=
  .stop (c.sharing _ (by simp)) h

theorem Matches.mono {r₁ r₂ : EStateM.Result Stop Store α} {R : α → Prop}
    (h : c.Matches P r₁ r₂) (hP : ∀ a, P a → R a) : c.Matches R r₁ r₂ := by
  cases h with
  | ok ha hrel => exact .ok (hP _ ha) hrel
  | stop he hrel => exact .stop he hrel
  | excused he => exact .excused he

/-- What holds between two stores under `c` holds under `c'` too, and `c'` lets the runs stop for
the same reasons. -/
structure Entails (c c' : Coupling) : Prop where
  rel : ∀ {σ₁ σ₂}, c.rel σ₁ σ₂ → c'.rel σ₁ σ₂
  excused : ∀ {e}, c.excused e → c'.excused e := by exact id
  shared : ∀ {e}, c.shared e → c'.shared e := by exact id

theorem Matches.weaken {c' : Coupling} {r₁ r₂ : EStateM.Result Stop Store α}
    (h : c.Matches P r₁ r₂) (hc : c.Entails c') : c'.Matches P r₁ r₂ := by
  cases h with
  | ok ha hrel => exact .ok ha (hc.rel hrel)
  | stop he hrel => exact .stop (hc.shared he) (hc.rel hrel)
  | excused he => exact .excused (hc.excused he)

/-- The form of `Matches.bind` for a first step that leaves the stores related in another way. -/
theorem Matches.andThen {c' : Coupling} {m₁ m₂ : Eval α} {f₁ f₂ : α → Eval β} {σ₁ σ₂ : Store}
    (h : c.Matches P (m₁ σ₁) (m₂ σ₂)) (hc : c.Entails c')
    (hf : ∀ a τ₁ τ₂, P a → c.rel τ₁ τ₂ → c'.Matches Q (f₁ a τ₁) (f₂ a τ₂)) :
    c'.Matches Q ((m₁ >>= f₁) σ₁) ((m₂ >>= f₂) σ₂) := by
  simp only [Bind.bind, EStateM.bind]
  -- the two ends become variables, so that the relation between them can be taken apart
  revert h
  generalize m₁ σ₁ = r₁
  generalize m₂ σ₂ = r₂
  intro h
  cases h with
  | ok ha hrel => exact hf _ _ _ ha hrel
  | stop he hrel => exact .stop (hc.shared he) (hc.rel hrel)
  | excused he => exact .excused (hc.excused he)

/-- What follows an end of two runs is coupled if it is coupled after every shared result. -/
theorem Matches.bind {m₁ m₂ : Eval α} {f₁ f₂ : α → Eval β} {σ₁ σ₂ : Store}
    (h : c.Matches P (m₁ σ₁) (m₂ σ₂)) (hf : ∀ a, P a → c.Coupled Q (f₁ a) (f₂ a)) :
    c.Matches Q ((m₁ >>= f₁) σ₁) ((m₂ >>= f₂) σ₂) :=
  h.andThen ⟨id, id, id⟩ fun a _ _ ha hrel => hf a ha _ _ hrel

theorem Coupled.mono {m₁ m₂ : Eval α} {R : α → Prop} (hm : c.Coupled P m₁ m₂)
    (hP : ∀ a, P a → R a) : c.Coupled R m₁ m₂ :=
  fun σ₁ σ₂ hrel => (hm σ₁ σ₂ hrel).mono hP

theorem Coupled.pure {a : α} (h : P a) : c.Coupled P (Pure.pure a) (Pure.pure a) :=
  fun _ _ hrel => .ok h hrel

theorem Coupled.bind {m₁ m₂ : Eval α} {f₁ f₂ : α → Eval β}
    (hm : c.Coupled P m₁ m₂) (hf : ∀ a, P a → c.Coupled Q (f₁ a) (f₂ a)) :
    c.Coupled Q (m₁ >>= f₁) (m₂ >>= f₂) :=
  fun σ₁ σ₂ hrel => (hm σ₁ σ₂ hrel).bind hf

/-- The plain form of `Coupled.bind`, for a first step whose result is not described. -/
theorem Together.bind {m₁ m₂ : Eval α} {f₁ f₂ : α → Eval β}
    (hm : c.Together m₁ m₂) (hf : ∀ a, c.Coupled Q (f₁ a) (f₂ a)) :
    c.Coupled Q (m₁ >>= f₁) (m₂ >>= f₂) :=
  Coupled.bind hm fun a _ => hf a

theorem Coupled.throw {e : Stop} (he : e ≠ .exhausted) :
    c.Coupled P (MonadExcept.throw e) (MonadExcept.throw e) :=
  fun _ _ hrel => .stop (c.sharing e he) hrel

theorem Coupled.raise {e : Error} : c.Coupled P (Eval.raise e) (Eval.raise e) :=
  Coupled.throw (by simp)

theorem Coupled.breakdown {f : Fault} : c.Coupled P (Eval.breakdown f) (Eval.breakdown f) :=
  Coupled.throw (by simp)

/-- A step that stops at once is coupled with itself, whatever was to follow. -/
theorem Coupled.throw_bind {e : Stop} {f₁ f₂ : α → Eval β} (he : e ≠ .exhausted) :
    c.Coupled Q ((MonadExcept.throw e : Eval α) >>= f₁) (MonadExcept.throw e >>= f₂) :=
  Coupled.bind (P := fun _ => False) (Coupled.throw he) (fun _ h => h.elim)

theorem Coupled.ite {p : Prop} [Decidable p] {m₁ m₂ n₁ n₂ : Eval α}
    (ht : p → c.Coupled P m₁ m₂) (hf : ¬p → c.Coupled P n₁ n₂) :
    c.Coupled P (if p then m₁ else n₁) (if p then m₂ else n₂) := by
  by_cases h : p
  · rw [if_pos h, if_pos h]; exact ht h
  · rw [if_neg h, if_neg h]; exact hf h

/-- A check that raises an error if it fails, and what follows if it does not. -/
theorem Coupled.check {p : Prop} [Decidable p] {e : Error} {f₁ f₂ : PUnit → Eval β}
    (h : ¬p → c.Coupled Q (f₁ ⟨⟩) (f₂ ⟨⟩)) : c.Coupled Q (if p then Eval.raise e >>= f₁ else f₁ ⟨⟩)
      (if p then Eval.raise e >>= f₂ else f₂ ⟨⟩) :=
  Coupled.ite (fun _ => Coupled.throw_bind (by simp)) h

/-- A check that breaks down if it fails, and what follows if it does not. -/
theorem Coupled.ensure {p : Prop} [Decidable p] {x : Fault} {f₁ f₂ : PUnit → Eval β}
    (h : ¬p → c.Coupled Q (f₁ ⟨⟩) (f₂ ⟨⟩)) :
    c.Coupled Q (if p then Eval.breakdown x >>= f₁ else f₁ ⟨⟩)
      (if p then Eval.breakdown x >>= f₂ else f₂ ⟨⟩) :=
  Coupled.ite (fun _ => Coupled.throw_bind (by simp)) h

/-- Reading the store: what follows has to be coupled at the stores that were read. -/
theorem Coupled.read {f₁ f₂ : Store → Eval α}
    (h : ∀ σ₁ σ₂, c.rel σ₁ σ₂ → c.Matches P (f₁ σ₁ σ₁) (f₂ σ₂ σ₂)) :
    c.Coupled P (get >>= f₁) (get >>= f₂) :=
  h

theorem Coupled.modify {f₁ f₂ : Store → Store} (h : ∀ σ₁ σ₂, c.rel σ₁ σ₂ → c.rel (f₁ σ₁) (f₂ σ₂)) :
    c.Together (modify f₁ : Eval PUnit) (modify f₂) :=
  fun σ₁ σ₂ hrel => .ok trivial (h σ₁ σ₂ hrel)

theorem Coupled.make {f₁ f₂ : Store → Nat × Store}
    (h : ∀ σ₁ σ₂, c.rel σ₁ σ₂ → (f₁ σ₁).1 = (f₂ σ₂).1 ∧ c.rel (f₁ σ₁).2 (f₂ σ₂).2) :
    c.Together (Eval.make f₁) (Eval.make f₂) := by
  intro σ₁ σ₂ hrel
  obtain ⟨hn, hrel'⟩ := h σ₁ σ₂ hrel
  show c.Matches _ (.ok (f₁ σ₁).1 (f₁ σ₁).2) (.ok (f₂ σ₂).1 (f₂ σ₂).2)
  rw [hn]
  exact .ok trivial hrel'

theorem Coupled.ofFault {r : Except Fault α} : c.Together (Eval.ofFault r) (Eval.ofFault r) := by
  cases r with
  | ok a => exact Coupled.pure trivial
  | error f => exact Coupled.breakdown

theorem Coupled.ofError {r : Except Error α} : c.Together (Eval.ofError r) (Eval.ofError r) := by
  cases r with
  | ok a => exact Coupled.pure trivial
  | error e => exact Coupled.raise

theorem Coupled.ofFailure {r : Except Failure α} :
    c.Together (Eval.ofFailure r) (Eval.ofFailure r) := by
  cases r with
  | ok a => exact Coupled.pure trivial
  | error e => exact Coupled.throw (by simp)

theorem Coupled.truth {v : Value} : c.Together (Eval.truth v) (Eval.truth v) := by
  unfold Eval.truth
  cases v.truth? with
  | some b => exact Coupled.pure trivial
  | none => exact Coupled.breakdown

end Coupling

end LittleJ
