import LittleJ.Proofs.Agreement
import LittleJ.Proofs.Brackets

/-!
# Steps that a coupling respects

A coupling *hosts* code in a scope if related stores agree and everything that code in the scope may
do to both stores keeps them related. The steps of evaluating an expression are then coupled, given
that the evaluation of inner expressions and the calls are. Inner expressions are shorter than the
one around them, which is all that is asked of their evaluators.
-/

namespace LittleJ

theorem Eval.length_inside_lt (k : Nat) (t : Token) (ts : List Token) :
    (Eval.inside k (t :: ts)).length < (t :: ts).length := by
  unfold Eval.inside
  simp only [List.length_drop, List.length_take, List.length_cons]
  omega

/-! ## Hosting -/

/-- Code may run in `scope` under a coupling: related stores agree, and what a step does to both
keeps them related. `admits` says which functions the code may make. -/
structure Coupling.Hosts (c : Coupling) (scope : Nat) (admits : Function → Prop) : Prop where
  agree {σ₁ σ₂ : Store} : c.rel σ₁ σ₂ → σ₁.Agree σ₂
  arrays {σ₁ σ₂ : Store} (xs : Array (Array Value)) :
    c.rel σ₁ σ₂ → c.rel { σ₁ with arrays := xs } { σ₂ with arrays := xs }
  objects {σ₁ σ₂ : Store} (ts : Array (Table Value)) :
    c.rel σ₁ σ₂ → c.rel { σ₁ with objects := ts } { σ₂ with objects := ts }
  seed {σ₁ σ₂ : Store} (n : Nat) : c.rel σ₁ σ₂ → c.rel { σ₁ with seed := n } { σ₂ with seed := n }
  out {σ₁ σ₂ : Store} (s : String) : c.rel σ₁ σ₂ → c.rel { σ₁ with out := s } { σ₂ with out := s }
  /-- Functions may learn that they were made in the scope. -/
  adopt {σ₁ σ₂ : Store} (r : Nat) : c.rel σ₁ σ₂ → c.rel (σ₁.adopt scope r) (σ₂.adopt scope r)
  closure {σ₁ σ₂ : Store} {f : Function} (h : admits f) :
    c.rel σ₁ σ₂ → c.rel (σ₁.newClosure ⟨f, none⟩).2 (σ₂.newClosure ⟨f, none⟩).2
  /-- A variable may be made in the scope. -/
  makeVar {σ₁ σ₂ : Store} {name : String} {v : Value} (h : (σ₁.scope scope).vars.has name = false) :
    c.rel σ₁ σ₂ → c.rel (σ₁.putVar scope name v) (σ₂.putVar scope name v)
  /-- A variable may be set in any scope that has it. -/
  setVar {σ₁ σ₂ : Store} {owner : Nat} {name : String} {v : Value}
    (h : (σ₁.scope owner).vars.has name = true) :
    c.rel σ₁ σ₂ → c.rel (σ₁.putVar owner name v) (σ₂.putVar owner name v)

/-- A coupling of a run with itself hosts code in a scope if code there keeps what it says of the
store. It may say something of scopes, functions and the clock only. -/
theorem Coupling.Hosts.alone {c : Coupling} {scope : Nat} {admits : Function → Prop}
    {I : Store → Prop} (hrel : ∀ σ₁ σ₂, c.rel σ₁ σ₂ ↔ σ₁ = σ₂ ∧ I σ₁)
    (of_eq : ∀ σ σ' : Store, σ'.scopes = σ.scopes → σ'.closures = σ.closures →
      σ'.clock = σ.clock → I σ → I σ')
    (adopt : ∀ σ r, I σ → I (σ.adopt scope r))
    (closure : ∀ σ f, admits f → I σ → I (σ.newClosure ⟨f, none⟩).2)
    (putVar : ∀ σ owner name v, I σ → I (σ.putVar owner name v)) : c.Hosts scope admits := by
  have mapped : ∀ {σ₁ σ₂ : Store} (f : Store → Store), (∀ σ, I σ → I (f σ)) → c.rel σ₁ σ₂ →
      c.rel (f σ₁) (f σ₂) := by
    intro σ₁ σ₂ f hf h
    obtain ⟨rfl, hI⟩ := (hrel σ₁ σ₂).mp h
    exact (hrel _ _).mpr ⟨rfl, hf _ hI⟩
  exact {
    agree := fun h => by
      obtain ⟨rfl, _⟩ := (hrel _ _).mp h
      exact ⟨rfl, rfl, rfl, rfl, rfl, rfl, rfl, fun _ => rfl, fun _ => rfl, fun _ => rfl⟩
    arrays := fun xs => mapped ({ · with arrays := xs }) fun σ => of_eq σ _ rfl rfl rfl
    objects := fun ts => mapped ({ · with objects := ts }) fun σ => of_eq σ _ rfl rfl rfl
    seed := fun n => mapped ({ · with seed := n }) fun σ => of_eq σ _ rfl rfl rfl
    out := fun s => mapped ({ · with out := s }) fun σ => of_eq σ _ rfl rfl rfl
    adopt := fun r => mapped (·.adopt scope r) fun σ => adopt σ r
    closure := fun hf => mapped (fun σ => (σ.newClosure ⟨_, none⟩).2) fun σ => closure σ _ hf
    makeVar := fun _ => mapped (·.putVar scope _ _) fun σ => putVar σ _ _ _
    setVar := fun _ => mapped (·.putVar _ _ _) fun σ => putVar σ _ _ _ }

namespace Coupling.Hosts

variable {α : Type} {P : α → Prop} {c : Coupling} {scope : Nat} {admits : Function → Prop}

/-! ## Changes to the store -/

section
variable (hc : c.Hosts scope admits)
include hc

theorem newArray (xs : Array Value) :
    c.Together (Eval.make (·.newArray xs)) (Eval.make (·.newArray xs)) := by
  refine Coupled.make fun σ₁ σ₂ hrel => ?_
  simp only [Store.newArray, (hc.agree hrel).arrays]
  exact ⟨trivial, hc.arrays _ hrel⟩

theorem newObject (t : Table Value) :
    c.Together (Eval.make (·.newObject t)) (Eval.make (·.newObject t)) := by
  refine Coupled.make fun σ₁ σ₂ hrel => ?_
  simp only [Store.newObject, (hc.agree hrel).objects]
  exact ⟨trivial, hc.objects _ hrel⟩

theorem newClosure {f : Function} (h : admits f) :
    c.Together (Eval.make (·.newClosure ⟨f, none⟩)) (Eval.make (·.newClosure ⟨f, none⟩)) := by
  refine Coupled.make fun σ₁ σ₂ hrel => ⟨?_, hc.closure h hrel⟩
  simp only [Store.newClosure, (hc.agree hrel).closures]

theorem modifyArray (r : Nat) (f : Array Value → Array Value) :
    c.Together (modify (·.modifyArray r f)) (modify (·.modifyArray r f)) := by
  refine Coupled.modify fun σ₁ σ₂ hrel => ?_
  simp only [Store.modifyArray, (hc.agree hrel).arrays]
  exact hc.arrays _ hrel

theorem modifyObject (r : Nat) (f : Table Value → Table Value) :
    c.Together (modify (·.modifyObject r f)) (modify (·.modifyObject r f)) := by
  refine Coupled.modify fun σ₁ σ₂ hrel => ?_
  simp only [Store.modifyObject, (hc.agree hrel).objects]
  exact hc.objects _ hrel

theorem write (s : String) : c.Together (modify (·.write s)) (modify (·.write s)) := by
  refine Coupled.modify fun σ₁ σ₂ hrel => ?_
  simp only [Store.write, (hc.agree hrel).out]
  exact hc.out _ hrel

theorem raiseAt {e : String → Error} {ts : List Token} :
    c.Coupled P (Eval.raiseAt e ts) (Eval.raiseAt e ts) := by
  unfold Eval.raiseAt
  refine Coupled.read fun σ₁ σ₂ hrel => ?_
  rw [(hc.agree hrel).excerpt]
  exact Together.bind Coupled.ofFault (fun _ => Coupled.raise) _ _ hrel

/-! ## Brackets and commas -/

theorem partner (ts : List Token) :
    c.Coupled (fun k => 0 < k ∧ k < ts.length) (Eval.partner ts) (Eval.partner ts) := by
  unfold Eval.partner
  cases h : Bracket.partner? ts with
  | some k => exact Coupled.pure (Bracket.partner?_bounds h)
  | none => exact hc.raiseAt

/-- The parts between commas are no longer than the list they are parts of. -/
theorem commaParts (ts : List Token) :
    c.Coupled (fun parts => ∀ part ∈ parts, part.length ≤ ts.length)
      (Eval.commaParts ts) (Eval.commaParts ts) := by
  unfold Eval.commaParts
  cases h : TopLevel.split (·.is .comma) ts with
  | ok parts => exact Coupled.pure (TopLevel.length_le_of_mem_split h)
  | error rest => exact hc.raiseAt

/-! ## Natives -/

theorem extremeOf (beats : Float → Float → Bool) (v : Value) :
    c.Together (Math.extremeOf beats v) (Math.extremeOf beats v) := by
  unfold Math.extremeOf
  refine Coupled.read fun σ₁ σ₂ hrel => ?_
  rw [(hc.agree hrel).items]
  cases Math.items? σ₂ v with
  | none => exact Coupled.breakdown _ _ hrel
  | some items =>
    simp only
    cases Math.numbers? items with
    | none => exact Coupled.raise _ _ hrel
    | some xs =>
      simp only
      cases Math.extreme beats xs with
      | none => exact Coupled.breakdown _ _ hrel
      | some x => exact Coupled.pure trivial _ _ hrel

theorem random : c.Together Math.random Math.random := by
  unfold Math.random
  refine Coupled.read fun σ₁ σ₂ hrel => ?_
  rw [(hc.agree hrel).seed]
  refine Together.bind ?_ (fun _ => Coupled.pure trivial) _ _ hrel
  exact Coupled.modify fun _ _ h => hc.seed _ h

theorem mathCall (f : MathFunction) (args : List Value) :
    c.Together (Math.call f args) (Math.call f args) := by
  unfold Math.call
  split
  · exact hc.random
  · exact hc.extremeOf _ _
  · exact hc.extremeOf _ _
  · refine Together.bind Coupled.ofFault fun z => ?_
    cases z with
    | some z => exact Coupled.pure trivial
    | none => exact Coupled.breakdown
  · exact Together.bind Coupled.ofFault fun _ => Coupled.pure trivial
  · split
    · exact Together.bind Coupled.ofFault fun _ => Coupled.pure trivial
    · exact Coupled.raise
  · exact Coupled.raise

theorem length (v : Value) : c.Together (Native.length v) (Native.length v) := by
  unfold Native.length
  refine Coupled.read fun σ₁ σ₂ hrel => ?_
  have ha := hc.agree hrel
  simp only [ha.array, ha.object, ha.listing]
  refine (?_ : c.Together _ _) _ _ hrel
  split
  · exact Together.bind Coupled.ofFault fun _ => Coupled.pure trivial
  · exact Together.bind Coupled.ofFault fun _ => Coupled.pure trivial
  · exact Together.bind Coupled.ofFault fun _ => Coupled.pure trivial
  · exact Together.bind Coupled.ofFault fun _ => Coupled.raise

theorem keyArray (v : Value) : c.Together (Native.keyArray v) (Native.keyArray v) := by
  unfold Native.keyArray
  cases v with
  | obj r =>
    refine Coupled.read fun σ₁ σ₂ hrel => ?_
    rw [(hc.agree hrel).object]
    exact Together.bind (hc.newArray _) (fun _ => Coupled.pure trivial) _ _ hrel
  | _ => exact Together.bind Coupled.ofFault fun _ => Coupled.raise

theorem delete (v key : Value) : c.Together (Native.delete v key) (Native.delete v key) := by
  unfold Native.delete
  split
  · refine Coupled.read fun σ₁ σ₂ hrel => ?_
    rw [(hc.agree hrel).object]
    refine Coupled.ite (fun _ => ?_) (fun _ => Coupled.raise) _ _ hrel
    exact Together.bind (hc.modifyObject _ _) fun _ => Coupled.pure trivial
  · refine Coupled.read fun σ₁ σ₂ hrel => ?_
    rw [(hc.agree hrel).array]
    refine Coupled.ite (fun _ => ?_) (fun _ => Coupled.raise) _ _ hrel
    exact Together.bind (hc.modifyArray _ _) fun _ => Coupled.pure trivial
  · exact Coupled.raise

theorem push (v element : Value) : c.Together (Native.push v element) (Native.push v element) := by
  unfold Native.push
  cases v with
  | arr r =>
    refine Together.bind (hc.modifyArray _ _) fun _ => ?_
    refine Coupled.read fun σ₁ σ₂ hrel => ?_
    rw [(hc.agree hrel).array]
    exact Together.bind Coupled.ofFault (fun _ => Coupled.pure trivial) _ _ hrel
  | _ => exact Coupled.raise

theorem check (v text : Value) : c.Together (Native.check v text) (Native.check v text) := by
  unfold Native.check
  refine Together.bind Coupled.truth fun b => Coupled.ite (fun _ => Coupled.pure trivial) fun _ =>
    ?_
  refine Coupled.read fun σ₁ σ₂ hrel => ?_
  rw [(hc.agree hrel).text]
  exact Together.bind Coupled.ofFault (fun _ => Coupled.raise) _ _ hrel

omit hc in
theorem ordinal (v : Value) : c.Together (Native.ordinal v) (Native.ordinal v) := by
  unfold Native.ordinal
  split
  · split
    · exact Coupled.pure trivial
    · exact Coupled.raise
  · exact Coupled.raise

omit hc in
theorem character (v : Value) : c.Together (Native.character v) (Native.character v) := by
  unfold Native.character
  split
  · refine Coupled.ite (fun _ => Coupled.raise) fun _ => ?_
    refine Coupled.ite (fun _ => Coupled.raise) fun _ => ?_
    split
    · exact Coupled.breakdown
    · exact Coupled.ite (fun _ => Coupled.breakdown) fun _ => Coupled.pure trivial
  · exact Coupled.raise

theorem perform (n : Native) (args : List Value) :
    c.Together (n.perform args) (n.perform args) := by
  unfold Native.perform
  split
  · refine Coupled.read fun σ₁ σ₂ hrel => ?_
    rw [(hc.agree hrel).text]
    exact Together.bind Coupled.ofFault (fun _ => Coupled.pure trivial) _ _ hrel
  · refine Coupled.read fun σ₁ σ₂ hrel => ?_
    rw [(hc.agree hrel).text]
    refine Together.bind Coupled.ofFault (fun s => ?_) _ _ hrel
    exact Together.bind (hc.write _) fun _ => Coupled.pure trivial
  · exact Together.bind Coupled.ofFault fun _ => Coupled.pure trivial
  · exact hc.length _
  · exact hc.keyArray _
  · exact hc.delete _ _
  · exact hc.push _ _
  · exact hc.check _ _
  · exact ordinal _
  · exact character _
  · exact hc.mathCall _ _
  · exact Coupled.pure trivial
  · exact Together.bind (hc.newArray _) fun _ => Coupled.pure trivial
  · exact Coupled.pure trivial
  · exact Coupled.pure trivial
  · exact Coupled.pure trivial
  · exact Coupled.raise

theorem nativeCall (n : Native) (args : List Value) : c.Together (n.call args) (n.call args) := by
  unfold Native.call
  refine Coupled.check fun _ => Together.bind (hc.perform n args) fun v => ?_
  exact Coupled.ite (fun _ => Coupled.pure trivial) fun _ => Coupled.breakdown

end

end Coupling.Hosts

end LittleJ
