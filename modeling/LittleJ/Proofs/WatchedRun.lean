import LittleJ.Proofs.WatchedExpression

/-!
# Runs under a watch

One layer of running keeps to a watch if the layer below it does. By induction on the budget a run
keeps to it all the way down, beside the watched run. Where a jump can get to is part of this: a
body takes every `return` that is made in it, a loop every `break`, and what is left is what the
watch allows to leave.
-/

namespace LittleJ

open List Layer Expression

variable {v : Value} {b : Bool}

namespace Watch

variable {g : Watch} {place : Option Bool} {α : Type} {P : α → Prop} {scope : Nat}

/-! ## Statements -/

theorem load {e : Expr} (he : g.tokens e) (hf : ∀ f, Token.func f ∈ e → g.function f) :
    g.Keeps place g.tokens (Statement.load e) (Statement.load e) := by
  induction e with
  | nil => exact .pure he
  | cons t ts ih =>
    have hts := ih he.tail fun f h => hf f (mem_cons_of_mem _ h)
    unfold Statement.load
    split
    · rename_i f
      refine .bind (P := g.closure) (.make fun σ hσ => ?_) fun r hr => ?_
      · exact ⟨hσ.newClosures (Nat.le_refl _), .newClosure (hf f mem_cons_self)⟩
      · exact .bind hts fun out hout => .pure (hout.cons_val hr)
    · exact .bind hts fun out hout => .pure (hout.cons_of_mem he mem_cons_self)

theorem initialise (name : String) (hscope : g.active scope) (hv : g.value v) :
    g.Runs place (Statement.initialise scope name v) (Statement.initialise scope name v) := by
  unfold Statement.initialise
  refine .read fun σ hσ => ?_
  cases hn : σ.checkNew scope name with
  | error e => exact .same (.stop trivial (.refl hσ))
  | ok u =>
    have hhas : (σ.scope scope).vars.has name = false := by
      unfold Store.checkNew at hn
      split at hn
      · simp at hn
      · rename_i h; simpa using h
    exact .same (.ok trivial (.step hσ (.makeVar hscope hhas hv)))

theorem assignName (name : String) (hscope : g.active scope) (hv : g.value v) :
    g.Runs place (Statement.assignName scope name v) (Statement.assignName scope name v) := by
  unfold Statement.assignName
  refine .read fun σ hσ => ?_
  cases ho : σ.owner scope name with
  | error e => exact .same (.stop trivial (.refl hσ))
  | ok o =>
    have hhome := home_owner hσ (g.home_of_active hscope) ho
    exact .same (.ok trivial (.step hσ (.setVar hhome (Store.has_of_owner ho) hv)))

theorem settingPosition (length : Nat) (x : Float) :
    g.Runs place (Eval.settingPosition length x) (Eval.settingPosition length x) := by
  unfold Eval.settingPosition
  split
  · exact .breakdown
  · split
    · exact .pure trivial
    · exact .breakdown

theorem assignPart {base : Value} (key : Value) {whole₁ whole₂ : Eval Value} {P : Value → Prop}
    (hbase : g.value base) (hv : g.value v) (hwhole : g.Keeps place P whole₁ whole₂)
    (target source : Expr) :
    g.Runs place (Statement.assignPart base key v whole₁ target source)
      (Statement.assignPart base key v whole₂ target source) := by
  unfold Statement.assignPart
  split
  · refine .modify fun τ hτ => .modifyObject hbase fun e he => ?_
    rcases Table.mem_put he with he | he
    · exact he ▸ hv
    · exact hτ.objects hbase e he
  · refine .bind hwhole fun _ _ => .read fun σ hσ => ?_
    refine (?_ : g.Runs place _ _) σ hσ
    refine .bind (settingPosition _ _) fun i _ => .modify fun τ hτ => .modifyArray hbase fun w hw =>
      ?_
    rcases Array.mem_or_eq_of_mem_setIfInBounds hw with hw | rfl
    · exact hτ.arrays hbase w hw
    · exact hv
  · exact raiseAt

theorem assign {eval₁ eval₂ : Expr → Eval Value} {target : Expr} {whole₁ whole₂ : Eval Value}
    {P : Value → Prop} (heval : ∀ e, g.tokens e → g.Keeps none g.value (eval₁ e) (eval₂ e))
    (hscope : g.active scope) (htarget : g.tokens target) (hv : g.value v)
    (hwhole : g.Keeps none P whole₁ whole₂) (source : Expr) :
    g.Runs place (Statement.assign eval₁ scope target whole₁ source v)
      (Statement.assign eval₂ scope target whole₂ source v) := by
  refine Keeps.inBody ?_
  unfold Statement.assign
  split
  · exact assignName _ hscope hv
  · split
    · exact .raise
    · rename_i k _
      have hbase := heval _ (htarget.of_subset (take_subset k _))
      have hkey := heval (target.drop (k + 1)).dropLast
        (htarget.of_subset fun _ h => mem_of_mem_drop (dropLast_subset _ h))
      exact .bind hbase fun base hb => .bind hkey fun key _ => assignPart key hb hv hwhole _ _

theorem echo (on : Bool) (v : Value) :
    g.Runs place (Statement.echo on scope v) (Statement.echo on scope v) := by
  unfold Statement.echo
  refine .read fun σ hσ => ?_
  refine (?_ : g.Runs place _ _) σ hσ
  exact .ite (fun _ => .bind .ofFault fun s _ => .modify fun _ _ => .write) fun _ => .pure trivial

theorem shownArguments (args : List Value) :
    g.Runs place (Statement.shownArguments args) (Statement.shownArguments args) := by
  unfold Statement.shownArguments
  refine .read fun σ hσ => ?_
  refine (?_ : g.Runs place _ _) σ hσ
  exact .bind .ofFault fun _ _ => .pure trivial

/-! ## Blocks, loops and bodies -/

theorem ladder {ε κ : Type} {holds₁ holds₂ : ε → Eval Bool} {run₁ run₂ : κ → Eval Unit}
    (arms : List (ε × κ)) (hholds : ∀ a ∈ arms, g.Runs place (holds₁ a.1) (holds₂ a.1))
    (hrun : ∀ a ∈ arms, g.Runs place (run₁ a.2) (run₂ a.2)) :
    g.Runs place (Statement.ladder holds₁ run₁ arms) (Statement.ladder holds₂ run₂ arms) := by
  induction arms with
  | nil => exact .pure trivial
  | cons arm arms ih =>
    rw [Statement.ladder, Statement.ladder]
    refine .bind (hholds arm mem_cons_self) fun b _ => ?_
    refine .ite (fun _ => hrun arm mem_cons_self) fun _ => ?_
    exact ih (fun a ha => hholds a (mem_cons_of_mem _ ha))
      fun a ha => hrun a (mem_cons_of_mem _ ha)

theorem runAll {exec₁ exec₂ : Stmt → Eval Unit} (p : Program)
    (h : ∀ s ∈ p, g.Runs place (exec₁ s) (exec₂ s)) :
    g.Runs place (LittleJ.runAll exec₁ p) (LittleJ.runAll exec₂ p) := by
  induction p with
  | nil => exact .pure trivial
  | cons s rest ih =>
    rw [LittleJ.runAll, LittleJ.runAll]
    exact .bind (h s mem_cons_self) fun _ _ => ih fun t ht => h t (mem_cons_of_mem _ ht)

/-- A loop takes every `break` of its code. -/
theorem loopBody {code₁ code₂ : Eval Unit} (h : g.Runs (some true) code₁ code₂) (b : Bool) :
    g.Runs (some b) (Statement.body code₁) (Statement.body code₂) := by
  -- how the code ended decides how the body does, whichever of the two runs it was
  have fine : ∀ {σ : Store} {r : EStateM.Result Stop Store Unit}, g.Fine (some true)
      (fun _ => True) σ r →
      g.Fine (some b) (fun _ => True) σ (Statement.body (fun _ => r) σ) := by
    intro σ r hr
    cases hr with
    | ok _ hτ => exact .ok trivial hτ
    | @stop e _ he hτ =>
      cases e with
      | brk => exact .ok trivial hτ
      | _ => exact .stop he hτ
  intro σ hσ
  have hm := h σ hσ
  show g.Ends (some b) _ σ (Statement.body (fun _ => code₁ σ) σ)
      (Statement.body (fun _ => code₂ σ) σ)
  revert hm
  generalize code₁ σ = r₁
  generalize code₂ σ = r₂
  intro hm
  cases hm with
  | same hr => exact .same (fine hr)
  | rang ht hτ hf hr => exact .rang ht hτ hf fun hg => fine (hr hg)
  | objected hx hτ => exact .objected hx hτ

/-- A call takes every `return` of the body. -/
theorem returned {code₁ code₂ : Eval Unit} (h : g.Runs (some false) code₁ code₂) :
    g.Keeps none g.value (Statement.returned code₁) (Statement.returned code₂) := by
  have fine : ∀ {σ : Store} {r : EStateM.Result Stop Store Unit}, g.Fine (some false)
      (fun _ => True) σ r →
      g.Fine none g.value σ (Statement.returned (fun _ => r) σ) := by
    intro σ r hr
    cases hr with
    | ok _ hτ => exact .stop trivial hτ
    | @stop e _ he hτ =>
      cases e with
      | ret v => exact .ok he.2 hτ
      | brk => exact .stop (Or.inr (he.resolve_left (by simp))) hτ
      | _ => exact .stop trivial hτ
  intro σ hσ
  have hm := h σ hσ
  show g.Ends none g.value σ (Statement.returned (fun _ => code₁ σ) σ)
      (Statement.returned (fun _ => code₂ σ) σ)
  revert hm
  generalize code₁ σ = r₁
  generalize code₂ σ = r₂
  intro hm
  cases hm with
  | same hr => exact .same (fine hr)
  | rang ht hτ hf hr => exact .rang ht hτ hf fun hg => fine (hr hg)
  | objected hx hτ => exact .objected hx hτ

theorem iterate {step₁ step₂ : Eval Bool} (h : g.Runs place step₁ step₂) (rounds : Nat) :
    g.Runs place (Statement.iterate step₁ rounds) (Statement.iterate step₂ rounds) := by
  induction rounds with
  | zero => exact .throw trivial
  | succ rounds ih =>
    rw [Statement.iterate, Statement.iterate]
    exact .bind h fun b _ => .ite (fun _ => ih) fun _ => .pure trivial

theorem tick : g.Runs place (modifyGet Store.tick : Eval Nat) (modifyGet Store.tick) :=
  .make fun _ _ => ⟨trivial, .tick⟩

theorem round (limit : Option Rat) (start : Nat) {condition₁ condition₂ : Eval Bool}
    {code₁ code₂ : Eval Unit} (hcondition : g.Runs (some b) condition₁ condition₂)
    (hcode : g.Runs (some true) code₁ code₂) :
    g.Runs (some b) (Statement.round limit start condition₁ code₁)
      (Statement.round limit start condition₂ code₂) := by
  unfold Statement.round
  refine .bind hcondition fun holds _ => .ite (fun _ => ?_) fun _ => .pure trivial
  refine .bind (loopBody hcode b) fun ended _ => .ite (fun _ => ?_) fun _ => .pure trivial
  split
  · exact .pure trivial
  · exact .bind tick fun now _ => .check (.pure trivial)

theorem loop (limit : Option Rat) (rounds : Nat) {condition₁ condition₂ : Eval Bool}
    {code₁ code₂ : Eval Unit} (hcondition : g.Runs (some b) condition₁ condition₂)
    (hcode : g.Runs (some true) code₁ code₂) :
    g.Runs (some b) (Statement.loop limit rounds condition₁ code₁)
      (Statement.loop limit rounds condition₂ code₂) := by
  unfold Statement.loop
  exact .bind tick fun start _ => iterate (round limit start hcondition hcode) rounds

/-- A call runs in a scope that was not there before. -/
theorem enter {caller home : Nat} (params : List String) {args : List Value}
    (hcaller : g.active caller) (hhome : g.home home) (hargs : ∀ v ∈ args, g.value v) :
    g.Keeps place g.active (Statement.enter caller home params args)
      (Statement.enter caller home params args) := by
  intro σ hσ
  rw [Statement.enter_eq]
  cases hinner : σ.childScope home params args with
  | error x => exact .same (.stop trivial (.refl hσ))
  | ok inner =>
    have hstep := Step.enter hcaller hhome hargs hinner
    dsimp only
    split
    · exact .same (.stop trivial (.step hσ hstep))
    · exact .same (.ok (hσ.newScopes (Nat.le_refl _)) (.step hσ hstep))

/-! ## Layers -/

/-- A watched layer and the layer itself keep to the watch in all they are allowed to do. -/
structure Beside (g : Watch) (l₁ l₂ : Layer) : Prop where
  evaluate : ∀ {scope e}, g.active scope → g.tokens e →
    g.Keeps none g.value (l₁.evaluate scope e) (l₂.evaluate scope e)
  call : ∀ {caller r args}, g.active caller → g.closure r → (∀ v ∈ args, g.value v) →
    g.Keeps none g.value (l₁.call caller r args) (l₂.call caller r args)
  exec : ∀ {b scope s}, g.active scope → g.stmt b s → g.Runs (some b) (l₁.exec scope s)
      (l₂.exec scope s)

theorem Beside.spent : g.Beside spent spent where
  evaluate _ _ := .throw trivial
  call _ _ _ := .throw trivial
  exec _ _ := .throw trivial

variable {l₁ l₂ : Layer}

theorem heed {t : Task} {m₁ m₂ : Eval α} (ht : g.admits t) (h : g.Keeps place P m₁ m₂) :
    g.Keeps place P (Layer.heed g.alarm t m₁) m₂ := by
  intro σ hσ
  unfold Layer.heed
  split
  · exact h σ hσ
  · rename_i hf
    exact .rang ht (.refl hσ) hf (h σ hσ).fine

/-- A result is shown to the alarm as the expression that it is. -/
theorem shown {m₁ m₂ : Eval Value} (hscope : g.active scope) (h : g.Keeps place g.value m₁ m₂) :
    g.Keeps place g.value (do let v ← m₁; Layer.heed g.alarm (.evaluate scope [.val v]) (pure v))
    m₂ := by
  rw [← bind_pure m₂]
  exact .bind h fun v hv => heed ⟨hscope, Region.tokens_nil.cons_val hv⟩ (.pure hv)

theorem Beside.watched (h : g.Beside l₁ l₂) : g.Beside (l₁.watched g.alarm) l₂ where
  evaluate hscope he := heed ⟨hscope, he⟩ (h.evaluate hscope he)
  call hcaller hr hargs := heed ⟨hcaller, hr, hargs⟩ (h.call hcaller hr hargs)
  exec hscope hs := heed ⟨hscope, _, hs⟩ (h.exec hscope hs)

/-- An alarm that is also asked about results is asked only about what may be held. -/
theorem Beside.overseen (h : g.Beside l₁ l₂) : g.Beside (l₁.overseen g.alarm) l₂ where
  evaluate hscope he := heed ⟨hscope, he⟩ (shown hscope (h.evaluate hscope he))
  call hcaller hr hargs := heed ⟨hcaller, hr, hargs⟩ (shown hcaller (h.call hcaller hr hargs))
  exec hscope hs := heed ⟨hscope, _, hs⟩ (h.exec hscope hs)

theorem Beside.reduce (h : g.Beside l₁ l₂) (hscope : g.active scope) {ts : Expr}
    (hts : g.tokens ts) :
    g.Keeps place g.value (reduceUnder g.gauge (l₁.evaluate scope) (l₁.call scope) ts)
      (Expression.reduce (l₂.evaluate scope) (l₂.call scope) ts) :=
  Keeps.inBody (Watch.reduce (fun _ he => h.evaluate hscope he)
    (fun _ _ hr hargs => h.call hscope hr hargs) hts)

theorem Quiet.reduceUnder (hg : g.Quiet) : reduceUnder g.gauge = Expression.reduce := by
  funext eval call ts
  rw [show g.gauge = .silent from hg, reduceUnder_silent]

theorem Beside.runAll (h : g.Beside l₁ l₂) (hscope : g.active scope) {p : Program}
    (hp : ∀ s ∈ p, g.stmt b s) :
    g.Runs (some b) (LittleJ.runAll (l₁.exec scope) p) (LittleJ.runAll (l₂.exec scope) p) :=
  Watch.runAll p fun s hs => h.exec hscope (hp s hs)

variable {ctx : Context}

/-- A function without a home cannot be called, so a call that runs a body runs one of a function
that was made. -/
theorem Beside.above_call (h : g.Beside l₁ l₂) {caller r : Nat} {args : List Value}
    (hcaller : g.active caller) (hr : g.closure r) (hargs : ∀ v ∈ args, g.value v) :
    g.Keeps none g.value ((l₁.above ctx).call caller r args)
    ((l₂.above ctx).call caller r args) := by
  simp only [above]
  refine .read fun σ hσ => ?_
  refine (?_ : g.Keeps none g.value _ _) σ hσ
  refine .ite (fun _ => ?_) fun _ => ?_
  · exact .bind (shownArguments args) fun s _ => .bind (P := fun _ => False) .raise fun _ h =>
      h.elim
  · split
    · exact .breakdown
    · rename_i home hhome
      refine .bind (enter _ hcaller (hσ.homes hr hhome) hargs) fun inner hinner => ?_
      exact returned (h.runAll hinner (hσ.bodies hr (Store.lt_size_of_home hhome)))

/-- The value of an expression as a statement holds it. -/
theorem Beside.value (h : g.Beside l₁ l₂) (hscope : g.active scope) {e : Expr} (he : g.tokens e)
    (hf : ∀ f, Token.func f ∈ e → g.function f) :
    g.Keeps place g.value (do l₁.evaluate scope (← Statement.load e))
      (do l₂.evaluate scope (← Statement.load e)) :=
  .bind (load he hf) fun _ hts => (h.evaluate hscope hts).inBody

/-- Everything but the arithmetic is done alike on both sides. -/
theorem Beside.above_exec (h : g.Beside l₁ l₂) {s : Stmt} (hscope : g.active scope)
    (hs : g.stmt b s) :
    g.Runs (some b) ((l₁.aboveBy (reduceUnder g.gauge) ctx).exec scope s)
    ((l₂.above ctx).exec scope s) := by
  have htokens := g.values hs
  have hfunctions := g.functions hs
  have hvalue : ∀ e ∈ s.exprs, g.Keeps (some b) g.value
      (do l₁.evaluate scope (← Statement.load e)) (do l₂.evaluate scope (← Statement.load e)) :=
    fun e he => h.value hscope (htokens e he) (hfunctions e he)
  cases s with
  | init name e =>
    exact .bind (hvalue e (by simp [Stmt.exprs])) fun v hv => initialise name hscope hv
  | assign target e =>
    have ht : target ∈ (Stmt.assign target e).exprs := by simp [Stmt.exprs]
    have he : e ∈ (Stmt.assign target e).exprs := by simp [Stmt.exprs]
    refine .bind (load (htokens e he) (hfunctions e he)) fun ts hts => ?_
    refine .bind (resolve hscope hts) fun source hsource => ?_
    refine .bind (h.reduce hscope hsource) fun v hv => ?_
    refine .bind (load (htokens target ht) (hfunctions target ht)) fun us hus => ?_
    exact assign (fun _ he => h.evaluate hscope he) hscope hus hv (h.evaluate hscope hus) source
  | ladder arms =>
    refine ladder arms (fun a ha => ?_) fun a ha => h.runAll hscope (g.arms hs a ha)
    exact .bind (hvalue a.1 (mem_map_of_mem ha)) fun v _ => .truth
  | loop condition code =>
    have hc : condition ∈ (Stmt.loop condition code).exprs := by simp [Stmt.exprs]
    refine .bind (load (htokens condition hc) (hfunctions condition hc)) fun ts hts => ?_
    refine loop _ _ (.bind (h.evaluate hscope hts).inBody fun v _ => .truth) ?_
    exact h.runAll hscope (g.code hs)
  | ret e =>
    exact .bind (hvalue e (by simp [Stmt.exprs])) fun v hv => .throw ⟨rfl, hv⟩
  | brk =>
    refine .throw ?_
    cases b with
    | true => exact Or.inl rfl
    | false => exact Or.inr (g.jump hs)
  | exp e => exact .bind (hvalue e (by simp [Stmt.exprs])) fun v _ => echo _ v

theorem Beside.above (h : g.Beside l₁ l₂) :
    g.Beside (l₁.aboveBy (reduceUnder g.gauge) ctx) (l₂.above ctx) where
  evaluate hscope he := .bind (resolve hscope he) fun _ hts => h.reduce hscope hts
  call := h.above_call
  exec := h.above_exec

/-- Running with a budget keeps to every watch, beside the run with its arithmetic under the gauge.
-/
theorem beside_gauged (g : Watch) (ctx : Context) (fuel : Nat) :
    g.Beside (gauged g.gauge g.alarm ctx fuel) (within ctx fuel) := by
  induction fuel with
  | zero =>
    rw [within_zero, gauged]
    exact Beside.spent.overseen
  | succ fuel ih =>
    rw [within_succ, gauged]
    exact ih.above.overseen

/-- Running with a budget keeps to every watch with a quiet gauge, beside the watched run. -/
theorem beside_within (hg : g.Quiet) (ctx : Context) (fuel : Nat) :
    g.Beside (under g.alarm ctx fuel) (within ctx fuel) := by
  induction fuel with
  | zero =>
    rw [within_zero, under]
    exact Beside.spent.watched
  | succ fuel ih =>
    have habove : g.Beside _ ((within ctx fuel).above ctx) := ih.above
    rw [hg.reduceUnder, aboveBy_reduce] at habove
    rw [within_succ, under]
    exact habove.watched

/-! ## What a watch tells of a run -/

variable {α : Type} {P : α → Prop} {m₁ m₂ : Eval α} {σ τ : Store}

theorem Fine.finish {m : Eval α} (h : g.Fine place P τ (m σ)) : g.Reached τ (finish m σ) := by
  unfold LittleJ.finish
  revert h
  generalize m σ = r
  intro h
  cases h with
  | ok _ hr => exact hr
  | stop _ hr => exact hr

/-- The store in which a run ends is one that it reached. -/
theorem Keeps.finish (h : g.Keeps place P m₁ m₂) (hg : g.Quiet) (hσ : g.Closed σ) :
    g.Reached σ (finish m₂ σ) :=
  ((h σ hσ).fine hg).finish

theorem Keeps.result {a : α} (h : g.Keeps place P m₁ m₂) (hg : g.Quiet) (hσ : g.Closed σ)
    (hm : m₂ σ = .ok a τ) :
    P a ∧ g.Reached σ τ := by
  have hfine := (h σ hσ).fine hg
  rw [hm] at hfine
  cases hfine with
  | ok ha hr => exact ⟨ha, hr⟩

/-- If the alarm is silent at all that the watch allows, the run ends as the run beside it does
unless the gauge objects to a number. -/
theorem Keeps.same_or_objected (h : g.Keeps place P m₁ m₂) (hσ : g.Closed σ)
    (hquiet : ∀ t τ, g.admits t → g.Closed τ → g.alarm t τ = none) :
    (m₁ σ = m₂ σ ∧ g.Fine place P σ (m₂ σ)) ∨
      ∃ x f τ, g.gauge x = some f ∧ g.Reached σ τ ∧ m₁ σ = .error (.failure f) τ := by
  have hends := h σ hσ
  generalize hr : m₁ σ = r at hends
  cases hends with
  | same hfine => exact .inl ⟨rfl, hfine⟩
  | rang ht hτ hf _ =>
    rw [hquiet _ _ ht hτ.1] at hf
    cases hf
  | objected hx hτ => exact .inr ⟨_, _, _, hx, hτ, rfl⟩

end Watch

end LittleJ
