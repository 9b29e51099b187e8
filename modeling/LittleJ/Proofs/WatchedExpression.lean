import LittleJ.Proofs.Watch

/-!
# Expressions under a watch

Evaluating an expression keeps to a watch if the evaluations and calls inside of it do. What has to
be shown for each step is where its values come from: out of the tokens, out of what the values
among them lead to, or from what was just made.
-/

namespace LittleJ

open Eval List Operator Region Expression

variable {ts done : List Token} {x : Float} {v : Value} {args : List Value}
    {name : String} {r : Nat}

theorem mem_of_mem_eraseIdxIfInBounds {α : Type} {xs : Array α} {i : Nat} {x : α}
    (h : x ∈ xs.eraseIdxIfInBounds i) : x ∈ xs := by
  unfold Array.eraseIdxIfInBounds at h
  split at h
  · exact Array.mem_of_mem_eraseIdx h
  · exact h

theorem Eval.inside_subset (k : Nat) (ts : List Token) : inside k ts ⊆ ts :=
  fun _ h => mem_of_mem_take (mem_of_mem_drop h)

namespace Watch

variable {g : Watch} {place : Option Bool} {α : Type} {P : α → Prop}

/-! ## Natives -/

theorem newArray {xs : List Value} (hxs : ∀ v ∈ xs, g.value v) :
    g.Keeps place g.array (Eval.make (·.newArray xs.toArray)) (Eval.make (·.newArray xs.toArray)) :=
  .make fun _ hσ => ⟨hσ.newArrays (Nat.le_refl _), .newArray fun v hv => hxs v (by simpa using hv)⟩

theorem newObject {t : Table Value} (ht : ∀ e ∈ t, g.value e.2) :
    g.Keeps place g.object (Eval.make (·.newObject t)) (Eval.make (·.newObject t)) :=
  .make fun _ hσ => ⟨hσ.newObjects (Nat.le_refl _), .newObject ht⟩

theorem raiseAt {e : String → Error} : g.Keeps place P (Eval.raiseAt e ts) (Eval.raiseAt e ts) := by
  unfold Eval.raiseAt
  refine .read fun σ hσ => ?_
  exact Keeps.bind .ofFault (fun _ _ => .raise) σ hσ

theorem mem_of_numbers? {vs : List Value} {xs : List Float} (h : Math.numbers? vs = some xs)
    (hx : x ∈ xs) :
    .num x ∈ vs := by
  induction vs generalizing xs with
  | nil =>
    cases h
    cases hx
  | cons v vs ih =>
    cases v with
    | num y =>
      obtain ⟨ys, hys, rfl⟩ := Option.map_eq_some_iff.1 h
      rcases List.mem_cons.1 hx with rfl | hx
      · exact mem_cons_self
      · exact mem_cons_of_mem _ (ih hys hx)
    | _ => cases h

theorem mem_of_extreme {beats : Float → Float → Bool} {xs : List Float}
    (h : Math.extreme beats xs = some x) :
    x ∈ xs := by
  cases xs with
  | nil => cases h
  | cons y ys =>
    obtain rfl := Option.some.inj h
    -- the best so far is the first number or one of those that were looked at
    clear h
    induction ys generalizing y with
    | nil => exact mem_singleton_self y
    | cons z ys ih =>
      have hrest := ih (if beats z y then z else y)
      rcases List.mem_cons.1 hrest with hbest | hmem
      · rw [foldl_cons, hbest]
        split <;> simp
      · exact mem_cons_of_mem _ (mem_cons_of_mem _ hmem)

/-- What `max` and `min` look at may be held. -/
theorem value_of_mem_items {σ : Store} (hσ : g.Closed σ) (hv : g.value v) {items : List Value}
    (h : Math.items? σ v = some items) {w : Value} (hw : w ∈ items) : g.value w := by
  cases v with
  | arr r =>
    obtain rfl := Option.some.inj h
    exact hσ.arrays hv w (by simpa using hw)
  | str s =>
    obtain rfl := Option.some.inj h
    obtain ⟨c, _, rfl⟩ := List.mem_map.1 hw
    trivial
  | obj r =>
    obtain rfl := Option.some.inj h
    obtain ⟨k, _, rfl⟩ := List.mem_map.1 hw
    trivial
  | _ => cases h

theorem extremeOf (beats : Float → Float → Bool) (hv : g.value v) :
    g.Keeps place g.value (Math.extremeOf beats v) (Math.extremeOf beats v) := by
  unfold Math.extremeOf
  refine .read fun σ hσ => ?_
  refine (?_ : g.Keeps place g.value _ _) σ hσ
  cases hitems : Math.items? σ v with
  | none => exact .breakdown
  | some items =>
    simp only
    cases hnumbers : Math.numbers? items with
    | none => exact .raise
    | some xs =>
      simp only
      cases hextreme : Math.extreme beats xs with
      | none => exact .breakdown
      | some x =>
        exact .pure
          (value_of_mem_items hσ hv hitems (mem_of_numbers? hnumbers (mem_of_extreme hextreme)))

theorem random : g.Keeps place g.value Math.random Math.random := by
  unfold Math.random
  refine .read fun σ hσ => ?_
  refine (?_ : g.Keeps place g.value _ _) σ hσ
  refine .bind (.modify fun _ _ => .seed) fun _ _ => .pure (g.numbers.random _ ?_)
  have hlt := Nat.mod_lt (σ.seed * 6364136223846793005 + 1442695040888963407) (Nat.two_pow_pos 64)
  simp only [Nat.pow_eq] at hlt ⊢
  omega

/-- A number that a function gives, or a fault. -/
theorem ofFault_number {r : Except Fault Float} (h : ∀ x, r = .ok x → g.number x) :
    g.Keeps place g.value (do return .num (← ofFault r)) (do return .num (← ofFault r)) :=
  .bind (.ofFault_of h) fun _ hx => .pure hx

theorem mathCall (f : MathFunction) (hargs : ∀ v ∈ args, g.value v) :
    g.Keeps place g.value (Math.call f args) (Math.call f args) := by
  unfold Math.call
  split
  · exact random
  · exact extremeOf _ (hargs _ (by simp))
  · exact extremeOf _ (hargs _ (by simp))
  · next x y =>
      refine .bind (.ofFault_of fun z hz => ?_) fun z (hz : ∀ z', z = some z' → g.number z') => ?_
      · rintro z' rfl
        exact g.numbers.power (hargs (.num x) (by simp)) (hargs (.num y) (by simp)) hz
      · cases z with
        | some z => exact .pure (hz z rfl)
        | none => exact .breakdown
  · next y x =>
      exact ofFault_number fun z hz => g.numbers.atan2 (hargs (.num y) (by simp))
        (hargs (.num x) (by simp)) hz
  · rename_i x _ _ _
    have hx : g.value (.num x) := hargs _ (by simp)
    split
    · next h => exact ofFault_number fun y hy => g.numbers.unary h hx hy
    · exact .raise
  · exact .raise

theorem length (v : Value) : g.Keeps place g.value (Native.length v) (Native.length v) := by
  unfold Native.length
  refine .read fun σ hσ => ?_
  refine (?_ : g.Keeps place g.value _ _) σ hσ
  split
  · exact ofFault_number fun _ => g.numbers.count
  · exact ofFault_number fun _ => g.numbers.count
  · exact ofFault_number fun _ => g.numbers.count
  · exact .bind .ofFault fun _ _ => .raise

theorem keyArray (v : Value) : g.Keeps place g.value (Native.keyArray v) (Native.keyArray v) := by
  unfold Native.keyArray
  cases v with
  | obj r =>
    refine .read fun σ hσ => ?_
    refine (?_ : g.Keeps place g.value _ _) σ hσ
    refine .bind (newArray fun v hv => ?_) fun r hr => .pure hr
    obtain ⟨k, _, rfl⟩ := List.mem_map.1 hv
    trivial
  | _ => exact .bind .ofFault fun _ _ => .raise

theorem delete (key : Value) (hv : g.value v) :
    g.Keeps place g.value (Native.delete v key) (Native.delete v key) := by
  unfold Native.delete
  split
  · refine .read fun σ hσ => ?_
    refine (?_ : g.Keeps place g.value _ _) σ hσ
    refine .ite (fun _ => .bind (.modify fun τ hτ => ?_) fun _ _ => .pure trivial) fun _ => .raise
    exact .modifyObject hv fun e he => hτ.objects hv e (Table.mem_of_mem_erase he)
  · refine .read fun σ hσ => ?_
    refine (?_ : g.Keeps place g.value _ _) σ hσ
    refine .ite (fun _ => .bind (.modify fun τ hτ => ?_) fun _ _ => .pure trivial) fun _ => .raise
    exact .modifyArray hv fun w hw => hτ.arrays hv w (mem_of_mem_eraseIdxIfInBounds hw)
  · exact .raise

theorem push {element : Value} (hv : g.value v) (he : g.value element) :
    g.Keeps place g.value (Native.push v element) (Native.push v element) := by
  unfold Native.push
  cases v with
  | arr r =>
    refine .bind (.modify fun τ hτ => .modifyArray hv fun w hw => ?_) fun _ _ => ?_
    · rcases Array.mem_push.1 hw with hw | rfl
      · exact hτ.arrays hv w hw
      · exact he
    · refine .read fun σ hσ => ?_
      exact ofFault_number (fun _ => g.numbers.count) σ hσ
  | _ => exact .raise

theorem check (v text : Value) :
    g.Keeps place g.value (Native.check v text) (Native.check v text) := by
  unfold Native.check
  refine .bind .truth fun b _ => .ite (fun _ => .pure trivial) fun _ => ?_
  refine .read fun σ hσ => ?_
  exact Keeps.bind .ofFault (fun _ _ => .raise) σ hσ

theorem ordinal (v : Value) : g.Keeps place g.value (Native.ordinal v) (Native.ordinal v) := by
  unfold Native.ordinal
  split
  · split
    · exact .pure (g.numbers.ordinal _)
    · exact .raise
  · exact .raise

theorem character (v : Value) :
    g.Keeps place g.value (Native.character v) (Native.character v) := by
  unfold Native.character
  split
  · refine .ite (fun _ => .raise) fun _ => .ite (fun _ => .raise) fun _ => ?_
    split
    · exact .breakdown
    · exact .ite (fun _ => .breakdown) fun _ => .pure trivial
  · exact .raise

theorem perform (n : Native) (hargs : ∀ v ∈ args, g.value v) :
    g.Keeps place g.value (n.perform args) (n.perform args) := by
  unfold Native.perform
  split
  · refine .read fun σ hσ => ?_
    exact Keeps.bind .ofFault (fun _ _ => .pure trivial) σ hσ
  · refine .read fun σ hσ => ?_
    refine Keeps.bind .ofFault (fun s _ => ?_) σ hσ
    exact .bind (.modify fun _ _ => .write) fun _ _ => .pure trivial
  · exact .bind .ofFault fun _ _ => .pure trivial
  · exact length _
  · exact keyArray _
  · exact delete _ (hargs _ (by simp))
  · exact push (hargs _ (by simp)) (hargs _ (by simp))
  · exact check _ _
  · exact ordinal _
  · exact character _
  · exact mathCall _ hargs
  · exact .pure (hargs _ (by simp))
  · exact .bind (newArray hargs) fun r hr => .pure hr
  · exact .pure g.numbers.guest
  · exact .pure trivial
  · exact .pure trivial
  · exact .raise

theorem nativeCall (n : Native) (hargs : ∀ v ∈ args, g.value v) :
    g.Keeps place g.value (n.call args) (n.call args) := by
  unfold Native.call
  refine .check (.bind (perform n hargs) fun v hv => ?_)
  exact .ite (fun _ => .pure hv) fun _ => .breakdown

/-! ## Operators -/

theorem identical (a b : Token) :
    g.Runs place (Operator.identical a b) (Operator.identical a b) := by
  unfold Operator.identical
  split
  · split
    · exact .pure trivial
    · exact .breakdown
  · exact .breakdown
  · exact .breakdown
  · exact .breakdown
  · exact .breakdown
  · exact .pure trivial

theorem leftTruth (t : Token) : g.Runs place (Operator.leftTruth t) (Operator.leftTruth t) := by
  unfold Operator.leftTruth
  split
  · exact .truth
  · exact .breakdown

theorem checkChaining (op : Symbol) (next : Option Token) :
    g.Runs place (Operator.checkChaining op next) (Operator.checkChaining op next) := by
  unfold Operator.checkChaining
  split
  · exact .pure trivial
  · split
    · exact .pure trivial
    · exact .ite (fun _ => .raise) fun _ => .pure trivial

/-- A number is shown to the gauge, and may be held unless the gauge objects. -/
theorem asked {k₁ : Float → Eval α} (k₂ : Float → Eval α)
    (h : g.number x → g.Keeps place P (k₁ x) (k₂ x)) :
    g.Keeps place P (g.gauge.ask x >>= k₁) (k₂ x) := by
  intro σ hσ
  cases hx : g.gauge x with
  | none =>
    have hask : g.gauge.ask x = pure x := by rw [Gauge.ask, hx]
    rw [hask, pure_bind]
    exact h (g.passed hx) σ hσ
  | some f =>
    have hask : g.gauge.ask x = throw (.failure f) := by rw [Gauge.ask, hx]
    rw [hask]
    exact .objected hx (.refl hσ)

theorem toNumber (v : Value) : g.Runs place (Operator.toNumber v) (Operator.toNumber v) := by
  unfold Operator.toNumber
  split
  · exact .pure trivial
  · split
    · exact .pure trivial
    · exact .raise
  · exact .raise

theorem value_onStrings? {op : Symbol} {s t : String} (h : onStrings? op s t = some v) :
    g.value v := by
  unfold onStrings? at h
  split at h <;> cases h <;> trivial

/-- An operator makes of two numbers a number that the gauge is asked about, or a value that may be
held. -/
theorem value_onNumbers? {op : Symbol} {y : Float} (hx : g.number x) (hy : g.number y)
    {r : Except Fault Value} (h : onNumbers? op x y = some r) (hr : r = .ok v) :
    (Operator.arithmetic.contains op = true ∧ ∃ z, v = .num z) ∨ g.value v := by
  subst hr
  unfold onNumbers? at h
  split at h
  · exact .inr (by cases h; trivial)
  · exact .inr (by cases h; trivial)
  · exact .inr (by cases h; trivial)
  · exact .inr (by cases h; trivial)
  · cases h
    exact .inl ⟨rfl, _, rfl⟩
  · cases h
    exact .inl ⟨rfl, _, rfl⟩
  · cases h
    exact .inl ⟨rfl, _, rfl⟩
  · split at h
    · cases h
    · cases h
      exact .inl ⟨rfl, _, rfl⟩
  · split at h
    · cases h
    · next hzero =>
        cases h
        exact .inr (g.numbers.remainder (by simpa using hzero) hx hy)
  · cases h

/-- An operator gives one of its neighbours, a value that leads nowhere, or a number that the gauge
lets pass. -/
theorem combine (op : Symbol) {a b : Token} (whole : List Token) (ha : g.tokens [a])
    (hb : g.tokens [b]) : g.Keeps place (fun t => g.tokens [t]) (combineUnder g.gauge op a b whole)
      (Operator.combine op a b whole) := by
  have plain : ∀ {v : Value}, g.value v → g.tokens [.val v] :=
    fun hv => Region.tokens_nil.cons_val hv
  have made : g.Keeps place
      (fun t => (Operator.arithmetic.contains op = true ∧ ∃ z, t = .val (.num z)) ∨ g.tokens [t])
      (Operator.combine op a b whole) (Operator.combine op a b whole) := by
    unfold Operator.combine
    split
    · exact .bind (identical a b) fun _ _ => .pure (.inr (plain trivial))
    · exact .bind (identical a b) fun _ _ => .pure (.inr (plain trivial))
    · exact .bind (leftTruth a) fun c _ => .pure (.inr (by cases c <;> assumption))
    · exact .bind (leftTruth a) fun c _ => .pure (.inr (by cases c <;> assumption))
    · split
      · split
        · rename_i h
          exact .pure (.inr (plain (value_onStrings? h)))
        · exact raiseAt
      · split
        · rename_i h
          refine .bind (.ofFault_of fun v hv => value_onNumbers? ha.head hb.head h hv) fun v hv =>
            .pure ?_
          rcases hv with ⟨hop, z, rfl⟩ | hv
          · exact .inl ⟨hop, z, rfl⟩
          · exact .inr (plain hv)
        · exact raiseAt
      · exact raiseAt
  rw [← bind_pure (Operator.combine op a b whole)]
  refine .bind made fun t ht => ?_
  split
  · split
    · exact asked (fun x => pure (Token.val (.num x))) fun hx => .pure (plain hx)
    · next hop => exact .pure (ht.resolve_left fun h => hop h.1)
  · next hnum => exact .pure (ht.resolve_left fun ⟨_, z, hz⟩ => hnum z hz)

theorem levelFrom (level : List Symbol) (hdone : g.tokens done) (hts : g.tokens ts) :
    g.Keeps place g.tokens (levelFromUnder g.gauge level done ts)
    (Operator.levelFrom level done ts) := by
  fun_induction Operator.levelFrom level done ts with
  | case1 done =>
    rw [levelFromUnder]
    exact .pure hdone.reverse
  | case2 done t ts h ih =>
    rw [levelFromUnder.eq_def]
    simp only [h]
    exact ih (hdone.cons_of_mem hts mem_cons_self) hts.tail
  | case3 t op h a before b rest ih =>
    have ha : g.tokens [a] := hdone.of_subset (by simp)
    have hb : g.tokens [b] := hts.of_subset (by simp)
    rw [levelFromUnder.eq_def]
    simp only [h]
    refine .bind (checkChaining _ _) fun _ _ => .bind (combine _ _ ha hb) fun c hc => ?_
    exact ih c (hdone.tail.cons_of_mem hc mem_cons_self) hts.tail.tail
  | case4 =>
    rw [levelFromUnder.eq_def]
    simp only [*]
    exact .raise

theorem binaryFrom (levels : List (List Symbol)) (hts : g.tokens ts) :
    g.Keeps place g.tokens (binaryFromUnder g.gauge levels ts) (Operator.binaryFrom levels ts) := by
  induction levels generalizing ts with
  | nil => exact .pure hts
  | cons level rest ih =>
    unfold binaryFromUnder Operator.binaryFrom
    refine .bind (levelFrom level tokens_nil hts) fun out hout => ?_
    exact .ite (fun _ => .pure hout) fun _ => ih hout

/-! ## Steps that evaluate inner expressions -/

variable {eval₁ eval₂ : Expr → Eval Value}
  (heval : ∀ e : Expr, g.tokens e → g.Keeps none g.value (eval₁ e) (eval₂ e))

include heval in
theorem operand (hts : g.tokens ts) :
    g.Keeps none g.value (Operator.operand eval₁ ts) (Operator.operand eval₂ ts) := by
  unfold Operator.operand
  cases ts with
  | nil => exact .breakdown
  | cons t rest => exact heval _ (hts.of_subset (by simp))

include heval in
theorem unaryFrom {before after : List Token} (hbefore : g.tokens before)
    (hafter : g.tokens after) :
    g.Keeps none g.tokens (unaryFromUnder g.gauge eval₁ before after)
      (Operator.unaryFrom eval₂ before after) := by
  induction before generalizing after with
  | nil =>
    unfold unaryFromUnder Operator.unaryFrom
    exact .pure hafter
  | cons t before ih =>
    have kept : g.Keeps none g.tokens (unaryFromUnder g.gauge eval₁ before (t :: after))
        (Operator.unaryFrom eval₂ before (t :: after)) :=
      ih hbefore.tail (hafter.cons_of_mem hbefore mem_cons_self)
    -- what an operator makes is a boolean or a number
    have replaced : ∀ v : Value, g.value v →
        g.Keeps none g.tokens (unaryFromUnder g.gauge eval₁ before (.val v :: after.tail))
          (Operator.unaryFrom eval₂ before (.val v :: after.tail)) := fun v hv =>
      ih hbefore.tail ((hafter.of_subset fun _ => mem_of_mem_tail).cons_val hv)
    have hop := operand heval hafter
    unfold unaryFromUnder Operator.unaryFrom
    split
    · exact .bind hop fun v _ => .bind .truth fun b _ => replaced _ trivial
    · refine .ite (fun _ => .bind hop fun v hv => ?_) fun _ => kept
      cases v with
      | num x => exact replaced _ (g.numbers.neg hv)
      | _ => exact .raise
    · refine .ite (fun _ => .bind hop fun v _ => ?_) fun _ => kept
      refine .bind (toNumber v) fun x _ => ?_
      exact asked (fun x => Operator.unaryFrom eval₂ before (.val (.num x) :: after.tail))
        (replaced (.num x))
    · simp only [*]

include heval in
theorem pass (hts : g.tokens ts) :
    g.Keeps none g.tokens (passUnder g.gauge eval₁ ts) (Operator.pass eval₂ ts) := by
  unfold passUnder Operator.pass unary binary
  exact .bind (unaryFrom heval hts.reverse tokens_nil) fun out hout => binaryFrom _ hout

include heval in
theorem settleFrom (old : Nat) (hts : g.tokens ts) :
    g.Keeps none (fun t => g.tokens [t]) (settleFromUnder g.gauge eval₁ old ts)
      (Operator.settleFrom eval₂ old ts) := by
  induction old using Nat.strongRecOn generalizing ts with
  | ind old ih =>
    by_cases hone : ∃ t, ts = [t]
    · obtain ⟨t, rfl⟩ := hone
      rw [settleFromUnder, Operator.settleFrom]
      exact .pure hts
    · have hmany : ∀ t, ts = [t] → False := fun t ht => hone ⟨t, ht⟩
      rw [settleFromUnder.eq_2 g.gauge eval₁ old ts hmany, settleFrom.eq_2 eval₂ old ts hmany]
      refine .bind (pass heval hts) fun next hnext => ?_
      exact .ite (fun hlt => ih next.length hlt hnext) fun _ => raiseAt

include heval in
theorem settle (hts : g.tokens ts) :
    g.Keeps none (fun t => g.tokens [t]) (settleUnder g.gauge eval₁ ts)
    (Operator.settle eval₂ ts) := by
  unfold settleUnder Operator.settle
  exact .bind (pass heval hts) fun out hout => settleFrom heval _ hout

/-! ## Names -/

section

variable {scope : Nat} {σ : Store}

/-- A variable that is found belongs to a scope that may be seen. -/
theorem home_ownerFrom (hσ : g.Closed σ) {fuel o : Nat} (hr : g.home r)
    (h : σ.ownerFrom name fuel r = some o) :
    g.home o := by
  induction fuel generalizing r with
  | zero => simp [Store.ownerFrom] at h
  | succ fuel ih =>
    rw [Store.ownerFrom] at h
    split at h
    · exact Option.some.inj h ▸ hr
    · split at h
      · rename_i p hp
        exact ih (hσ.parents hr hp) h
      · simp at h

theorem home_owner (hσ : g.Closed σ) {o : Nat} (hr : g.home r) (h : σ.owner r name = .ok o) :
    g.home o := by
  unfold Store.owner at h
  split at h
  · rename_i ho
    exact Except.ok.inj h ▸ home_ownerFrom hσ hr ho
  · simp at h

theorem value_lookup (hσ : g.Closed σ) (hr : g.home r) (h : σ.lookup r name = .ok v) :
    g.value v := by
  unfold Store.lookup at h
  cases ho : σ.owner r name with
  | error e => simp [ho, bind, Except.bind] at h
  | ok o =>
    simp only [ho, bind, Except.bind, pure, Except.pure, Except.ok.injEq] at h
    subst h
    cases hv : (σ.scope o).vars.get? name with
    | none => trivial
    | some v => exact hσ.vars (home_owner hσ hr ho) _ (Table.mem_of_get? hv)

theorem tokens_substitute {value : String → Except Error Value}
    (hvalue : ∀ s v, value s = .ok v → g.value v) (depth : Int) (hts : g.tokens ts) :
    g.tokens (substitute value depth ts).1 := by
  fun_induction substitute value depth ts with
  | case1 => exact hts
  | case2 depth ts r ih => exact (ih hts.tail).cons_of_mem hts mem_cons_self
  | case3 depth ts r ih => exact (ih hts.tail).cons_of_mem hts mem_cons_self
  | case4 depth ts s h v hv r ih => exact (ih hts.tail).cons_val (hvalue s v hv)
  | case5 => exact hts
  | case6 depth ts s h r ih => exact (ih hts.tail).cons_of_mem hts mem_cons_self
  | case7 depth t ts r _ _ _ ih => exact (ih hts.tail).cons_of_mem hts mem_cons_self

theorem steps_adoptAll (hscope : g.active scope) (hts : g.tokens ts) (σ : Store) :
    g.Steps σ (adoptAll scope ts σ) := by
  unfold adoptAll
  induction ts generalizing σ with
  | nil => exact .refl
  | cons t ts ih =>
    simp only [foldl_cons]
    refine Relation.ReflTransGen.trans ?_ (ih hts.tail _)
    split
    · exact .single (.adopt hscope hts.head)
    · exact .refl

/-- The first step, whatever is done with the tokens before a missing name is reported. -/
theorem resolveWith (hscope : g.active scope) {keep : Expr → Eval Unit}
    (hkeep : ∀ ts, g.Runs place (keep ts) (keep ts)) {ts : Expr} (hts : g.tokens ts) :
    g.Keeps place g.tokens (Expression.resolveWith keep scope ts)
      (Expression.resolveWith keep scope ts) := by
  unfold Expression.resolveWith
  refine .bind (.modifyAll fun σ _ => steps_adoptAll hscope hts σ) fun _ _ => ?_
  refine .read fun σ hσ => ?_
  have hlookup : ∀ s v, σ.lookup scope s = .ok v → g.value v :=
    fun _ _ h => value_lookup hσ (g.home_of_active hscope) h
  have hout := tokens_substitute hlookup 0 hts
  revert hout
  generalize substitute (σ.lookup scope) 0 ts = r
  obtain ⟨out, e⟩ := r
  intro hout
  refine Keeps.bind (hkeep out) (fun _ _ => ?_) σ hσ
  cases e with
  | none => exact .pure hout
  | some e => exact .raise

theorem resolve (hscope : g.active scope) {ts : Expr} (hts : g.tokens ts) :
    g.Keeps place g.tokens (Expression.resolve scope ts) (Expression.resolve scope ts) :=
  resolveWith hscope (fun _ => .pure trivial) hts

end

/-! ## Literals -/

theorem partner (ts : List Token) : g.Runs place (Eval.partner ts) (Eval.partner ts) := by
  unfold Eval.partner
  cases Bracket.partner? ts with
  | some k => exact .pure trivial
  | none => exact raiseAt

theorem commaParts (hts : g.tokens ts) :
    g.Keeps place (fun parts => ∀ part ∈ parts, g.tokens part) (Eval.commaParts ts)
      (Eval.commaParts ts) := by
  unfold Eval.commaParts
  cases h : TopLevel.split (·.is .comma) ts with
  | ok parts =>
    refine .pure fun part hpart => hts.of_subset fun t ht => ?_
    exact TopLevel.mem_of_mem_split h hpart ht
  | error rest => exact raiseAt

include heval in
theorem elements {parts : List (List Token)} (hparts : ∀ part ∈ parts, g.tokens part) :
    g.Keeps none (fun vs => ∀ v ∈ vs, g.value v) (Expression.elements eval₁ parts)
      (Expression.elements eval₂ parts) := by
  induction parts with
  | nil => exact .pure (by simp)
  | cons part parts ih =>
    rw [Expression.elements, Expression.elements]
    refine .check (.bind (heval part (hparts part (by simp))) fun v hv => ?_)
    refine .bind (ih fun q hq => hparts q (by simp [hq])) fun vs hvs => .pure fun w hw => ?_
    rcases List.mem_cons.1 hw with rfl | hw
    · exact hv
    · exact hvs w hw

include heval in
theorem arrayValues (hts : g.tokens ts) :
    g.Keeps none (fun r => ∀ v ∈ r.1, g.value v) (Expression.arrayValues eval₁ ts)
      (Expression.arrayValues eval₂ ts) := by
  unfold Expression.arrayValues
  refine .bind (partner ts) fun k _ => ?_
  refine .bind (commaParts (hts.of_subset (inside_subset k ts))) fun parts hparts => ?_
  exact .bind (elements heval hparts) fun vs hvs => .pure hvs

include heval in
theorem entries (whole : List Token) {parts : List (List Token)} {table : Table Value}
    (hparts : ∀ part ∈ parts, g.tokens part) (htable : ∀ e ∈ table, g.value e.2) :
    g.Keeps none (fun t => ∀ e ∈ t, g.value e.2) (Expression.entries eval₁ whole parts table)
      (Expression.entries eval₂ whole parts table) := by
  induction parts generalizing table with
  | nil => exact .pure htable
  | cons part parts ih =>
    rw [entries.eq_def eval₁, entries.eq_def eval₂]
    dsimp only
    split
    · have hpart := hparts _ mem_cons_self
      split
      · refine .bind (heval _ hpart.tail.tail) fun v hv => ?_
        refine ih (fun q hq => hparts q (mem_cons_of_mem _ hq)) fun e he => ?_
        rcases Table.mem_put he with he | he
        · exact he ▸ hv
        · exact htable e he
      · exact raiseAt
    · exact raiseAt

include heval in
theorem literalsFrom (skip : Nat) (hdone : g.tokens done) (hts : g.tokens ts) :
    g.Keeps none g.tokens (Expression.literalsFrom eval₁ done skip ts)
      (Expression.literalsFrom eval₂ done skip ts) := by
  induction ts generalizing done skip with
  | nil =>
    rw [Expression.literalsFrom, Expression.literalsFrom]
    exact .pure hdone.reverse
  | cons t ts ih =>
    cases skip with
    | succ skip =>
      rw [Expression.literalsFrom, Expression.literalsFrom]
      exact ih skip hdone hts.tail
    | zero =>
      rw [Expression.literalsFrom, Expression.literalsFrom]
      refine .ite (fun _ => ?_) fun _ => .ite (fun _ => ?_) fun _ => ?_
      · refine .bind (partner (t :: ts)) fun k _ => ?_
        refine .bind (commaParts (hts.of_subset (inside_subset k _))) fun parts hparts => ?_
        refine .bind (entries heval _ hparts (by simp)) fun table htable => ?_
        exact .bind (newObject htable) fun r hr => ih k (hdone.cons_val hr) hts.tail
      · refine .bind (arrayValues heval hts) fun p hp => ?_
        exact .bind (newArray hp) fun r hr => ih p.2 (hdone.cons_val hr) hts.tail
      · exact ih 0 (hdone.cons_of_mem hts mem_cons_self) hts.tail

/-! ## Refinements, calls and groups -/

theorem position (what : String) (length : Nat) (key : Value) :
    g.Runs place (Expression.position what length key) (Expression.position what length key) := by
  unfold Expression.position
  split
  · refine .ite (fun _ => .breakdown) fun _ => ?_
    split
    · exact .breakdown
    · exact .ite (fun _ => .pure trivial) fun _ => .raise
  · exact .breakdown

theorem refine {base : Value} (key : Value) (hbase : g.value base) :
    g.Keeps place g.value (Expression.refine base key) (Expression.refine base key) := by
  unfold Expression.refine
  refine .read fun σ hσ => ?_
  refine (?_ : g.Keeps place g.value _ _) σ hσ
  split
  · rename_i r
    split
    · split
      · rename_i v hv
        exact .pure (hσ.objects hbase _ (Table.mem_of_get? hv))
      · exact .raise
    · exact .raise
  · rename_i r
    refine .bind (position _ _ _) fun i _ => .pure ?_
    by_cases hi : i < (σ.array r).size
    · exact hσ.arrays hbase _ (by simp [Array.getD, hi])
    · rw [Array.getD, dif_neg hi]
      trivial
  · exact .bind (position _ _ _) fun _ _ => .pure trivial
  · exact .breakdown

variable {call₁ call₂ : Nat → List Value → Eval Value}
  (hcall : ∀ r args, g.closure r → (∀ v ∈ args, g.value v) → g.Keeps none g.value (call₁ r args)
    (call₂ r args))

include hcall in
theorem apply {f : Value} (hf : g.value f) (hargs : ∀ v ∈ args, g.value v) :
    g.Keeps none g.value (Expression.apply call₁ f args) (Expression.apply call₂ f args) := by
  unfold Expression.apply
  split
  · exact hcall _ _ hf hargs
  · exact nativeCall _ hargs
  · exact .breakdown

include heval hcall in
theorem applyFrom (skip : Nat) (hdone : g.tokens done) (hts : g.tokens ts) :
    g.Keeps none g.tokens (Expression.applyFrom eval₁ call₁ done skip ts)
      (Expression.applyFrom eval₂ call₂ done skip ts) := by
  induction ts generalizing done skip with
  | nil =>
    rw [Expression.applyFrom, Expression.applyFrom]
    exact .pure hdone.reverse
  | cons t ts ih =>
    have inner : ∀ k, g.Keeps none g.value (eval₁ (inside k (t :: ts)))
        (eval₂ (inside k (t :: ts))) :=
      fun k => heval _ (hts.of_subset (inside_subset k _))
    have replaced : ∀ {before : List Token} (k : Nat) {v : Value}, g.tokens before → g.value v →
        g.Keeps none g.tokens (Expression.applyFrom eval₁ call₁ (.val v :: before) k ts)
          (Expression.applyFrom eval₂ call₂ (.val v :: before) k ts) :=
      fun k _ hbefore hv => ih k (hbefore.cons_val hv) hts.tail
    cases skip with
    | succ skip =>
      rw [Expression.applyFrom, Expression.applyFrom]
      exact ih skip hdone hts.tail
    | zero =>
      rw [applyFrom.eq_def eval₁, applyFrom.eq_def eval₂]
      dsimp only
      refine .ite (fun _ => ?_) fun _ => .ite (fun _ => ?_) fun _ => ?_
      · split
        · refine .ensure (.bind (partner (t :: ts)) fun k _ => .check ?_)
          refine .bind (inner k) fun key _ => .bind (refine key hdone.head) fun v hv => ?_
          exact replaced k hdone.tail hv
        · exact .breakdown
      · split
        · rename_i f before
          refine .bind (partner (t :: ts)) fun k _ => .ite (fun _ => ?_) fun _ => ?_
          · have hargs :
              g.tokens (.sym .lbracket :: (inside k (t :: ts) ++ [Token.sym .rbracket])) :=
              tokens.cons (by simp)
                ((hts.of_subset (inside_subset k _)).append (tokens_sym _))
            refine .bind (arrayValues heval hargs) fun args hargs => ?_
            refine .bind (apply hcall hdone.head hargs) fun v hv => ?_
            exact replaced k hdone.tail hv
          · exact .bind (inner k) fun v hv => replaced k hdone hv
        · refine .bind (partner (t :: ts)) fun k _ => ?_
          exact .bind (inner k) fun v hv => replaced k hdone hv
      · exact ih 0 (hdone.cons_of_mem hts mem_cons_self) hts.tail

include heval hcall in
theorem applications (hts : g.tokens ts) :
    g.Keeps none g.tokens (Expression.applications eval₁ call₁ ts)
      (Expression.applications eval₂ call₂ ts) := by
  unfold Expression.applications
  refine .read fun σ hσ => ?_
  refine (?_ : g.Keeps none g.tokens _ _) σ hσ
  exact .ensure (applyFrom heval hcall 0 tokens_nil hts)

include heval hcall in
/-- The value of an expression whose names are replaced. -/
theorem reduce {ts : Expr} (hts : g.tokens ts) :
    g.Keeps none g.value (reduceUnder g.gauge eval₁ call₁ ts)
    (Expression.reduce eval₂ call₂ ts) := by
  unfold reduceUnder Expression.reduce literals
  refine .bind (literalsFrom heval 0 tokens_nil hts) fun us hus => ?_
  refine .bind (applications heval hcall hus) fun ws hws => ?_
  refine .bind (settle heval hws) fun t ht => ?_
  cases t with
  | val v => exact .ite (fun _ => .pure ht.head) fun _ => .raise
  | _ => exact .raise

end Watch

end LittleJ
