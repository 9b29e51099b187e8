import LittleJ.Proofs.FiniteNumber
import LittleJ.Proofs.Isolation

/-!
# Where infinite numbers come from

A run can come to hold an infinity or NaN: a text may have one among its number tokens, `+`, `-`,
`*` and `/` do not look at their result, and unary `+` reads one from a string. There is no other
way. From a text with finite numbers only, and up to the first result of this kind, every number is
finite that a variable, an array or an object holds, that is passed to a function, or that comes
back from one.

The arithmetic is put under a gauge that objects to a result that is not finite. What is left of a
run then has finite numbers only, at all moments at which something starts or gives a value.
-/

namespace LittleJ

open Lexer Program List Watch

/-! ## Finite stores -/

/-- A finite number, or no number. -/
def Value.IsFinite : Value → Prop
  | .num x => Math.isFinite x = true
  | _ => True

/-- All numbers in variables, arrays and objects are finite, and so are those in the code of
functions. -/
structure Store.Finite (σ : Store) : Prop where
  vars : ∀ s, ∀ e ∈ (σ.scope s).vars, e.2.IsFinite
  arrays : ∀ r, ∀ v ∈ σ.array r, v.IsFinite
  objects : ∀ r, ∀ e ∈ σ.object r, e.2.IsFinite
  code : ∀ r, r < σ.closures.size → Values Value.IsFinite (σ.closure r).function.body

/-- All numbers are finite in what is evaluated or run next, or passed to a function. -/
def Task.Finite : Task → Prop
  | .evaluate _ e => ∀ v, .val v ∈ e → v.IsFinite
  | .call _ _ args => ∀ v ∈ args, v.IsFinite
  | .exec _ s => ∀ e ∈ s.exprs, ∀ v, .val v ∈ e → v.IsFinite

theorem Store.finite_empty : Store.empty.Finite where
  vars _ e he := absurd (a := e ∈ []) he not_mem_nil
  arrays _ v hv := absurd (a := v ∈ #[]) hv (Array.not_mem_empty v)
  objects _ e he := absurd (a := e ∈ []) he not_mem_nil
  code r hr := absurd hr (Nat.not_lt_zero r)

/-- The gauge that lets finite numbers pass. -/
def Gauge.finite (f : Failure) : Gauge := fun x =>
  if Math.isFinite x then none else some f

theorem Gauge.isFinite_of_finite {f : Failure} {x : Float} (h : Gauge.finite f x = none) :
    Math.isFinite x = true := by
  unfold Gauge.finite at h
  split at h
  · assumption
  · cases h

/-! ## Code inside code -/

theorem Program.Writes.holds_of_holds {p : Program} {s : Stmt} {f : Function} (h : p.Writes s)
    (hf : s.Holds f) :
    p.Holds f := by
  rcases h with ⟨u, hu, hs⟩ | ⟨g, ⟨w, hw, hg⟩, u, hu, hs⟩
  · exact ⟨u, hu, hs.holds hf⟩
  · exact ⟨w, hw, hg.body hu (hs.holds hf)⟩

/-- Code that is written in written code. -/
theorem Program.Writes.trans {p q : Program} {s : Stmt} (h : q.Writes s)
    (hq : ∀ u ∈ q, p.Writes u) : p.Writes s := by
  rcases h with ⟨u, hu, hs⟩ | ⟨f, ⟨w, hw, hf⟩, u, hu, hs⟩
  · rcases hq u hu with ⟨u', hu', hs'⟩ | ⟨g, hg, u', hu', hs'⟩
    · exact .inl ⟨u', hu', hs.trans hs'⟩
    · exact .inr ⟨g, hg, u', hu', hs.trans hs'⟩
  · exact .inr ⟨f, (hq w hw).holds_of_holds hf, u, hu, hs⟩

theorem Program.Values.of_writes {N : Value → Prop} {p q : Program} (h : p.Values N)
    (hq : ∀ u ∈ q, p.Writes u) :
    q.Values N :=
  fun s hs => h s (hs.trans hq)

/-- The values in a program are those in its statements. -/
theorem Program.values_of_forall {N : Value → Prop} {p : Program} (h : ∀ s ∈ p, Values N [s]) :
    p.Values N := by
  rintro u (⟨w, hw, hu⟩ | ⟨g, ⟨w, hw, hg⟩, hu⟩)
  · exact h w hw u (.inl ⟨w, mem_singleton_self w, hu⟩)
  · exact h w hw u (.inr ⟨g, ⟨w, mem_singleton_self w, hg⟩, hu⟩)

/-! ## The watch -/

namespace Watch

/-- A run may hold finite numbers only, and run code that has only such numbers. -/
def finite (f : Failure) (alarm : Alarm) : Watch where
  number x := Math.isFinite x = true
  numbers := Number.closed_isFinite
  array _ := True
  object _ := True
  closure _ := True
  home _ := True
  active _ := True
  home_of_active _ := trivial
  alarm := alarm
  gauge := .finite f
  passed := Gauge.isFinite_of_finite
  function h := Values Value.IsFinite h.body
  stmt _ s := Values Value.IsFinite [s]
  loose := True
  body hf s hs := hf.of_writes (List.forall_mem_singleton.2 (writes_of_mem hs))
  values hs e he v hv := by
    have hfinite := hs _ (writes_of_mem (mem_singleton_self _)) e he v hv
    cases v <;> exact hfinite
  functions hs e he h hh :=
    hs.of_writes fun u hu => writes_of_mem_body ⟨_, mem_singleton_self _, .here he hh⟩ hu
  arms hs a ha s hmem :=
    hs.of_writes (List.forall_mem_singleton.2
      ((writes_of_mem (mem_singleton_self _)).block (mem_map_of_mem ha) hmem))
  code hs s hmem :=
    hs.of_writes (List.forall_mem_singleton.2
      ((writes_of_mem (mem_singleton_self _)).block (mem_singleton_self _) hmem))
  jump _ := trivial

variable {f : Failure} {alarm : Alarm} {σ τ : Store}

theorem value_finite {v : Value} : (finite f alarm).value v ↔ v.IsFinite := by
  cases v <;> exact Iff.rfl

theorem closed_finite : (finite f alarm).Closed σ ↔ σ.Finite := by
  constructor
  · intro h
    exact
      { vars := fun s e he => value_finite.1 (h.vars trivial e he)
        arrays := fun r v hv => value_finite.1 (h.arrays trivial v hv)
        objects := fun r e he => value_finite.1 (h.objects trivial e he)
        code := fun r hr => values_of_forall (h.bodies (r := r) trivial hr) }
  · intro h
    exact
      { arrays := fun _ v hv => value_finite.2 (h.arrays _ v hv)
        objects := fun _ e he => value_finite.2 (h.objects _ e he)
        bodies := fun _ hlt s hs => (finite f alarm).body (h.code _ hlt) s hs
        homes := fun _ _ => trivial
        vars := fun _ e he => value_finite.2 (h.vars _ e he)
        parents := fun _ _ => trivial
        newArrays := fun _ => trivial
        newObjects := fun _ => trivial
        newClosures := fun _ => trivial
        newScopes := fun _ => trivial }

theorem finite_of_admits {t : Task} (h : (finite f alarm).admits t) : t.Finite := by
  cases t with
  | evaluate scope e => exact fun v hv => value_finite.1 (h.2 v hv)
  | call caller r args => exact fun v hv => value_finite.1 (h.2.2 v hv)
  | exec scope s =>
    obtain ⟨-, b, hs⟩ := h
    exact fun e he v hv => value_finite.1 ((finite f alarm).values hs e he v hv)

/-- Whether or not the gauge objects, the store in which a computation ends beside itself is closed.
-/
theorem Keeps.closed_finish {g : Watch} {α : Type} {place : Option Bool} {P : α → Prop} {m : Eval α}
    (h : g.Keeps place P m m) (hσ : g.Closed σ) : g.Closed (LittleJ.finish m σ) := by
  have hends := h σ hσ
  unfold LittleJ.finish
  generalize m σ = r at hends
  cases hends with
  | same hfine =>
    cases hfine with
    | ok _ hτ => exact hτ.1
    | stop _ hτ => exact hτ.1
  | rang _ hτ _ _ => exact hτ.1
  | objected _ hτ => exact hτ.1

end Watch

/-- An interpreter is made with finite numbers only. -/
theorem Interpreter.finite_make {σ : Store} (h : σ.Finite) (loopLimit depthLimit : Option Rat)
    (writes : Bool) : (finish (make loopLimit depthLimit writes) σ).Finite := by
  have hkeeps : (Watch.finite (.fault .overflow) fun _ _ => none).Keeps none _
      (make loopLimit depthLimit writes) _ :=
    Watch.make loopLimit depthLimit writes
  exact Watch.closed_finite.1 (hkeeps.closed_finish (Watch.closed_finite.2 h))

/-- **Numbers are finite up to the first arithmetic result that is not.** Take a text whose number
tokens are finite, and run it in any scope of a store that has finite numbers only, as it has when
an interpreter is made.

Let the results of `+`, `-`, `*`, `/` and of unary `+` be under a gauge that stops the run with `f`
if one is not finite, and let an alarm be asked before each evaluation, call and statement, and
about each value that an evaluation or a call gives. An alarm that is silent as long as all numbers
are finite, those in the store and those that it is asked about, is not heard: the run ends as it
does without gauge and alarm, in a store with finite numbers only, or the gauge stops it in such a
store. -/
theorem finite_until_objection {text : String} {ts : List Token} (hlex : lex text = .ok ts)
    (hts : ∀ x, .val (.num x) ∈ ts → Math.isFinite x = true) {p : Program}
    (hp : parseText text = .ok p) {σ : Store} (hσ : σ.Finite) (ctx : Context) (fuel scope : Nat)
    (f : Failure) {alarm : Alarm} (halarm : ∀ t τ, t.Finite → τ.Finite → alarm t τ = none) :
    (∀ loopLimit depthLimit writes,
      (finish (Interpreter.make loopLimit depthLimit writes) σ).Finite) ∧
    ((runAll ((Layer.gauged (.finite f) alarm ctx fuel).exec scope) p σ =
      runProgram ctx fuel scope p σ ∧
        (finish (runProgram ctx fuel scope p) σ).Finite ∧
        ∀ v τ, runProgram ctx fuel scope p σ = .error (.ret v) τ → v.IsFinite) ∨
        ∃ τ : Store, τ.Finite ∧
        runAll ((Layer.gauged (.finite f) alarm ctx fuel).exec scope) p σ = .error
        (.failure f) τ) := by
  refine ⟨Interpreter.finite_make hσ, ?_⟩
  have hvalues : p.Values Value.IsFinite := by
    refine values_of_parseText trivial hlex (fun v hv => ?_) hp
    cases v with
    | num x => exact hts x hv
    | _ => trivial
  have hkeeps : (finite f alarm).Runs (some false)
      (runAll ((Layer.gauged (.finite f) alarm ctx fuel).exec scope) p)
      (runProgram ctx fuel scope p) :=
    (beside_gauged (finite f alarm) ctx fuel).runAll trivial fun s hs =>
      hvalues.of_writes (List.forall_mem_singleton.2 (writes_of_mem hs))
  have hquiet : ∀ t τ, (finite f alarm).admits t → (finite f alarm).Closed τ → alarm t τ = none :=
    fun t τ ht hτ => halarm t τ (finite_of_admits ht) (Watch.closed_finite.1 hτ)
  rcases hkeeps.same_or_objected (Watch.closed_finite.2 hσ) hquiet with ⟨hsame, hfine⟩ |
    ⟨x, f', τ, hx, hτ, hstop⟩
  · refine .inl ⟨hsame, Watch.closed_finite.1 hfine.finish.1, fun v τ hret => ?_⟩
    rw [hret] at hfine
    cases hfine with
    | stop he _ => exact Watch.value_finite.1 he.2
  · obtain rfl : f = f' := by
      have hx : (if Math.isFinite x then none else some f) = some f' := hx
      split at hx
      · cases hx
      · exact Option.some.inj hx
    exact .inr ⟨τ, Watch.closed_finite.1 hτ.1, hstop⟩

/-- A text with finite numbers and a product that is not, its tokens and its program. -/
def productText : String :=
  "var x = 1e308 * 10;"

def productTokens : List Token :=
  [.sym .varMark, .sym .kwVar, .name "x", .sym .assign, .val (.num 1e308), .sym .star,
    .val (.num 10), .sym .semi]

def productProgram : Program :=
  [.init "x" [.val (.num 1e308), .sym .star, .val (.num 10)]]

/-- The store of an interpreter that was just made. -/
def freshStore : Store :=
  finish (Interpreter.make none none true) Store.empty

open Classical in
/-- The alarm that rings as soon as some number is not finite. -/
noncomputable def finiteAlarm : Alarm := fun t τ =>
  if t.Finite ∧ τ.Finite then none else some (.fault .badOperand)

/-- Under the strictest alarm the text runs to its end, or up to the product. -/
theorem finite_until_objection_product :
    lex productText = .ok productTokens ∧ parseText productText = .ok productProgram ∧
    freshStore.Finite ∧
    ((runAll ((Layer.gauged (.finite (.fault .overflow)) finiteAlarm ⟨none, false, 9⟩ 9).exec 0)
      productProgram
          freshStore = runProgram ⟨none, false, 9⟩ 9 0 productProgram freshStore ∧
        (finish (runProgram ⟨none, false, 9⟩ 9 0 productProgram) freshStore).Finite) ∨
        ∃ τ : Store, τ.Finite ∧
        runAll ((Layer.gauged (.finite (.fault .overflow)) finiteAlarm ⟨none, false, 9⟩ 9).exec 0)
        productProgram
          freshStore = .error (.failure (.fault .overflow)) τ) := by
  have hlex : lex productText = .ok productTokens := by rfl
  have hp : parseText productText = .ok productProgram := by rfl
  have hts : ∀ x, .val (.num x) ∈ productTokens → Math.isFinite x = true := by
    intro x hx
    simp only [productTokens, mem_cons, not_mem_nil, reduceCtorEq, false_or, or_false,
      Token.val.injEq, Value.num.injEq] at hx
    rcases hx with rfl | rfl <;> decide +kernel
  have hσ : freshStore.Finite := Interpreter.finite_make Store.finite_empty none none true
  obtain ⟨-, hends⟩ := finite_until_objection hlex hts hp hσ ⟨none, false, 9⟩ 9 0 (.fault .overflow)
    fun t τ ht hτ => show finiteAlarm t τ = none from if_pos ⟨ht, hτ⟩
  refine ⟨hlex, hp, hσ, ?_⟩
  rcases hends with ⟨hsame, hend, -⟩ | hstop
  · exact .inl ⟨hsame, hend⟩
  · exact .inr hstop

/-- The number that a text binds to `x` when an interpreter that was just made runs it. -/
def boundNumber (text : String) : Option Float :=
  let run : Eval Unit := do (← Interpreter.make none none true).run ⟨9, 9⟩ [] (.text text) false
  match (finish run Store.empty).lookup 0 "x" with
  | .ok (.num x) => some x
  | _ => none

/-- Texts that bind an infinity or NaN: made by arithmetic, written as a number, and read from a
string. -/
def unboundedTexts : List String :=
  ["var x = 1e308 * 10;", "var x = Inf;", "var x = +'nan';"]

theorem unboundedTexts_bind :
    unboundedTexts.map (fun text => (boundNumber text).map Math.isFinite) =
      [some false, some false, some false] := by
  decide +kernel

end LittleJ
