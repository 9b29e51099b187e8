import LittleJ.Proofs.Execution
import LittleJ.Proofs.Selection

/-!
# Setting an element

An assignment to an element evaluates the right side, then the base of its target, then the key,
each once. That says where to write. Then it evaluates the whole target once more, to see whether
the element is there, and only if this second evaluation comes to a value it writes: to the array
and position that the first one has found.

**So base and key are evaluated twice**, and if they do not come to the same both times, another
element is checked than is set. Where they do, the element is set if the key is one of its
positions. If it is not, the array stays as the evaluations left it; and there is an error for a
position past the end and for a key that is no number, but a number that is no position breaks the
assignment down.
-/

namespace LittleJ

open LittleJ.Bracket LittleJ.Number LittleJ.Expression List Eval Statement

/-! ## Targets -/

namespace Statement

/-- The first evaluation of an assignment to a part: its value, and the base and the key of its
target with what they come to. -/
def locate (ctx : Context) (fuel scope : Nat) (base key source : Expr) :
    Eval (Value × (Expr × Value) × Expr × Value) := do
  let v ← evaluate ctx (fuel + 1) scope (← load source)
  let base ← load base
  let key ← load key
  let b ← evaluate ctx fuel scope base
  let i ← evaluate ctx fuel scope key
  return (v, (base, b), key, i)

theorem load_append (ts us : Expr) : load (ts ++ us) = do return (← load ts) ++ (← load us) := by
  induction ts with
  | nil => simp [load]
  | cons t ts ih => cases t <;> simp [load, ih]

theorem load_selection (base key : Expr) :
    load (selection base key) = do return selection (← load base) (← load key) := by
  simp [selection, load_append, load]

theorem opener?_selection (base : Expr) {key : Expr} (h : Nested key) :
    opener? (selection base key) = some base.length := by
  rw [selection, ← cons_append, ← append_assoc,
    opener?_eq_some_iff (by decide) (show openerOf? "]" = some "[" from rfl) (by decide)]
  exact ⟨base, .sym .lbracket, key, rfl, by decide, h.level_reverse .square, rfl⟩

/-- An assignment to a part evaluates the base and the key of its target. -/
theorem assign_selection (eval : Expr → Eval Value) (scope : Nat) (base : Expr) {key : Expr}
    (h : Nested key) (whole : Eval Value) (source : Expr) (v : Value) :
    assign eval scope (selection base key) whole source v = (do
      let b ← eval base
      let i ← eval key
      assignPart b i v whole (selection base key) source) := by
  have htake : (selection base key).take base.length = base := take_left
  have hdrop : ((selection base key).drop (base.length + 1)).dropLast = key := by
    rw [selection, append_cons, drop_left' (by simp), dropLast_concat]
  unfold assign
  split
  next s hs =>
    have hlength := congrArg length hs
    simp only [selection, length_append, length_cons, length_nil] at hlength
    omega
  next => simp only [opener?_selection base h, htake, hdrop]

/-- Writes an element at the position that a number means. -/
def setElement (a : Nat) (x : Float) (v : Value) : Eval Unit := do
  let n ← settingPosition ((← get).array a).size x
  modify (·.modifyArray a (·.setIfInBounds n v))

/-- **An assignment to a part**, once its value, base and key are found. -/
theorem exec_of_locate {ctx : Context} {fuel scope : Nat} {base key source base' key' : Expr}
    {v b i : Value} {σ ρ : Store} (h : locate ctx fuel scope base key source σ = .ok
      (v, (base', b), key', i) ρ) (hnested : Nested key') :
    ∃ shown, exec ctx (fuel + 1) scope (.assign (selection base key) source) σ =
      assignPart b i v (evaluate ctx fuel scope (selection base' key'))
      (selection base' key') shown ρ := by
  obtain ⟨source', σ₁, hsource, h⟩ := Eval.bind_eq_ok.1 h
  obtain ⟨v', σ₂, hv, h⟩ := Eval.bind_eq_ok.1 h
  obtain ⟨base'', σ₃, hbase, h⟩ := Eval.bind_eq_ok.1 h
  obtain ⟨key'', σ₄, hkey, h⟩ := Eval.bind_eq_ok.1 h
  obtain ⟨b', σ₅, hb, h⟩ := Eval.bind_eq_ok.1 h
  obtain ⟨i', σ₆, hi, h⟩ := Eval.bind_eq_ok.1 h
  cases h
  rw [evaluate] at hv
  obtain ⟨shown, σ₇, hshown, hv⟩ := Eval.bind_eq_ok.1 hv
  have htarget : load (selection base key) σ₂ = .ok (selection base' key') σ₄ := by
    rw [load_selection, bind_of_ok hbase, bind_of_ok hkey]
    rfl
  refine ⟨shown, ?_⟩
  rw [exec, bind_of_ok hsource, bind_of_ok hshown, bind_of_ok hv, bind_of_ok htarget,
    assign_selection _ _ _ hnested, bind_of_ok hb, bind_of_ok hi]

end Statement

/-- Where an element is set, nothing else changes. -/
theorem Store.getElem?_set_element {τ : Store} {a n : Nat} {w : Value}
    (h : (τ.array a)[n]? = some w) (v : Value) (s m : Nat) :
    ((τ.modifyArray a (·.setIfInBounds n v)).array s)[m]? =
      if s = a ∧ m = n then some v else (τ.array s)[m]? := by
  have hn : n < (τ.array a).size := (Array.getElem?_eq_some_iff.1 h).1
  have ha : a < τ.arrays.size := by
    by_contra hge
    rw [Store.array, Array.getD_eq_getD_getElem?, Array.getElem?_eq_none (Nat.not_lt.1 hge)] at hn
    exact Nat.not_lt_zero _ hn
  rw [array_modifyArray]
  by_cases hs : a = s
  · subst hs
    rw [if_pos ⟨rfl, ha⟩, Array.getElem?_setIfInBounds]
    by_cases hm : n = m
    · subst hm
      simp [hn]
    · rw [if_neg hm, if_neg fun h => hm h.2.symm]
  · rw [if_neg fun h => hs h.1, if_neg fun h => hs h.1.symm]

/-- A report that shows tokens is an error, unless the tokens cannot be shown. The store stays as it
is. -/
theorem Eval.raiseAt_cases {α : Type} (e : String → Error) (ts : List Token) (σ : Store) :
    (∃ shown, σ.excerpt ts = .ok shown ∧ (raiseAt e ts : Eval α) σ =
      .error (.failure (.error (e shown))) σ) ∨
    ∃ f, σ.excerpt ts = .error f ∧ (raiseAt e ts : Eval α) σ = .error (.failure (.fault f)) σ := by
  rw [raiseAt, get_bind]
  cases hshown : σ.excerpt ts with
  | ok shown => exact .inl ⟨shown, rfl, rfl⟩
  | error f => exact .inr ⟨f, rfl, rfl⟩

namespace Statement

variable {a n : Nat} {x : Float} {τ : Store}

theorem setElement_of_isPosition (hx : IsPosition x n) {w : Value} (h : (τ.array a)[n]? = some w)
    (v : Value) :
    setElement a x v τ = .ok () (τ.modifyArray a (·.setIfInBounds n v)) := by
  rw [setElement, get_bind, settingPosition_of_isPosition hx,
    if_pos (Array.getElem?_eq_some_iff.1 h).1]
  rfl

theorem assignPart_of_ne_num {i : Value} (hi : ∀ x, i ≠ .num x) (v : Value) (whole : Eval Value)
    (target source : Expr) : assignPart (.arr a) i v whole target source =
      raiseAt .badTarget [.val (.str "assign"), .row target, .row source] := by
  cases i with
  | num x => exact absurd rfl (hi x)
  | _ => rfl

end Statement

/-- **What an assignment to an element comes to**, once its right side has come to a value, and then
the base of its target to an array and the key to any value.

* A key that is no number is an error, and nothing is written.
* With a number **the whole target is evaluated again**. If that fails, so does the assignment, and
  nothing is written; else the element that the number means is set, whatever the second evaluation
  has come to.
* If base and key come to the same array and number again, the element at this position is set and
  all else stays as the evaluations left it. If there is none, the assignment fails as selecting it
  does: with an error past the end, but with a breakdown for a number that is no position. -/
theorem element_assignment_outcome {ctx : Context} {fuel scope : Nat}
    {base key source base' key' : Expr} {v i : Value} {a : Nat} {σ ρ : Store}
    (h : locate ctx (fuel + 1) scope base key source σ = .ok (v, (base', .arr a), key', i) ρ)
    (hlegible : Legible scope ρ base' key') : ((∀ x, i ≠ .num x) → ∃ ts,
      (∃ shown, ρ.excerpt ts = .ok shown ∧
        exec ctx (fuel + 2) scope (.assign (selection base key) source) σ =
        .error (.failure (.error (.badTarget shown))) ρ) ∨
      ∃ f, ρ.excerpt ts = .error f ∧
      exec ctx (fuel + 2) scope (.assign (selection base key) source) σ =
        .error (.failure (.fault f)) ρ) ∧ ∀ x, i = .num x →
      exec ctx (fuel + 2) scope (.assign (selection base key) source) σ =
        (evaluate ctx (fuel + 1) scope (selection base' key') >>= fun _ => setElement a x v) ρ ∧
      ∀ key'' ρ' τ, prepared ctx fuel scope base' key' ρ = .ok ([.val (.arr a)], key'') ρ' →
        evaluate ctx fuel scope key'' ρ' = .ok (.num x) τ →
        (∀ n w, IsPosition x n → (τ.array a)[n]? = some w → w.isProper = true →
          ∃ τ', exec ctx (fuel + 2) scope (.assign (selection base key) source) σ = .ok () τ' ∧
            τ' = { τ with arrays := τ'.arrays } ∧
            ∀ s m, (τ'.array s)[m]? = if s = a ∧ m = n then some v else (τ.array s)[m]?) ∧
        ∀ f, τ.Selects (.arr a) (.num x) (.error f) →
          exec ctx (fuel + 2) scope (.assign (selection base key) source) σ =
            .error (.failure f) τ := by
  obtain ⟨shown, hexec⟩ := exec_of_locate h hlegible.nested.nested
  constructor
  · intro hi
    rw [hexec, assignPart_of_ne_num hi]
    exact ⟨_, raiseAt_cases _ _ ρ⟩
  rintro x rfl
  have hset : exec ctx (fuel + 2) scope (.assign (selection base key) source) σ =
      (evaluate ctx (fuel + 1) scope (selection base' key') >>= fun _ => setElement a x v) ρ :=
      hexec
  refine ⟨hset, fun key'' ρ' τ hprep hkey => ⟨fun n w hx hw hproper => ?_, fun f hf => ?_⟩⟩
  · have hselects : τ.Selects (.arr a) (.num x) (.ok w) :=
      .part (.item rfl hx (by simpa using hw)) hproper
    refine ⟨τ.modifyArray a (·.setIfInBounds n v), ?_, rfl, Store.getElem?_set_element hw v⟩
    rw [hset, bind_of_ok (evaluate_part hlegible hprep rfl hkey hselects),
      setElement_of_isPosition hx hw]
  · rw [hset, bind_of_error (evaluate_part hlegible hprep rfl hkey hf)]

/-- `a[k] = 5` sets the second element. -/
theorem element_assignment_second :
    locate ⟨none, false, 0⟩ 4 0 [.name "a"] [.name "k"] [.val (.num 5)] pairStore =
      .ok (.num 5, ([.name "a"], .arr 0), [.name "k"], .num 1) pairStore ∧
    Legible 0 pairStore [.name "a"] [.name "k"] ∧
    ∃ τ, exec ⟨none, false, 0⟩ 5 0 (.assign (selection [.name "a"] [.name "k"]) [.val (.num 5)])
    pairStore = .ok () τ ∧
      τ = { pairStore with arrays := τ.arrays } ∧
      ∀ s m, (τ.array s)[m]? = if s = 0 ∧
      m = 1 then some (.num 5) else (pairStore.array s)[m]? := by
  have hlocate : locate ⟨none, false, 0⟩ 4 0 [.name "a"] [.name "k"] [.val (.num 5)] pairStore =
      .ok (.num 5, ([.name "a"], .arr 0), [.name "k"], .num 1) pairStore := by
    have hv : evaluate ⟨none, false, 0⟩ 5 0 [.val (.num 5)] pairStore = .ok (.num 5) pairStore :=
      evaluate_scalar _ _ _ (.num 5) _
    have hb : evaluate ⟨none, false, 0⟩ 4 0 [.name "a"] pairStore = .ok (.arr 0) pairStore :=
      evaluate_name rfl rfl (by decide +kernel)
    have hi : evaluate ⟨none, false, 0⟩ 4 0 [.name "k"] pairStore = .ok (.num 1) pairStore :=
      evaluate_name rfl rfl (by decide +kernel)
    have hsource : load [.val (.num 5)] pairStore = .ok [.val (.num 5)] pairStore := rfl
    have hbase : load [.name "a"] pairStore = .ok [.name "a"] pairStore := rfl
    have hkey : load [.name "k"] pairStore = .ok [.name "k"] pairStore := rfl
    rw [locate, bind_of_ok hsource, bind_of_ok hv, bind_of_ok hbase, bind_of_ok hkey, bind_of_ok hb,
      bind_of_ok hi]
    rfl
  refine ⟨hlocate, legible_pair, ?_⟩
  have hkey : evaluate ⟨none, false, 0⟩ 3 0 [.val (.num 1)] pairStore = .ok (.num 1) pairStore :=
    evaluate_scalar _ _ _ (.num 1) _
  exact (((element_assignment_outcome hlocate legible_pair).2 _ rfl).2 _ _ _ prepared_pair hkey).1 1
    (.str "x")
    isPosition_one rfl rfl

/-- A program that sets an element at a position that a function counts up, and writes how far it
has counted. -/
def countingText : String :=
  "var n = 0, a = [1, 2, 3], f = function () \x7b n += 1; return n - 1; \x7d; a[f()] = 9; print(n);"

/-- The function is called twice. -/
theorem position_evaluated_twice : outputOf ⟨20, 5⟩ countingText = "2\n" := by
  decide +kernel

end LittleJ
