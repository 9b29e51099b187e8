import LittleJ.Proofs.Beginnings
import LittleJ.Proofs.IndexNumber

/-!
# Selecting a part of a value

A selection is a base with a key in square brackets behind it. `Store.Selects` says what it should
come to for a value of the base and a value of the key; `Expression.refine_selects` says that
selecting does this.

Base and key are expressions, though, and how they are evaluated is less simple. Their names are
read together, then the literals of both are made, then the base is refined, called and grouped, and
only then is the key evaluated. `prepared` is all of this but the last step, and
`evaluate_selection` carries a selection through the passes up to there, as long as it is `Legible`:
the brackets that close it are its own.

**There are no errors for what is no position.** An array or a string selected with a string, a
fraction or a negative number breaks down, and so does a base without parts that is more than one
token.
-/

namespace LittleJ

open LittleJ.Bracket LittleJ.Number List Eval Operator Expression

/-! ## Parts of values -/

namespace Store

/-- The elements of an array or the characters of a string, with the word for it in reports. -/
def items? (σ : Store) : Value → Option (String × List Value)
  | .arr r => some ("array", (σ.array r).toList)
  | .str s => some ("string", s.toList.map fun c => .str (String.singleton c))
  | _ => none

/-- A value is the part of another one that a key selects: the element or character at a position,
or the member with a name. -/
inductive Part (σ : Store) : Value → Value → Value → Prop where
  | item {b v : Value} {what : String} {items : List Value} {x : Float} {n : Nat} :
      σ.items? b = some (what, items) → IsPosition x n → items[n]? = some v → Part σ b (.num x) v
  | member {r : Nat} {k : String} {v : Value} :
      (σ.object r).get? k = some v → Part σ (.obj r) (.str k) v

/-- What selecting comes to. There is no error for a key that is no position: an array or string
selected with anything but a number, or with a number that is negative or not whole, breaks down. -/
inductive Selects (σ : Store) : Value → Value → Except Failure Value → Prop where
  | part {b i v : Value} : σ.Part b i v → v.isProper = true → Selects σ b i (.ok v)
  | improper {b i v : Value} : σ.Part b i v → v.isProper = false →
      Selects σ b i (.error (.error .noValue))
  | keyNotString {r : Nat} {i : Value} :
      (∀ k, i ≠ .str k) → Selects σ (.obj r) i (.error (.error .keyNotString))
  | missingKey {r : Nat} {k : String} :
      (σ.object r).get? k = none → Selects σ (.obj r) (.str k) (.error (.error (.missingKey k)))
  | outOfRange {b : Value} {what : String} {items : List Value} {x : Float} {n : Nat} :
      σ.items? b = some (what, items) → IsPosition x n → items.length ≤ n →
        Selects σ b (.num x) (.error (.error (.outOfRange what (integerText n))))
  | infinite {b : Value} {what : String} {items : List Value} {x : Float} :
      σ.items? b = some (what, items) → IsInfinity x →
      Selects σ b (.num x) (.error (.fault .overflow))
  | noPosition {b i : Value} {what : String} {items : List Value} :
      σ.items? b = some (what, items) → (∀ x, i = .num x → (∀ n, ¬IsPosition x n) ∧ ¬IsInfinity x) →
      Selects σ b i (.error (.fault .unnamed))

/-- Everything that square brackets may stand behind is selected from, with any key. -/
theorem exists_selects (σ : Store) {b : Value} (hb : b.isIndexable = true) (i : Value) :
    ∃ outcome, σ.Selects b i outcome := by
  have hpart {v : Value} (h : σ.Part b i v) : ∃ outcome, σ.Selects b i outcome := by
    cases hv : v.isProper with
    | true => exact ⟨_, .part h hv⟩
    | false => exact ⟨_, .improper h hv⟩
  have hitems {what : String} {items : List Value} (h : σ.items? b = some (what, items)) :
      ∃ outcome, σ.Selects b i outcome := by
    by_cases hposition : ∃ x n, i = .num x ∧ IsPosition x n
    · obtain ⟨x, n, rfl, hx⟩ := hposition
      cases hn : items[n]? with
      | some v => exact hpart (.item h hx hn)
      | none => exact ⟨_, .outOfRange h hx (List.getElem?_eq_none_iff.1 hn)⟩
    by_cases hinfinity : ∃ x, i = .num x ∧ IsInfinity x
    · obtain ⟨x, rfl, hx⟩ := hinfinity
      exact ⟨_, .infinite h hx⟩
    · refine ⟨_, .noPosition h fun x hx => ⟨fun n hn => hposition ⟨x, n, hx, hn⟩, fun hinf => ?_⟩⟩
      exact hinfinity ⟨x, hx, hinf⟩
  cases b with
  | arr r => exact hitems rfl
  | str s => exact hitems rfl
  | obj r =>
    by_cases hkey : ∃ k, i = .str k
    · obtain ⟨k, rfl⟩ := hkey
      cases hk : (σ.object r).get? k with
      | some v => exact hpart (.member hk)
      | none => exact ⟨_, .missingKey hk⟩
    · exact ⟨_, .keyNotString fun k hk => hkey ⟨k, hk⟩⟩
  | _ => cases hb

end Store

namespace Expression

/-- A result that belongs to the language. -/
def checked (v : Value) : Eval Value :=
  if v.isProper then pure v else raise .noValue

variable {σ : Store} {b i : Value}

theorem refine_items {what : String} {items : List Value} (h : σ.items? b = some (what, items))
    (key : Value) :
    ∃ d, refine b key σ = (position what items.length key >>= fun n => pure (items.getD n d))
    σ := by
  cases b with
  | arr r =>
    cases h
    refine ⟨.null, ?_⟩
    rw [refine, get_bind, Array.length_toList]
    simp only [Array.getD_eq_getD_getElem?, getD_eq_getElem?_getD, Array.getElem?_toList]
  | str s =>
    cases h
    refine ⟨.str (String.singleton ' '), ?_⟩
    rw [refine, get_bind, length_map, String.length_toList]
    simp only [getD_map]
  | _ => cases h

/-- Selecting comes to what it should, or fails in the way it should. -/
theorem refine_selects {outcome : Except Failure Value} (h : σ.Selects b i outcome) :
    (refine b i >>= checked) σ = ofFailure outcome σ := by
  have hpart {v : Value} (h : σ.Part b i v) : refine b i σ = .ok v σ := by
    cases h with
    | item hitems hx hn =>
      obtain ⟨d, href⟩ := refine_items hitems (.num _)
      obtain ⟨hlt, hget⟩ := List.getElem?_eq_some_iff.1 hn
      rw [href, position_of_isPosition hx, if_pos hlt, pure_bind, getD_eq_getElem?_getD, hn]
      rfl
    | member hk =>
      rw [refine, get_bind]
      simp only [hk]
      rfl
  cases h with
  | part h hproper =>
    rw [bind_of_ok (hpart h), checked, if_pos hproper]
    rfl
  | improper h hproper =>
    rw [bind_of_ok (hpart h), checked, if_neg (by simp [hproper])]
    rfl
  | keyNotString h =>
    cases i with
    | str k => exact absurd rfl (h k)
    | _ => rfl
  | missingKey hk =>
    refine bind_of_error ?_ _
    rw [refine, get_bind]
    simp only [hk]
    rfl
  | outOfRange hitems hx hn =>
    obtain ⟨d, href⟩ := refine_items hitems (.num _)
    refine bind_of_error ?_ _
    rw [href, position_of_isPosition hx, if_neg (Nat.not_lt.2 hn)]
    rfl
  | infinite hitems hx =>
    obtain ⟨d, href⟩ := refine_items hitems (.num _)
    refine bind_of_error ?_ _
    rw [href, position_of_isInfinity hx]
    rfl
  | noPosition hitems hi =>
    obtain ⟨d, href⟩ := refine_items hitems i
    refine bind_of_error ?_ _
    rw [href, position_of_not hi]
    rfl

/-! ## Base and key -/

/-- The brackets of a selection are the ones that are seen: braces in the base are balanced, the key
is there, has its own brackets nested and no comma outside them, and no name in it stands for a
bracket. -/
structure Legible (scope : Nat) (σ : Store) (base key : Expr) : Prop where
  braces : braceDepth base = 0
  nested : Clear (·.is .comma) key
  nonempty : key ≠ []
  names : ∀ s v, .name s ∈ key → σ.lookup scope s = .ok v → isBracket (.val v) = false

/-- What the base of a selection comes to, and the tokens of the key as they are then. The names of
both are read first, then the literals of both are made, and then the base is refined, called and
grouped. -/
def prepared (ctx : Context) (fuel scope : Nat) (base key : Expr) : Eval (List Token × Expr) := do
  let base ← resolve scope base
  let key ← resolve scope key
  let base ← literals (evaluate ctx fuel scope) base
  let key ← literals (evaluate ctx fuel scope) key
  if (← get).anyEndless (base ++ key) then breakdown .endless
  return (← applyFrom (evaluate ctx fuel scope) (call ctx fuel scope) [] 0 base, key)

variable {ctx : Context} {fuel scope : Nat} {base key : Expr} {ρ τ : Store}

theorem length_of_resolve {ts us : List Token} (h : resolve scope ts σ = .ok us τ) :
    us.length = ts.length :=
  (read_of_substitute (resolve_eq_ok_iff.1 h).1).length_eq.symm

theorem Legible.clear_key (h : Legible scope σ base key) {base' key' : Expr}
    (hbase : resolve scope base σ = .ok base' ρ) (hkey : resolve scope key ρ = .ok key' τ) :
    Clear (·.is .comma) key' ∧ key' ≠ [] := by
  obtain ⟨-, rfl⟩ := resolve_eq_ok_iff.1 hbase
  have hread := read_of_substitute (resolve_eq_ok_iff.1 hkey).1
  rw [Store.lookup_of_scopes (scopes_adoptAll scope base σ) scope] at hread
  refine ⟨clear_of_read (fun _ => rfl) h.nested hread h.names, ?_⟩
  rintro rfl
  exact h.nonempty (eq_nil_of_length_eq_zero (length_of_resolve hkey).symm)

/-- The literals of a selection are those of its base and those of its key, if brackets behind the
base select. -/
theorem literals_selection {eval : Expr → Eval Value} {base' key' : Expr} {σ ρ τ : Store}
    (hbase : literals eval base σ = .ok base' ρ) (hkey : literals eval key ρ = .ok key' τ)
    (hselects : selects base'.getLast? = true) :
    literals eval (selection base key) σ = .ok (selection base' key') τ := by
  have hbehind : literalsFrom eval ([] ++ .sym .lbracket :: base'.reverse) 0 key ρ =
      .ok ((Token.sym .lbracket :: base'.reverse).reverse ++ key') τ := literalsFrom_behind rfl hkey
  rw [literals, selection, literalsFrom_before (Nat.zero_le _) hbase, literalsFrom_push rfl
    (by simp [hselects]), ← nil_append (Token.sym .lbracket :: base'.reverse), literalsFrom_before
    (Nat.zero_le _) hbehind, literalsFrom_push rfl rfl]
  simp [literalsFrom, selection, pure, EStateM.pure]

theorem anyEndless_selection (σ : Store) (base key : Expr) :
    σ.anyEndless (selection base key) = σ.anyEndless (base ++ key) := by
  simp [Store.anyEndless, selection, any_append]

theorem prepared_eq_ok_iff {out : List Token} {key' : Expr} :
    prepared ctx fuel scope base key σ = .ok (out, key') τ ↔
    ∃ base₁ base₂ key₁ ρ₁ ρ₂ ρ₃ ρ₄, resolve scope base σ = .ok base₁ ρ₁ ∧
    resolve scope key ρ₁ = .ok key₁ ρ₂ ∧
      literals (evaluate ctx fuel scope) base₁ ρ₂ = .ok base₂ ρ₃ ∧
      literals (evaluate ctx fuel scope) key₁ ρ₃ = .ok key' ρ₄ ∧
      ρ₄.anyEndless (base₂ ++ key') = false ∧
      applyFrom (evaluate ctx fuel scope) (call ctx fuel scope) [] 0 base₂ ρ₄ = .ok out τ := by
  constructor
  · intro h
    obtain ⟨base₁, ρ₁, hbase₁, h⟩ := Eval.bind_eq_ok.1 h
    obtain ⟨key₁, ρ₂, hkey₁, h⟩ := Eval.bind_eq_ok.1 h
    obtain ⟨base₂, ρ₃, hbase₂, h⟩ := Eval.bind_eq_ok.1 h
    obtain ⟨key₂, ρ₄, hkey₂, h⟩ := Eval.bind_eq_ok.1 h
    rw [get_bind] at h
    cases hendless : ρ₄.anyEndless (base₂ ++ key₂) with
    | true =>
      rw [hendless] at h
      cases h
    | false =>
      rw [hendless] at h
      obtain ⟨out', ρ₅, hbase, h⟩ := Eval.bind_eq_ok.1 h
      cases h
      exact ⟨base₁, base₂, key₁, ρ₁, ρ₂, ρ₃, ρ₄, hbase₁, hkey₁, hbase₂, hkey₂, hendless, hbase⟩
  · rintro ⟨base₁, base₂, key₁, ρ₁, ρ₂, ρ₃, ρ₄, hbase₁, hkey₁, hbase₂, hkey₂, hendless, hbase⟩
    rw [prepared, bind_of_ok hbase₁, bind_of_ok hkey₁, bind_of_ok hbase₂, bind_of_ok hkey₂,
      get_bind, hendless]
    exact bind_of_ok hbase _

theorem reduce_eq (eval : Expr → Eval Value) (call : Nat → List Value → Eval Value) (ts : Expr) :
    reduce eval call ts = literals eval ts >>= fun ts => applications eval call ts >>=
      Operator.valueOf eval := rfl

theorem applications_of_not_endless {eval : Expr → Eval Value}
    {call : Nat → List Value → Eval Value} {ts : List Token} (h : σ.anyEndless ts = false) :
    applications eval call ts σ = applyFrom eval call [] 0 ts σ := by
  rw [applications, get_bind, h]
  rfl

/-- **The passes over a selection** leave the value of its base, and the key in brackets behind it.
-/
theorem evaluate_selection (h : Legible scope σ base key) {b : Value} {key' : Expr}
    (hprep : prepared ctx fuel scope base key σ = .ok ([.val b], key') ρ)
    (hb : b.isIndexable = true ∨ base.length ≠ 1) :
    Nested key' ∧ key' ≠ [] ∧ evaluate ctx (fuel + 1) scope (selection base key) σ =
      (applyFrom (evaluate ctx fuel scope) (call ctx fuel scope) [.val b] 0
        (.sym .lbracket :: (key' ++ [.sym .rbracket])) >>=
          Operator.valueOf (evaluate ctx fuel scope)) ρ := by
  obtain ⟨base₁, base₂, key₁, ρ₁, ρ₂, ρ₃, ρ₄, hbase₁, hkey₁, hbase₂, hkey₂, hendless, hbase⟩ :=
    prepared_eq_ok_iff.1 hprep
  obtain ⟨hclear, hne⟩ := h.clear_key hbase₁ hkey₁
  obtain ⟨hclear', hne'⟩ := clear_of_literals hclear (fun _ => rfl) hkey₂
  have hpos : 0 < base₂.length := by
    cases base₂ with
    | nil => cases hbase
    | cons t ts => exact Nat.succ_pos _
  have hselects : selects base₂.getLast? = true := by
    rcases selects_getLast_of_applyFrom hpos hbase rfl with hselects | ⟨-, hone⟩
    · exact hselects
    · rw [drop_zero] at hone
      subst hone
      rcases hb with hb | hb
      · exact hb
      · -- a value that no literal makes was the whole base
        cases hindex : b.isIndexable with
        | true => exact hindex
        | false =>
          have hbase₁' : base₁ = [.val b] := by simpa using eq_of_literalsFrom hindex hbase₂
          rw [← length_of_resolve hbase₁, hbase₁'] at hb
          exact absurd rfl hb
  refine ⟨hclear'.nested, hne' hne, ?_⟩
  have happly :
      applyFrom (evaluate ctx fuel scope) (call ctx fuel scope) [] 0 (selection base₂ key') ρ₄ =
      applyFrom (evaluate ctx fuel scope) (call ctx fuel scope) [.val b] 0
        (.sym .lbracket :: (key' ++ [.sym .rbracket])) ρ :=
    applyFrom_before (Nat.zero_le _) hbase _
  rw [evaluate, bind_of_ok (resolve_selection h.braces hbase₁ hkey₁), reduce_eq,
    bind_of_ok (literals_selection hbase₂ hkey₂ hselects)]
  refine bind_congr_of_eq ?_ _
  rw [applications_of_not_endless (by rw [anyEndless_selection, hendless]), happly]

section

variable {eval : Expr → Eval Value} {call : Nat → List Value → Eval Value} {b : Value}

theorem valueOf_val (v : Value) : Operator.valueOf eval [.val v] = checked v := by
  rw [Operator.valueOf, settle_val, pure_bind]
  rfl

/-- Brackets behind a value that has parts: the key is evaluated, and the part selected. -/
theorem applyFrom_key (hb : b.isIndexable = true) (hkey : Nested key) (hne : key ≠ [])
    (before rest : List Token) :
    applyFrom eval call (.val b :: before) 0 (.sym .lbracket :: (key ++ .sym .rbracket :: rest)) =
      eval key >>= fun i => refine b i >>= fun v =>
      applyFrom eval call (.val v :: before) 0 rest := by
  have hlength : (key.length + 1 == 1) = false := by
    have := List.length_pos_iff.2 hne
    rw [beq_eq_false_iff_ne]
    omega
  have hselected : selected eval b (.sym .lbracket :: (key ++ .sym .rbracket :: rest)) =
      eval key >>= fun i => refine b i >>= fun v => pure (v, key.length + 1) := by
    rw [selected, hb, partner_pair .square hkey]
    simp only [Bool.not_true, Bool.false_eq_true, if_false, pure_bind, hlength, inside_pair]
  have hskip (v : Value) :
      applyFrom eval call (.val v :: before) (key.length + 1) (key ++ .sym .rbracket :: rest) =
      applyFrom eval call (.val v :: before) 0 rest := by
    have hall := @applyFrom_skip eval call (key ++ [.sym .rbracket]) (.val v :: before) rest
    rw [append_assoc, length_append] at hall
    exact hall
  rw [applyFrom_selected, hselected]
  simp only [bind_assoc, pure_bind, hskip]

theorem applyFrom_partless (hb : b.isIndexable = false) (ts : List Token) :
    applyFrom eval call [.val b] 0 (.sym .lbracket :: ts) = breakdown .broken := by
  rw [applyFrom_selected, selected, hb]
  rfl

end

/-- A base that has parts: the key is evaluated last, and selects. -/
theorem evaluate_part (h : Legible scope σ base key) {b i : Value} {key' : Expr}
    (hprep : prepared ctx fuel scope base key σ = .ok ([.val b], key') ρ)
    (hb : b.isIndexable = true) (hkey : evaluate ctx fuel scope key' ρ = .ok i τ)
    {outcome : Except Failure Value} (houtcome : τ.Selects b i outcome) :
    evaluate ctx (fuel + 1) scope (selection base key) σ = ofFailure outcome τ := by
  obtain ⟨hnested, hne, heval⟩ := evaluate_selection h hprep (.inl hb)
  have hend (v : Value) : applyFrom (evaluate ctx fuel scope) (call ctx fuel scope) [.val v] 0 [] =
      pure [.val v] := rfl
  rw [heval, applyFrom_key hb hnested hne, bind_assoc, bind_of_ok hkey, ← refine_selects houtcome,
    bind_assoc]
  simp only [hend, pure_bind, valueOf_val]

/-- A base that has no parts and is not one token: the selection breaks down before the key is
evaluated. -/
theorem evaluate_partless (h : Legible scope σ base key) {b : Value} {key' : Expr}
    (hprep : prepared ctx fuel scope base key σ = .ok ([.val b], key') ρ)
    (hb : b.isIndexable = false) (hlength : base.length ≠ 1) :
    evaluate ctx (fuel + 1) scope (selection base key) σ =
      .error (.failure (.fault .broken)) ρ := by
  obtain ⟨-, -, heval⟩ := evaluate_selection h hprep (.inr hlength)
  rw [heval, applyFrom_partless hb]
  rfl

/-- Square brackets behind a value without parts are an array literal. Two values side by side are
no expression. -/
def aside (b i : Value) : Eval Value := do
  let r ← make (·.newArray #[i])
  if (← get).anyEndless [.val b, .val (.arr r)] then breakdown .endless
  raiseAt .noExpression [.val b, .val (.arr r)]

theorem settle_two (eval : Expr → Eval Value) (v w : Value) :
    settle eval [.val v, .val w] = raiseAt .noExpression [.val v, .val w] := by
  have hpass : pass eval [.val v, .val w] = pure [.val v, .val w] :=
    pass_idle fun t ht y _ hy => by
      subst hy
      simp at ht
  rw [settle, hpass, pure_bind, settleFrom, hpass, pure_bind, if_neg (Nat.lt_irrefl _)]
  intro t ht
  cases ht

/-- A base of one token that has no parts. -/
theorem evaluate_aside {t : Token} (h : Legible scope σ [t] key) {b i : Value}
    {key' : Expr} {ρ' : Store} (hbase : resolve scope [t] σ = .ok [.val b] ρ)
    (hkey : resolve scope key ρ = .ok key' ρ') (hb : b.isIndexable = false)
    (hi : evaluate ctx fuel scope key' ρ' = .ok i τ) :
    evaluate ctx (fuel + 1) scope (selection [t] key) σ = aside b i τ := by
  obtain ⟨hclear, hne⟩ := h.clear_key hbase hkey
  have hparts : commaParts key' = pure [key'] := by
    have hjoined := @commaParts_joined [key'] (by simpa using ⟨hclear, hne⟩)
    rwa [show Parser.joined [key'] = key' by simp [Parser.joined]] at hjoined
  have hliterals : literals (evaluate ctx fuel scope) (selection [.val b] key') ρ' =
      (make (·.newArray #[i]) >>= fun r => pure [.val b, .val (.arr r)]) τ := by
    have hselects : selects (head? [Token.val b]) = false := hb
    rw [literals, selection, singleton_append, literalsFrom_push rfl rfl,
      literalsFrom_array hclear.nested hselects, hparts, pure_bind,
      bind_of_ok (elements_single hne hi)]
    rfl
  have happly (r : Nat) :
      applyFrom (evaluate ctx fuel scope) (call ctx fuel scope) [] 0 [.val b, .val (.arr r)] =
      pure [.val b, .val (.arr r)] := by
    rw [applyFrom_val, applyFrom_val]
    rfl
  rw [evaluate, bind_of_ok (resolve_selection h.braces hbase hkey), reduce_eq,
    bind_congr_of_eq hliterals, bind_assoc, aside]
  refine congrFun (bind_congr fun r => ?_) τ
  rw [pure_bind]
  simp only [applications, bind_assoc]
  refine bind_congr fun ρ => ?_
  split
  · rfl
  · rw [happly, pure_bind, Operator.valueOf, settle_two, raiseAt_bind]

end Expression

theorem Eval.ofFailure_injective {α : Type} {x y : Except Failure α} {σ : Store}
    (h : ofFailure x σ = ofFailure y σ) : x = y := by
  cases x <;> cases y <;> cases h <;> rfl

/-- **What a selection comes to.** The base and the key are given by expressions.

If the base comes to an array, a string or an object, and then the key to any value, the selection
comes to the element, the character or the member. There is an error for an object with a key that
is no string or that it has not, and for a position past the end; but **anything that is no
position, or is infinite, breaks an array or a string down**.

If the base comes to anything else, the selection breaks down before the key is evaluated, unless
the base is a single token: then two values stand side by side. -/
theorem selection_outcome {scope : Nat} {σ : Store} {base key : Expr} (h : Legible scope σ base key)
    (ctx : Context) (fuel : Nat) :
    (∀ b i key' ρ τ, prepared ctx fuel scope base key σ = .ok ([.val b], key') ρ →
      b.isIndexable = true →
      evaluate ctx fuel scope key' ρ = .ok i τ →
      (∃ outcome, τ.Selects b i outcome) ∧ ∀ outcome, τ.Selects b i outcome ↔
        evaluate ctx (fuel + 1) scope (selection base key) σ = ofFailure outcome τ) ∧
    (∀ b key' ρ, prepared ctx fuel scope base key σ = .ok ([.val b], key') ρ →
      b.isIndexable = false →
      base.length ≠ 1 → evaluate ctx (fuel + 1) scope (selection base key) σ =
        .error (.failure (.fault .broken)) ρ) ∧
    (∀ t b i key' ρ ρ' τ, base = [t] → resolve scope [t] σ = .ok [.val b] ρ →
      b.isIndexable = false →
      resolve scope key ρ = .ok key' ρ' → evaluate ctx fuel scope key' ρ' = .ok i τ →
      evaluate ctx (fuel + 1) scope (selection base key) σ = aside b i τ) := by
  refine ⟨fun b i key' ρ τ hprep hb hkey => ?_, fun b key' ρ hprep hb hlength => ?_, ?_⟩
  · obtain ⟨outcome, houtcome⟩ := τ.exists_selects hb i
    have heval := evaluate_part h hprep hb hkey houtcome
    refine ⟨⟨outcome, houtcome⟩, fun other => ⟨evaluate_part h hprep hb hkey, fun hother => ?_⟩⟩
    rw [ofFailure_injective (hother.symm.trans heval)]
    exact houtcome
  · exact evaluate_partless h hprep hb hlength
  · rintro t b i key' ρ ρ' τ rfl hbase hb hkey hi
    exact evaluate_aside h hbase hkey hb hi

/-- An array as `a` and the number one as `k`. -/
def pairStore : Store :=
  { Store.empty with
    arrays := #[#[.null, .str "x"]]
    scopes := #[⟨[("a", .arr 0), ("k", .num 1)], none, 0, none⟩] }

theorem legible_pair : Legible 0 pairStore [.name "a"] [.name "k"] where
  braces := rfl
  nested := .cons rfl rfl .nil
  nonempty := cons_ne_nil _ _
  names := by
    intro s v hs hv
    obtain rfl : s = "k" := by simpa using hs
    cases hv
    rfl

theorem prepared_pair : prepared ⟨none, false, 0⟩ 3 0 [.name "a"] [.name "k"] pairStore =
    .ok ([.val (.arr 0)], [.val (.num 1)]) pairStore := by
  have hendless : pairStore.anyEndless [.val (.arr 0), .val (.num 1)] = false := by decide +kernel
  exact Expression.prepared_eq_ok_iff.2 ⟨_, _, _, _, _, _, _, rfl, rfl, rfl, rfl, hendless, rfl⟩

theorem isPosition_one : IsPosition 1 1 :=
  ⟨by decide +kernel, by decide +kernel⟩

/-- `a[k]` is the second element. -/
theorem selection_outcome_second :
    Legible 0 pairStore [.name "a"] [.name "k"] ∧
    prepared ⟨none, false, 0⟩ 3 0 [.name "a"] [.name "k"] pairStore =
      .ok ([.val (.arr 0)], [.val (.num 1)]) pairStore ∧
    evaluate ⟨none, false, 0⟩ 4 0 (selection [.name "a"] [.name "k"]) pairStore =
      .ok (.str "x") pairStore := by
  have hkey : evaluate ⟨none, false, 0⟩ 3 0 [.val (.num 1)] pairStore = .ok (.num 1) pairStore :=
    evaluate_scalar _ _ _ (.num 1) _
  have hpart : pairStore.Selects (.arr 0) (.num 1) (.ok (.str "x")) :=
    .part (.item rfl isPosition_one rfl) rfl
  have hselection := (selection_outcome legible_pair ⟨none, false, 0⟩ 3).1 _ _ _ _ _
      prepared_pair rfl hkey
  exact ⟨legible_pair, prepared_pair, (hselection.2 _).1 hpart⟩

/-- What stops an interpreter of its own that runs a text. Errors are written, and do not stop it.
-/
def stopOf (budget : Budget) (text : String) : Option Stop :=
  match (do (← Interpreter.make none none true).run budget [] (.text text) false : Eval Unit)
    Store.empty with
  | .ok _ _ => none
  | .error stop _ => some stop

/-- A program that selects from an array with a string. -/
def wordPositionText : String :=
  "print([1]['a']);"

/-- It breaks down, without an error of the language. -/
theorem word_position_breaks_down :
    stopOf ⟨10, 5⟩ wordPositionText = some (.failure (.fault .unnamed)) := by
  decide +kernel

end LittleJ
