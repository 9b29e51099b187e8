import LittleJ.Proofs.Moments
import LittleJ.Proofs.ReadBack

/-!
# Operands are evaluated in passes

The operands of an expression are not evaluated one after the other. An expression is reduced in
passes, and each pass goes through all of it from left to right: names are read first, then array
literals are made, then functions are called, and last the operators are applied. So every name has
the value it had before the first call, whichever side of the call it stands on, and what an array
literal calls is called before what stands to the left of it.

A pass treats each operand as if it stood alone, and what it leaves is again a chain of operands.
The result is one equation: evaluating a chain is the passes over its operands, one after the other.
-/

namespace LittleJ

open LittleJ.Bracket LittleJ.Parser List Token Eval Expression

/-! ## Operands -/

/-- An operand of an expression: a name, a call, or an array literal. A name is given by itself, or
by the value that was read for it. -/
inductive Operand (ν : Type)
  | single (x : ν)
  | call (f : ν) (args : List Expr)
  | array (items : List Expr)

/-- An operand whose array literals are made: a value, and the arguments that it is called with if
the operand is a call. -/
structure Operand.Made where
  value : Value
  args : Option (List Expr)

namespace Operand

variable {ν : Type}

/-- The arguments or elements of an operand. -/
def parts : Operand ν → List Expr
  | single _ => []
  | call _ args => args
  | array items => items

/-- The tokens of an operand. -/
def tokens (write : ν → Token) : Operand ν → List Token
  | single x => [write x]
  | call f args => write f :: .sym .lparen :: (joined args ++ [.sym .rparen])
  | array items => .sym .lbracket :: (joined items ++ [.sym .rbracket])

/-- Arguments and elements are there, have their brackets properly nested, and hold no object
literals. -/
def Proper (o : Operand ν) : Prop :=
  ∀ part ∈ o.parts, (Clear (·.is .comma) part ∧ part ≠ []) ∧ ∀ t ∈ part, t.is .lbrace = false ∧
  t.is .rbrace = false

instance (o : Operand ν) : Decidable o.Proper :=
  inferInstanceAs (Decidable (∀ part ∈ o.parts, (Clear (·.is .comma) part ∧ part ≠ []) ∧
    ∀ t ∈ part, t.is .lbrace = false ∧ t.is .rbrace = false))

variable (eval : Expr → Eval Value) (call : Nat → List Value → Eval Value)

/-- The pass that makes array literals. What an array literal calls is called here. The array
literals among the arguments of a call are made, the call itself is not. -/
def made : Operand Value → Eval Made
  | single v => return ⟨v, none⟩
  | .call f args => return ⟨f, some (← args.mapM (literals eval))⟩
  | array items => do
    let vs ← elements eval items
    return ⟨.arr (← make (·.newArray vs.toArray)), none⟩

/-- The tokens of an operand whose literals are made. -/
def Made.tokens (m : Made) : List Token :=
  match m.args with
  | none => [.val m.value]
  | some args => (Operand.call m.value args).tokens .val

/-- The pass that calls functions. -/
def Made.result (m : Made) : Eval Value :=
  match m.args with
  | none => pure m.value
  | some args => do apply call m.value (← elements eval args)

end Operand

namespace Chain

variable {α β : Type}

instance (P : α → Prop) [DecidablePred P] (c : Chain α) : Decidable (c.Forall P) :=
  inferInstanceAs (Decidable (P c.first ∧ ∀ p ∈ c.rest, P p.2))

/-- A pass over the operands of a chain, from left to right. -/
def mapM (f : α → Eval β) (c : Chain α) : Eval (Chain β) := do
  let first ← f c.first
  let rest ← c.rest.mapM fun p => do return (p.1, ← f p.2)
  return ⟨first, rest⟩

/-- The passes over a chain whose names have been read. -/
def inPasses (eval : Expr → Eval Value) (call : Nat → List Value → Eval Value)
    (c : Chain (Operand Value)) :
    Eval Value := do
  let c ← c.mapM (Operand.made eval)
  if (← get).anyEndless (c.spread Operand.Made.tokens) then breakdown .endless
  let c ← c.mapM (Operand.Made.result eval call)
  match ← Operator.settle eval (c.spread fun v => [.val v]) with
  | .val v => if v.isProper then return v else raise .noValue
  | _ => raise .noValue

end Chain

/-! ## Names -/

/-- A token with a name replaced by its value. -/
def Token.named (value : String → Value) : Token → Token
  | .name s => .val (value s)
  | t => t

/-- The variables of a scope are those of the scopes, whatever else changes. -/
theorem Store.lookup_of_scopes {σ τ : Store} (h : τ.scopes = σ.scopes) (r : Nat) :
    τ.lookup r = σ.lookup r := by
  have hscope (q : Nat) : τ.scope q = σ.scope q := by rw [Store.scope, Store.scope, h]
  have howner (name : String) (fuel q : Nat) :
      τ.ownerFrom name fuel q = σ.ownerFrom name fuel q := by
    induction fuel generalizing q with
    | zero => rfl
    | succ fuel ih => simp only [Store.ownerFrom, hscope, ih]
  funext name
  simp only [Store.lookup, Store.owner, howner, hscope]

namespace Expression

theorem scopes_adoptAll (scope : Nat) (ts : List Token) (σ : Store) :
    (adoptAll scope ts σ).scopes = σ.scopes := by
  induction ts generalizing σ with
  | nil => rfl
  | cons t ts ih =>
    refine (ih _).trans ?_
    dsimp only
    split <;> rfl

theorem substitute_symbol {y : Symbol} (hleft : y ≠ .lbrace) (hright : y ≠ .rbrace)
    (lookup : String → Except Error Value) (depth : Int) (ts : List Token) :
    substitute lookup depth (.sym y :: ts) =
      (.sym y :: (substitute lookup depth ts).1, (substitute lookup depth ts).2) := by
  rw [substitute.eq_def]
  dsimp only
  split
  · rename_i h
    exact absurd (sym.inj h) hleft
  · rename_i h
    exact absurd (sym.inj h) hright
  · rename_i h
    cases h
  · rfl

/-- Outside braces every name is replaced. -/
theorem substitute_eq_map {lookup : String → Except Error Value} {value : String → Value}
    {ts : List Token} (hbrace : ∀ t ∈ ts, t.is .lbrace = false ∧ t.is .rbrace = false)
    (hvalue : ∀ s, .name s ∈ ts → lookup s = .ok (value s)) :
    substitute lookup 0 ts = (ts.map (Token.named value), none) := by
  induction ts with
  | nil => rfl
  | cons t ts ih =>
    obtain ⟨ht, hts⟩ := List.forall_mem_cons.1 hbrace
    have hrest := ih hts fun s hs => hvalue s (mem_cons_of_mem _ hs)
    cases t with
    | name s => simp [substitute, hvalue s (by simp), hrest, Token.named]
    | sym y =>
      have hne (z : Symbol) (hz : (Token.sym y).is z = false) : y ≠ z := by simpa [is] using hz
      rw [substitute_symbol (hne _ ht.1) (hne _ ht.2), hrest]
      rfl
    | _ => simp [substitute, hrest, Token.named]

theorem resolve_eq_map {scope : Nat} {σ : Store} {value : String → Value} {ts : List Token}
    (hbrace : ∀ t ∈ ts, t.is .lbrace = false ∧ t.is .rbrace = false)
    (hvalue : ∀ s, .name s ∈ ts → σ.lookup scope s = .ok (value s)) :
    resolve scope ts σ = .ok (ts.map (Token.named value)) (adoptAll scope ts σ) := by
  have hlookup : (adoptAll scope ts σ).lookup scope = σ.lookup scope :=
    Store.lookup_of_scopes (scopes_adoptAll scope ts σ) scope
  rw [resolve, resolveWith, modify_bind, get_bind, hlookup, substitute_eq_map hbrace hvalue]
  rfl

end Expression

/-- Replacing names keeps the brackets of a list, if no name stands for one. -/
theorem Bracket.Clear.named {p : Token → Bool} {ts : List Token} (h : Clear p ts)
    {value : String → Value} (hvalue : ∀ s, .name s ∈ ts → isBracket (.val (value s)) = false)
    (hp : ∀ v, p (.val v) = false) :
    Clear p (ts.map (Token.named value)) := by
  induction h with
  | nil => exact .nil
  | @cons p t ts ht hpt _ ih =>
    have hrest := ih (fun s hs => hvalue s (mem_cons_of_mem _ hs)) hp
    cases t with
    | name s => exact .cons (hvalue s (by simp)) (hp _) hrest
    | _ => exact .cons ht hpt hrest
  | @pair p left right inner ts hpair _ _ ihinner ih =>
    rw [map_cons, map_append, map_cons]
    exact .pair hpair (ihinner (fun s hs => hvalue s (by simp [hs])) fun _ => rfl)
      (ih (fun s hs => hvalue s (by simp [hs])) hp)

/-! ## Passes over nested lists -/

theorem Bracket.is_of_not_bracket {t : Token} (ht : isBracket t = false) {y : Symbol}
    (hy : isBracket (.sym y) = true) : t.is y = false := by
  cases t with
  | sym z =>
    rw [is, beq_eq_false_iff_ne]
    rintro rfl
    rw [hy] at ht
    cases ht
  | _ => rfl

namespace Expression

variable {eval : Expr → Eval Value} {call : Nat → List Value → Eval Value}

theorem partner_pair {left right : Symbol} (hpair : Pair left right) {inner : List Token}
    (h : Nested inner) (rest : List Token) :
    Eval.partner (.sym left :: (inner ++ .sym right :: rest)) = pure (inner.length + 1) := by
  rw [Eval.partner, partner?_of_pair hpair h]

theorem inside_pair (left right : Token) (inner rest : List Token) :
    Eval.inside (inner.length + 1) (left :: (inner ++ right :: rest)) = inner := by
  simp [Eval.inside]

/-- The values of an array literal are those of its parts, whatever stands behind it. -/
theorem arrayValues_pair {inner : List Token} (h : Nested inner) (rest : List Token) :
    arrayValues eval (.sym .lbracket :: (inner ++ .sym .rbracket :: rest)) = (do
      let parts ← commaParts inner
      return (← elements eval parts, inner.length + 1)) := by
  rw [arrayValues, partner_pair .square h, pure_bind, inside_pair]

theorem commaParts_joined {parts : List Expr}
    (h : ∀ part ∈ parts, Clear (·.is .comma) part ∧ part ≠ []) :
    commaParts (joined parts) = pure parts := by
  rw [commaParts, split_joined h]

theorem literalsFrom_push {t : Token} (hbrace : t.is .lbrace = false) {done : List Token}
    (hbracket : (t.is .lbracket && !selects done.head?) = false) (ts : List Token) :
    literalsFrom eval done 0 (t :: ts) = literalsFrom eval (t :: done) 0 ts := by
  rw [literalsFrom, hbrace, hbracket]
  rfl

theorem literalsFrom_pass (front done rest : List Token) :
    literalsFrom eval done front.length (front ++ rest) = literalsFrom eval done 0 rest := by
  induction front with
  | nil => rfl
  | cons t front ih => rw [length_cons, cons_append, literalsFrom, ih]

/-- Brackets that select nothing are an array literal. -/
theorem literalsFrom_array {inner : List Token} (h : Nested inner) {done : List Token}
    (hdone : selects done.head? = false) (rest : List Token) :
    literalsFrom eval done 0 (.sym .lbracket :: (inner ++ Token.sym .rbracket :: rest)) = (do
      let parts ← commaParts inner
      let vs ← elements eval parts
      let r ← make (·.newArray vs.toArray)
      literalsFrom eval (.val (.arr r) :: done) 0 rest) := by
  have hpass (done : List Token) :
      literalsFrom eval done (inner.length + 1) (inner ++ Token.sym .rbracket :: rest) =
      literalsFrom eval done 0 rest := by
    have hfront := @literalsFrom_pass eval (inner ++ [Token.sym .rbracket]) done rest
    simpa using hfront
  rw [literalsFrom, hdone, if_neg (by decide), if_pos (by decide), arrayValues_pair h]
  simp only [bind_assoc, pure_bind, hpass]

/-- Brackets that are left as they are: what stands between them is gone through, and then the rest.
-/
theorem literalsFrom_through {left right : Symbol} {inner done : List Token}
    (hleft : ∀ us, literalsFrom eval done 0 (.sym left :: us) =
      literalsFrom eval (.sym left :: done) 0 us)
    (hright : right ≠ .lbrace ∧ right ≠ .lbracket)
    (hinner : ∀ us, literalsFrom eval (.sym left :: done) 0 (inner ++ us) =
      literalsFrom eval [.sym left] 0 inner >>= fun out =>
      literalsFrom eval (out.reverse ++ done) 0 us)
    (ts : List Token) : literalsFrom eval done 0 (.sym left :: (inner ++ .sym right :: ts)) =
      literalsFrom eval [.sym left] 0 inner >>= fun out =>
        literalsFrom eval (.sym right :: (out.reverse ++ done)) 0 ts := by
  have hclose (done us : List Token) :
      literalsFrom eval done 0 (.sym right :: us) = literalsFrom eval (.sym right :: done) 0 us :=
    literalsFrom_push (by simpa [is] using hright.1) (by simp [is, hright.2]) us
  rw [hleft, hinner]
  simp only [hclose]

/-- Array literals in a nested list are made as if it stood alone. -/
theorem literalsFrom_append {p : Token → Bool} {ts : List Token} (h : Clear p ts)
    (hbrace : ∀ t ∈ ts, t.is .lbrace = false) {front done : List Token}
    (hfront : front ≠ [] ∨ selects done.head? = false) (rest : List Token) :
    literalsFrom eval (front ++ done) 0 (ts ++ rest) =
      literalsFrom eval front 0 ts >>= fun out =>
      literalsFrom eval (out.reverse ++ done) 0 rest := by
  induction h generalizing front done rest with
  | nil => simp [literalsFrom]
  | @cons p t ts ht _ _ ih =>
    have hpush (done us : List Token) :
        literalsFrom eval done 0 (t :: us) = literalsFrom eval (t :: done) 0 us :=
      literalsFrom_push (hbrace t (by simp)) (by rw [is_of_not_bracket ht (by decide)]; rfl) us
    rw [cons_append, hpush, hpush, ← cons_append,
      ih (fun u hu => hbrace u (mem_cons_of_mem _ hu)) (.inl (cons_ne_nil _ _))]
  | @pair p left right inner ts hpair hinner _ ihinner ih =>
    have hhead : selects (front ++ done).head? = selects front.head? := by
      cases front with
      | nil => exact hfront.resolve_left (by simp)
      | cons t front => rfl
    have hbraceInner : ∀ t ∈ inner, t.is .lbrace = false := fun t ht => hbrace t (by simp [ht])
    have hbraceRest : ∀ t ∈ ts, t.is .lbrace = false := fun t ht => hbrace t (by simp [ht])
    have hbetween (done us : List Token) : literalsFrom eval (.sym left :: done) 0 (inner ++ us) =
        literalsFrom eval [.sym left] 0 inner >>= fun out =>
        literalsFrom eval (out.reverse ++ done) 0 us :=
      @ihinner hbraceInner [.sym left] done (.inl (cons_ne_nil _ _)) us
    -- where the brackets are kept, the list between them is gone through in the same way on both
    -- sides
    have hkept (hleft : ∀ done us, selects done.head? = selects front.head? →
        literalsFrom eval done 0 (.sym left :: us) = literalsFrom eval (.sym left :: done) 0 us)
        (hright : right ≠ .lbrace ∧ right ≠ .lbracket) :
        literalsFrom eval (front ++ done) 0 (.sym left :: (inner ++ .sym right :: (ts ++ rest))) =
          literalsFrom eval front 0 (.sym left :: (inner ++ .sym right :: ts)) >>= fun out =>
            literalsFrom eval (out.reverse ++ done) 0 rest := by
      rw [literalsFrom_through (fun us => hleft _ us hhead) hright (hbetween _),
        literalsFrom_through (fun us => hleft _ us rfl) hright (hbetween _), bind_assoc]
      refine bind_congr fun out => ?_
      rw [← append_assoc, ← cons_append, ih hbraceRest (.inl (cons_ne_nil _ _))]
    rw [cons_append, append_assoc, cons_append]
    cases hpair with
    | round => exact hkept (fun _ us _ => literalsFrom_push rfl rfl us) ⟨by decide, by decide⟩
    | curly => exact absurd (hbrace (.sym .lbrace) (by simp)) (by decide)
    | square =>
      cases hselects : selects front.head? with
      | true =>
        refine hkept (fun done us hdone => literalsFrom_push rfl ?_ us) ⟨by decide, by decide⟩
        rw [hdone, hselects]
        rfl
      | false =>
        rw [literalsFrom_array hinner (hhead.trans hselects), literalsFrom_array hinner hselects]
        simp only [bind_assoc]
        refine bind_congr fun parts => bind_congr fun vs => bind_congr fun r => ?_
        rw [← cons_append, ih hbraceRest (.inl (cons_ne_nil _ _))]

/-- An object literal. The tokens around it are only shown in reports. -/
theorem literalsFrom_object {inner : List Token} (h : Nested inner) (done rest : List Token) :
    literalsFrom eval done 0 (.sym .lbrace :: (inner ++ Token.sym .rbrace :: rest)) = (do
      let parts ← commaParts inner
      let table ← entries eval
          (done.reverse ++ .sym .lbrace :: (inner ++ Token.sym .rbrace :: rest)) parts []
      let r ← make (·.newObject table)
      literalsFrom eval (.val (.obj r) :: done) 0 rest) := by
  have hpass (done : List Token) :
      literalsFrom eval done (inner.length + 1) (inner ++ Token.sym .rbrace :: rest) =
      literalsFrom eval done 0 rest := by
    have hfront := @literalsFrom_pass eval (inner ++ [Token.sym .rbrace]) done rest
    simpa using hfront
  rw [literalsFrom, if_pos (by decide), partner_pair .curly h, pure_bind, inside_pair]
  simp only [hpass]

/-- What the pass leaves of a clear list is clear, and nothing only of nothing. -/
theorem clear_of_literalsFrom {p : Token → Bool} {ts : List Token} (h : Clear p ts)
    (hp : ∀ v, p (.val v) = false) {done rest out : List Token} {σ τ : Store}
    (hrun : literalsFrom eval done 0 (ts ++ rest) σ = .ok out τ) :
    ∃ made ρ, literalsFrom eval (made.reverse ++ done) 0 rest ρ = .ok out τ ∧ Clear p made ∧
      (ts ≠ [] → made ≠ []) := by
  induction h generalizing done rest out σ τ with
  | nil => exact ⟨[], σ, hrun, .nil, id⟩
  | @cons p t ts ht hpt hts ih =>
    rw [cons_append, literalsFrom_push (is_of_not_bracket ht (by decide))
      (by rw [is_of_not_bracket ht (by decide)]; rfl)] at hrun
    obtain ⟨made, ρ, hrest, hmade, -⟩ := ih hp hrun
    exact ⟨t :: made, ρ, by simpa using hrest, .cons ht hpt hmade, fun _ => cons_ne_nil _ _⟩
  | @pair p left right inner ts hpair hinner hts ihinner ih =>
    rw [cons_append, append_assoc, cons_append] at hrun
    -- a literal leaves one value
    have hvalue (v : Value) {ρ : Store}
        (hrun : literalsFrom eval (.val v :: done) 0 (ts ++ rest) ρ = .ok out τ)
        (hv : isBracket (.val v) = false) :
        ∃ made ρ, literalsFrom eval (made.reverse ++ done) 0 rest ρ = .ok out τ ∧ Clear p made ∧
        made ≠ [] := by
      obtain ⟨made, ρ', hrest, hmade, -⟩ := ih hp hrun
      exact ⟨.val v :: made, ρ', by simpa using hrest, .cons hv (hp v) hmade, cons_ne_nil _ _⟩
    -- brackets that are kept stay around what is left between them
    have hkept (hleft : ∀ us, literalsFrom eval done 0 (.sym left :: us) = literalsFrom eval
        (.sym left :: done) 0 us) (hright : right ≠ .lbrace ∧ right ≠ .lbracket) :
        ∃ made ρ, literalsFrom eval (made.reverse ++ done) 0 rest ρ = .ok out τ ∧ Clear p made ∧
        made ≠ [] := by
      rw [hleft] at hrun
      obtain ⟨mid, ρ, hrun, hmid, -⟩ := ihinner (fun _ => rfl) hrun
      rw [literalsFrom_push (by simpa [is] using hright.1) (by simp [is, hright.2])] at hrun
      obtain ⟨made, ρ', hrest, hmade, -⟩ := ih hp hrun
      exact ⟨.sym left :: (mid ++ .sym right :: made),
        ρ', by simpa using hrest, .pair hpair hmid hmade,
        cons_ne_nil _ _⟩
    suffices hsuff : ∃ made ρ, literalsFrom eval (made.reverse ++ done) 0 rest ρ = .ok out τ ∧
        Clear p made ∧
        made ≠ [] by
      obtain ⟨made, ρ, hrest, hmade, hne⟩ := hsuff
      exact ⟨made, ρ, hrest, hmade, fun _ => hne⟩
    cases hpair with
    | round => exact hkept (fun us => literalsFrom_push rfl rfl us) ⟨by decide, by decide⟩
    | curly =>
      rw [literalsFrom_object hinner] at hrun
      obtain ⟨parts, _, -, hrun⟩ := Eval.bind_eq_ok.1 hrun
      obtain ⟨table, _, -, hrun⟩ := Eval.bind_eq_ok.1 hrun
      obtain ⟨r, _, -, hrun⟩ := Eval.bind_eq_ok.1 hrun
      exact hvalue _ hrun rfl
    | square =>
      cases hselects : selects done.head? with
      | true =>
        exact hkept (fun us => literalsFrom_push rfl (by rw [hselects]; rfl) us)
          ⟨by decide, by decide⟩
      | false =>
        rw [literalsFrom_array hinner hselects] at hrun
        obtain ⟨parts, _, -, hrun⟩ := Eval.bind_eq_ok.1 hrun
        obtain ⟨vs, _, -, hrun⟩ := Eval.bind_eq_ok.1 hrun
        obtain ⟨r, _, -, hrun⟩ := Eval.bind_eq_ok.1 hrun
        exact hvalue _ hrun rfl

/-- What the pass leaves of a whole clear list. -/
theorem clear_of_literals {p : Token → Bool} {ts : List Token} (h : Clear p ts)
    (hp : ∀ v, p (.val v) = false) {out : List Token} {σ τ : Store}
    (hrun : literals eval ts σ = .ok out τ) :
    Clear p out ∧ (ts ≠ [] → out ≠ []) := by
  rw [literals, ← append_nil ts] at hrun
  obtain ⟨made, ρ, hrest, hmade⟩ := clear_of_literalsFrom h hp hrun
  rw [literalsFrom] at hrest
  cases hrest
  simpa using hmade

/-! ## Operands in a pass -/

theorem nested_joined {parts : List Expr}
    (h : ∀ part ∈ parts, Clear (·.is .comma) part ∧ part ≠ []) :
    Nested (joined parts) :=
  clear_joined rfl fun part hpart => (h part hpart).1.nested

/-- Array literals in a list of parts are made part by part. -/
theorem literalsFrom_commas {parts : List Expr} (h : ∀ part ∈ parts, Clear (·.is .comma) part)
    (hbrace : ∀ part ∈ parts, ∀ t ∈ part, t.is .lbrace = false) (done rest : List Token) :
    literalsFrom eval done 0 (parts.flatMap (.sym .comma :: ·) ++ rest) =
      parts.mapM (literals eval) >>= fun out =>
        literalsFrom eval ((out.flatMap (.sym .comma :: ·)).reverse ++ done) 0 rest := by
  induction parts generalizing done with
  | nil => simp
  | cons part parts ih =>
    obtain ⟨hpart, hparts⟩ := List.forall_mem_cons.1 h
    obtain ⟨hb, hbs⟩ := List.forall_mem_cons.1 hbrace
    have hfirst (us : List Token) : literalsFrom eval (.sym .comma :: done) 0 (part ++ us) =
        literals eval part >>= fun out =>
        literalsFrom eval (out.reverse ++ .sym .comma :: done) 0 us :=
      @literalsFrom_append eval _ _ hpart hb [] _ (.inr rfl) us
    rw [flatMap_cons, append_assoc, cons_append, literalsFrom_push rfl rfl, hfirst, mapM_cons]
    simp only [ih hparts hbs, bind_assoc, pure_bind, flatMap_cons, reverse_append, reverse_cons,
      append_assoc, cons_append, nil_append]

theorem literalsFrom_joined {parts : List Expr} (h : ∀ part ∈ parts, Clear (·.is .comma) part)
    (hbrace : ∀ part ∈ parts, ∀ t ∈ part, t.is .lbrace = false) {done : List Token}
    (hdone : selects done.head? = false) (rest : List Token) :
    literalsFrom eval done 0 (joined parts ++ rest) =
      parts.mapM (literals eval) >>= fun out =>
      literalsFrom eval ((joined out).reverse ++ done) 0 rest := by
  cases parts with
  | nil => simp [joined]
  | cons part parts =>
    obtain ⟨hpart, hparts⟩ := List.forall_mem_cons.1 h
    obtain ⟨hb, hbs⟩ := List.forall_mem_cons.1 hbrace
    have hfirst (us : List Token) : literalsFrom eval done 0 (part ++ us) =
        literals eval part >>= fun out => literalsFrom eval (out.reverse ++ done) 0 us :=
      @literalsFrom_append eval _ _ hpart hb [] _ (.inr hdone) us
    rw [joined_cons, append_assoc, hfirst, mapM_cons]
    simp only [literalsFrom_commas hparts hbs, bind_assoc, pure_bind, joined_cons,
      reverse_append, append_assoc]

/-- In the pass that makes literals, an operand is treated as if it stood alone. -/
theorem literalsFrom_operand {o : Operand Value} (ho : o.Proper) {done : List Token}
    (hdone : selects done.head? = false) (rest : List Token) :
    literalsFrom eval done 0 (o.tokens .val ++ rest) =
      o.made eval >>= fun m => literalsFrom eval (m.tokens.reverse ++ done) 0 rest := by
  cases o with
  | single v => exact literalsFrom_push rfl rfl rest
  | call f args =>
    have hargs := @literalsFrom_joined eval args (fun part hpart => (ho part hpart).1.1)
      (fun part hpart t ht => ((ho part hpart).2 t ht).1) (.sym .lparen :: .val f :: done) rfl
    simp only [Operand.tokens, Operand.made, Operand.Made.tokens, cons_append, append_assoc,
      nil_append, reverse_cons, reverse_append, reverse_nil, bind_assoc, pure_bind]
    rw [literalsFrom_push rfl rfl, literalsFrom_push rfl rfl, hargs]
    exact bind_congr fun out => literalsFrom_push rfl rfl rest
  | array items =>
    have hitems : ∀ part ∈ items, Clear (·.is .comma) part ∧ part ≠ [] := fun part hpart =>
        (ho part hpart).1
    simp only [Operand.tokens, Operand.made, Operand.Made.tokens, cons_append, append_assoc,
      nil_append, reverse_cons, reverse_nil, bind_assoc, pure_bind]
    rw [literalsFrom_array (nested_joined hitems) hdone, commaParts_joined hitems, pure_bind]

end Expression

/-- An operand is ready for the pass that calls functions. -/
def Operand.Made.Ready (m : Made) : Prop :=
  ∀ args, m.args = some args → m.value.isCallable = true ∧ ∀ part ∈ args, Clear (·.is .comma) part ∧
  part ≠ []

/-- The value that an operand calls can be called. -/
def Operand.CallsFunction : Operand Value → Prop
  | .call f _ => f.isCallable = true
  | _ => True

theorem Eval.bind_congr_of_ok {α β : Type} {m : Eval α} {f g : α → Eval β}
    (h : ∀ σ a τ, m σ = .ok a τ → f a τ = g a τ) : m >>= f = m >>= g := by
  funext σ
  simp only [bind, EStateM.bind]
  cases hm : m σ with
  | ok a τ => exact h σ a τ hm
  | error e τ => rfl

theorem Eval.forall_of_mapM {α β : Type} {f : α → Eval β} {as : List α} {Q : β → Prop}
    (h : ∀ a ∈ as, ∀ σ b τ, f a σ = .ok b τ → Q b) {σ τ : Store} {bs : List β}
    (hrun : as.mapM f σ = .ok bs τ) : ∀ b ∈ bs, Q b := by
  induction as generalizing σ bs with
  | nil =>
    cases hrun
    simp
  | cons a as ih =>
    obtain ⟨ha, has⟩ := List.forall_mem_cons.1 h
    rw [mapM_cons] at hrun
    obtain ⟨b, ρ, hb, hrun⟩ := Eval.bind_eq_ok.1 hrun
    obtain ⟨bs', ρ', hbs, hrun⟩ := Eval.bind_eq_ok.1 hrun
    cases hrun
    exact List.forall_mem_cons.2 ⟨ha _ _ _ hb, ih has hbs⟩

namespace Expression

variable {eval : Expr → Eval Value} {call : Nat → List Value → Eval Value}

theorem ready_of_made {o : Operand Value} (ho : o.Proper) (hcalls : o.CallsFunction) {σ τ : Store}
    {m : Operand.Made} (h : o.made eval σ = .ok m τ) : m.Ready := by
  cases o with
  | single v =>
    cases h
    intro _ hargs
    cases hargs
  | call f args =>
    obtain ⟨out, ρ, hout, h⟩ := Eval.bind_eq_ok.1 h
    cases h
    intro _ heq
    cases heq
    refine ⟨hcalls, Eval.forall_of_mapM (fun part hpart σ out τ hrun => ?_) hout⟩
    obtain ⟨hmade, hne⟩ := clear_of_literals (ho part hpart).1.1 (fun _ => rfl) hrun
    exact ⟨hmade, hne (ho part hpart).1.2⟩
  | array items =>
    obtain ⟨vs, ρ, -, h⟩ := Eval.bind_eq_ok.1 h
    obtain ⟨r, ρ', -, h⟩ := Eval.bind_eq_ok.1 h
    cases h
    intro _ hargs
    cases hargs

/-- Parentheses behind a value that can be called: the arguments are evaluated, and the value is
called. -/
theorem applyFrom_arguments {f : Value} {args : List Expr} (hcallable : f.isCallable = true)
    (hargs : ∀ part ∈ args, Clear (·.is .comma) part ∧ part ≠ []) (before rest : List Token) :
    applyFrom eval call (.val f :: before) 0
    (.sym .lparen :: (joined args ++ .sym .rparen :: rest)) =
      elements eval args >>= fun vs => apply call f vs >>= fun v =>
      applyFrom eval call (.val v :: before) 0 rest := by
  have hnested := nested_joined hargs
  have hvalues : arrayValues eval (.sym .lbracket :: joined args ++ [Token.sym .rbracket]) =
      elements eval args >>= fun vs => pure (vs, (joined args).length + 1) := by
    have h := @arrayValues_pair eval _ hnested []
    rw [commaParts_joined hargs, pure_bind] at h
    exact h
  have hskip (done : List Token) :
      applyFrom eval call done ((joined args).length + 1)
      (joined args ++ Token.sym .rparen :: rest) =
        applyFrom eval call done 0 rest := by
    have hfront := @applyFrom_skip eval call (joined args ++ [Token.sym .rparen]) done rest
    simpa using hfront
  rw [applyFrom.eq_def]
  dsimp only
  rw [if_neg (by decide), if_pos (by decide), partner_pair .round hnested, pure_bind, inside_pair]
  simp only [hcallable, if_true, hvalues, hskip, bind_assoc, pure_bind]

/-- In the pass that calls functions, an operand is treated as if it stood alone. -/
theorem applyFrom_operand {m : Operand.Made} (hm : m.Ready) (done rest : List Token) :
    applyFrom eval call done 0 (m.tokens ++ rest) =
      m.result eval call >>= fun v => applyFrom eval call (.val v :: done) 0 rest := by
  obtain ⟨f, args⟩ := m
  cases args with
  | none => exact applyFrom_val f done rest
  | some args =>
    obtain ⟨hcallable, hargs⟩ := hm args rfl
    have hcall := @applyFrom_arguments eval call f args hcallable hargs done rest
    simp only [Operand.Made.tokens, Operand.Made.result, Operand.tokens, cons_append,
      append_assoc, nil_append]
    rw [applyFrom_val, hcall, bind_assoc]

end Expression

/-! ## Chains in a pass -/

namespace Chain

variable {α β : Type}

theorem forall_of_mapM {f : α → Eval β} {c : Chain α} {P : α → Prop} {Q : β → Prop}
    (hc : c.Forall P) (h : ∀ a, P a → ∀ σ b τ, f a σ = .ok b τ → Q b) {σ τ : Store} {d : Chain β}
    (hrun : c.mapM f σ = .ok d τ) : d.Forall Q := by
  obtain ⟨first, ρ, hfirst, hrun⟩ := Eval.bind_eq_ok.1 hrun
  obtain ⟨rest, ρ', hrest, hrun⟩ := Eval.bind_eq_ok.1 hrun
  cases hrun
  refine ⟨h _ hc.1 _ _ _ hfirst, Eval.forall_of_mapM (fun p hp σ q τ hq => ?_) hrest⟩
  obtain ⟨b, _, hb, hq⟩ := Eval.bind_eq_ok.1 hq
  cases hq
  exact h _ (hc.2 p hp) _ _ _ hb

/-- A pass that goes through tokens from left to right, leaves operators as they are and treats each
operand as if it stood alone, is a pass over the operands. -/
theorem walk_spread {walk : List Token → List Token → Eval (List Token)} {write : α → List Token}
    {write' : β → List Token} {f : α → Eval β} (hnil : ∀ done, walk done [] = pure done.reverse)
    (hop : ∀ (op : Binary) done ts, walk done (.sym op.symbol :: ts) =
      walk (.sym op.symbol :: done) ts)
    {c : Chain α}
    (hc : c.Forall fun a => ∀ done ts, selects done.head? = false →
      walk done (write a ++ ts) = f a >>= fun b => walk ((write' b).reverse ++ done) ts) :
    walk [] (c.spread write) = c.mapM f >>= fun d => pure (d.spread write') := by
  obtain ⟨first, rest⟩ := c
  obtain ⟨hfirst, hrest⟩ := hc
  have hselects (op : Binary) : selects (some (.sym op.symbol)) = false := by cases op <;> rfl
  -- behind the first operand the rest is gone through, whatever has been done
  have hwalk (done : List Token) : walk done (rest.flatMap fun p => .sym p.1.symbol :: write p.2) =
      (rest.mapM fun p => do return (p.1, ← f p.2)) >>= fun out =>
        pure (done.reverse ++ out.flatMap fun p => .sym p.1.symbol :: write' p.2) := by
    induction rest generalizing done with
    | nil => simp [hnil]
    | cons p rest ih =>
      obtain ⟨hp, hrest⟩ := List.forall_mem_cons.1 hrest
      rw [flatMap_cons, cons_append, hop, hp (.sym p.1.symbol :: done) _ (hselects p.1), mapM_cons]
      simp only [ih hfirst hrest, bind_assoc, pure_bind, flatMap_cons, reverse_append,
        reverse_reverse, reverse_cons, append_assoc, cons_append, nil_append]
  rw [spread, hfirst [] _ rfl, mapM]
  simp only [hwalk, bind_assoc, pure_bind, append_nil, reverse_reverse, spread]

theorem forall_spread {write : α → List Token} {c : Chain α} {Q : Token → Prop}
    (hop : ∀ op : Binary, Q (.sym op.symbol)) (h : c.Forall fun a => ∀ t ∈ write a, Q t) :
    ∀ t ∈ c.spread write, Q t := by
  refine List.forall_mem_append.2 ⟨h.1, fun t ht => ?_⟩
  obtain ⟨p, hp, ht⟩ := List.mem_flatMap.1 ht
  rcases List.mem_cons.1 ht with rfl | ht
  · exact hop p.1
  · exact h.2 p hp t ht

theorem map_spread {write : α → List Token} {write' : β → List Token}
    {g : Token → Token} {f : α → β} (hop : ∀ op : Binary, g (.sym op.symbol) = .sym op.symbol)
    (h : ∀ a, (write a).map g = write' (f a)) (c : Chain α) :
    (c.spread write).map g = (c.map f).spread write' := by
  simp [spread, Chain.map, h, hop, map_flatMap, flatMap_map]

end Chain

namespace Operand

variable {value : String → Value}

/-- An operand with the values of its names. -/
def named (value : String → Value) : Operand String → Operand Value
  | single s => single (value s)
  | call f args => call (value f) (args.map (·.map (Token.named value)))
  | array items => array (items.map (·.map (Token.named value)))

theorem map_tokens (value : String → Value) (o : Operand String) :
    (o.tokens .name).map (Token.named value) = (o.named value).tokens .val := by
  have hjoined (parts : List Expr) : (joined parts).map (Token.named value) =
      joined (parts.map (·.map (Token.named value))) := by
    cases parts with
    | nil => rfl
    | cons part parts =>
      simp only [joined_cons, map_cons, map_append, map_flatMap, flatMap_map]
      rfl
  cases o with
  | single s => rfl
  | call f args => simp [tokens, named, hjoined, Token.named]
  | array items => simp [tokens, named, hjoined, Token.named]

theorem parts_named (o : Operand String) :
    (o.named value).parts = o.parts.map (·.map (Token.named value)) := by
  cases o <;> rfl

theorem Proper.named {o : Operand String} (h : o.Proper)
    (hvalue : ∀ part ∈ o.parts, ∀ s, .name s ∈ part → isBracket (.val (value s)) = false) :
    (o.named value).Proper := by
  intro part hpart
  rw [parts_named] at hpart
  obtain ⟨source, hsource, rfl⟩ := List.mem_map.1 hpart
  obtain ⟨⟨hclear, hne⟩, hbrace⟩ := h source hsource
  refine ⟨⟨hclear.named (hvalue source hsource) fun _ => rfl, by simpa using hne⟩, ?_⟩
  rw [forall_mem_map]
  intro t ht
  cases t with
  | name s => exact ⟨rfl, rfl⟩
  | _ => exact hbrace _ ht

theorem Proper.no_braces {o : Operand String} (h : o.Proper) :
    ∀ t ∈ o.tokens .name, t.is .lbrace = false ∧ t.is .rbrace = false := by
  have hjoined : ∀ t ∈ joined o.parts, t.is .lbrace = false ∧ t.is .rbrace = false :=
    forall_joined ⟨rfl, rfl⟩ fun part hpart => (h part hpart).2
  cases o with
  | single s => exact List.forall_mem_singleton.2 ⟨rfl, rfl⟩
  | call f args =>
    exact List.forall_mem_cons.2 ⟨⟨rfl, rfl⟩, List.forall_mem_cons.2 ⟨⟨rfl, rfl⟩,
      List.forall_mem_append.2 ⟨hjoined, List.forall_mem_singleton.2 ⟨rfl, rfl⟩⟩⟩⟩
  | array items =>
    exact List.forall_mem_cons.2 ⟨⟨rfl, rfl⟩,
      List.forall_mem_append.2 ⟨hjoined, List.forall_mem_singleton.2 ⟨rfl, rfl⟩⟩⟩

end Operand

/-- The names of a chain stand for values. No value in an argument or an element has the text of a
bracket, and what is called can be called. -/
structure Chain.ReadsAs (c : Chain (Operand String)) (lookup : String → Except Error Value)
    (value : String → Value) : Prop where
  names : ∀ s, .name s ∈ c.spread (Operand.tokens .name) → lookup s = .ok (value s)
  legible : c.Forall fun o => ∀ part ∈ o.parts, ∀ s, .name s ∈ part →
      isBracket (.val (value s)) = false
  calls : c.Forall fun o => (o.named value).CallsFunction

namespace Expression

variable {eval : Expr → Eval Value} {call : Nat → List Value → Eval Value}

theorem literals_spread {c : Chain (Operand Value)} (hc : c.Forall Operand.Proper) :
    literals eval (c.spread (Operand.tokens .val)) =
      c.mapM (Operand.made eval) >>= fun d => pure (d.spread Operand.Made.tokens) := by
  refine @Chain.walk_spread _ _ (fun done ts => literalsFrom eval done 0 ts) _ _ _ (fun _ => rfl)
    (fun op done ts => literalsFrom_push ?_ ?_ ts) _ ?_
  · cases op <;> rfl
  · cases op <;> rfl
  · exact ⟨fun done ts h => literalsFrom_operand hc.1 h ts,
      fun p hp done ts h => literalsFrom_operand (hc.2 p hp) h ts⟩

theorem applyFrom_spread {c : Chain Operand.Made} (hc : c.Forall Operand.Made.Ready) :
    applyFrom eval call [] 0 (c.spread Operand.Made.tokens) =
      c.mapM (Operand.Made.result eval call) >>= fun d => pure (d.spread fun v => [.val v]) := by
  refine @Chain.walk_spread _ _ (fun done ts => applyFrom eval call done 0 ts) _ _ _ (fun _ => ?_)
    (fun op done ts => applyFrom_symbol ?_ ?_ done ts) _ ?_
  · rw [applyFrom.eq_def]
  · cases op <;> decide
  · cases op <;> decide
  · exact ⟨fun done ts _ => applyFrom_operand hc.1 done ts,
      fun p hp done ts _ => applyFrom_operand (hc.2 p hp) done ts⟩

theorem reduce_spread {c : Chain (Operand Value)}
    (hc : c.Forall fun o => o.Proper ∧ o.CallsFunction) :
    reduce eval call (c.spread (Operand.tokens .val)) = c.inPasses eval call := by
  rw [reduce, literals_spread ⟨hc.1.1, fun p hp => (hc.2 p hp).1⟩, bind_assoc, Chain.inPasses]
  refine bind_congr_of_ok fun σ d τ hmade => ?_
  have hready : d.Forall Operand.Made.Ready :=
    Chain.forall_of_mapM hc (fun o ho σ m τ h => ready_of_made ho.1 ho.2 h) hmade
  rw [pure_bind, applications]
  simp only [applyFrom_spread hready, bind_assoc]
  refine congrFun (bind_congr fun ρ => ?_) τ
  split
  · refine (bind_assoc ..).trans (bind_congr fun _ => (bind_assoc ..).trans ?_)
    exact bind_congr fun _ => pure_bind ..
  · exact (bind_assoc ..).trans (bind_congr fun _ => pure_bind ..)

end Expression

/-- **Operands are evaluated in passes.** To evaluate operands with operators between them, first
all names are read, those to the right of a call too. Then array literals are made, from left to
right, and what their elements call is called. Only then functions are called, from left to right,
and last the operators are applied. -/
theorem evaluate_eq_inPasses (ctx : Context) (fuel scope : Nat) {c : Chain (Operand String)}
    (hc : c.Forall Operand.Proper) {σ : Store} {value : String → Value}
    (hread : c.ReadsAs (σ.lookup scope) value) :
    evaluate ctx (fuel + 1) scope (c.spread (Operand.tokens .name)) σ =
      (c.map (Operand.named value)).inPasses (evaluate ctx fuel scope) (call ctx fuel scope)
        (adoptAll scope (c.spread (Operand.tokens .name)) σ) := by
  have hbrace : ∀ t ∈ c.spread (Operand.tokens .name), t.is .lbrace = false ∧
      t.is .rbrace = false :=
    Chain.forall_spread (fun op => by cases op <;> exact ⟨rfl, rfl⟩)
      ⟨hc.1.no_braces, fun p hp => (hc.2 p hp).no_braces⟩
  have hready : (c.map (Operand.named value)).Forall fun o => o.Proper ∧ o.CallsFunction :=
    ⟨⟨hc.1.named hread.legible.1, hread.calls.1⟩, List.forall_mem_map.2 fun p hp =>
      ⟨(hc.2 p hp).named (hread.legible.2 p hp), hread.calls.2 p hp⟩⟩
  have hmap : (c.spread (Operand.tokens .name)).map (Token.named value) =
      (c.map (Operand.named value)).spread (Operand.tokens .val) :=
    Chain.map_spread (fun op => rfl) (Operand.map_tokens value) c
  rw [evaluate]
  simp only [bind, EStateM.bind, resolve_eq_map hbrace hread.names, hmap]
  rw [reduce_spread hready]

/-- A function that changes `x`, and the variable `x`. -/
def changingStore : Store :=
  { Store.empty with
    closures :=
    #[⟨.mk [] [.assign [.name "x"] [.val (.str "c")], .ret [.val (.str "a")]] [], some 0⟩]
    scopes := #[⟨[("x", .str "b"), ("f", .fn 0)], none, 0, none⟩] }

/-- The operands of `f() + x + [f(), x]`. -/
def changingChain : Chain (Operand String) :=
  ⟨.call "f" [], [(.plus, .single "x"),
    (.plus, .array [[.name "f", .sym .lparen, .sym .rparen], [.name "x"]])]⟩

def changingValue (s : String) : Value :=
  if s = "f" then .fn 0 else .str "b"

theorem evaluate_eq_inPasses_changing :
    changingChain.Forall Operand.Proper ∧
    changingChain.ReadsAs (changingStore.lookup 0) changingValue ∧
      evaluate ⟨none, false, 0⟩ 6 0 (changingChain.spread (Operand.tokens .name)) changingStore =
        (changingChain.map (Operand.named changingValue)).inPasses (evaluate ⟨none, false, 0⟩ 5 0)
          (call ⟨none, false, 0⟩ 5 0)
          (adoptAll 0 (changingChain.spread (Operand.tokens .name)) changingStore) := by
  have hproper : changingChain.Forall Operand.Proper := by decide
  have hnames : ∀ s, .name s ∈ changingChain.spread (Operand.tokens .name) → s = "f" ∨ s = "x" := by
    simp [changingChain, Chain.spread, Operand.tokens, joined]
  have hread : changingChain.ReadsAs (changingStore.lookup 0) changingValue := by
    refine ⟨fun s hs => ?_, ?_, ?_⟩
    · rcases hnames s hs with rfl | rfl <;> rfl
    · simp [changingChain, Chain.Forall, Operand.parts, changingValue, isBracket, opens, reads]
    · simp [changingChain, Chain.Forall, Operand.named, Operand.CallsFunction, changingValue,
        Value.isCallable]
  exact ⟨hproper, hread, evaluate_eq_inPasses ⟨none, false, 0⟩ 5 0 hproper hread⟩

/-- A text whose function changes the variable that stands to the right of its call. -/
def changingText : String :=
  "var x = 'b', f = function () \x7b x = 'c'; return 'a'; \x7d; print(f() + x);"

/-- The name to the right of the call has the value that it had before the call. -/
theorem name_read_before_call : outputOf ⟨10, 5⟩ changingText = "ab\n" := by
  decide +kernel

end LittleJ
