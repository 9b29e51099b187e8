import LittleJ.Number.Numeral
import LittleJ.Token

/-!
# Formulas

What an expression of literals and operators means, said without its tokens: a *formula* is a tree
of operators over scalars, and it denotes the scalar that its root makes of what its branches
denote. Both branches of an operator are always evaluated. A formula denotes nothing if some
operator in it is given operands that it is not for, or a divisor that is zero.

A *chain* is how such an expression is written without parentheses: operands with binary operators
between them. The six levels of precedence make one formula of it, with operators of one level
grouped from the left. That formula is the only one that lists the operands and operators of the
chain in their order and in which every operator binds at least as tightly as the one below it on
the left, and more tightly than the one below it on the right.
-/

namespace LittleJ

open List

/-! ## Scalars -/

/-- A value without parts. -/
inductive Scalar
  | null
  | bool (b : Bool)
  | num (x : Float)
  | str (s : String)
deriving DecidableEq

namespace Scalar

/-- The value that a scalar is. -/
def value : Scalar → Value
  | null => .null
  | bool b => .bool b
  | num x => .num x
  | str s => .str s

/-- Whether a scalar counts as true: null, `false`, zero and the empty string do not. -/
def truth : Scalar → Bool
  | null => false
  | bool b => b
  | num x => !(x == 0.0)
  | str s => s != ""

/-- Whether two scalars are the same. Scalars of different kinds never are. -/
def same : Scalar → Scalar → Bool
  | null, null => true
  | bool a, bool b => a == b
  | num x, num y => x == y
  | str s, str t => s == t
  | _, _ => false

theorem value_injective {v w : Scalar} (h : v.value = w.value) : v = w := by
  cases v <;> cases w <;> simp_all [value]

end Scalar

/-! ## Operators -/

/-- A unary operator: `!`, `-` or `+`. -/
inductive Unary
  | not
  | negative
  | number
deriving DecidableEq

namespace Unary

/-- How a unary operator is written. -/
def symbol : Unary → Symbol
  | not => .bang
  | negative => .minus
  | number => .plus

/-- What a unary operator makes of its operand. -/
def apply : Unary → Scalar → Option Scalar
  | not, v => some (.bool !v.truth)
  | negative, .num x => some (.num (-x))
  | number, .num x => some (.num x)
  | number, .str s => (Number.read? s).map .num
  | _, _ => none

end Unary

/-- A binary operator. -/
inductive Binary
  | times
  | divide
  | modulo
  | plus
  | minus
  | ge
  | le
  | gt
  | lt
  | same
  | differs
  | both
  | either
deriving DecidableEq

namespace Binary

/-- How a binary operator is written. -/
def symbol : Binary → Symbol
  | times => .star
  | divide => .slash
  | modulo => .percent
  | plus => .plus
  | minus => .minus
  | ge => .ge
  | le => .le
  | gt => .gt
  | lt => .lt
  | same => .same
  | differs => .differs
  | both => .both
  | either => .either

theorem symbol_injective {op op' : Binary} (h : op.symbol = op'.symbol) : op = op' := by
  cases op <;> cases op' <;> first | rfl | cases h

/-- The level of precedence of an operator. The tightest is zero. -/
def level : Binary → Nat
  | times | divide | modulo => 0
  | plus | minus => 1
  | ge | le | gt | lt => 2
  | same | differs => 3
  | both => 4
  | either => 5

theorem level_lt (op : Binary) : op.level < 6 := by
  cases op <;> decide

/-- What an operator makes of two numbers, if it is one for numbers. -/
def onNumbers : Binary → Float → Float → Option Scalar
  | times, x, y => some (.num (x * y))
  | divide, x, y => if y == 0.0 then none else some (.num (x / y))
  | modulo, x, y => if y == 0.0 then none else some (.num (Number.remainder x y))
  | plus, x, y => some (.num (x + y))
  | minus, x, y => some (.num (x - y))
  | ge, x, y => some (.bool (x ≥ y))
  | le, x, y => some (.bool (x ≤ y))
  | gt, x, y => some (.bool (x > y))
  | lt, x, y => some (.bool (x < y))
  | _, _, _ => none

/-- What an operator makes of two strings, if it is one for strings. -/
def onStrings : Binary → String → String → Option Scalar
  | plus, s, t => some (.str (s ++ t))
  | ge, s, t => some (.bool (s ≥ t))
  | le, s, t => some (.bool (s ≤ t))
  | gt, s, t => some (.bool (s > t))
  | lt, s, t => some (.bool (s < t))
  | _, _, _ => none

/-- What an operator makes of its operands. Arithmetic and comparisons want two numbers or two
strings; the others take any operands. -/
def apply : Binary → Scalar → Scalar → Option Scalar
  | same, v, w => some (.bool (v.same w))
  | differs, v, w => some (.bool !(v.same w))
  | both, v, w => some (if v.truth then w else v)
  | either, v, w => some (if v.truth then v else w)
  | op, .num x, .num y => op.onNumbers x y
  | op, .str s, .str t => op.onStrings s t
  | _, _, _ => none

end Binary

/-! ## Formulas -/

/-- A tree of operators over scalars. -/
inductive Formula
  | lit (v : Scalar)
  | unary (op : Unary) (e : Formula)
  | binary (op : Binary) (a b : Formula)
deriving DecidableEq

namespace Formula

/-- What a formula denotes. Both operands of a binary operator are evaluated, also those of the
logical ones. -/
def denote : Formula → Option Scalar
  | lit v => some v
  | unary op e => do op.apply (← e.denote)
  | binary op a b => do
    let v ← a.denote
    let w ← b.denote
    op.apply v w

/-- The scalars in a formula, from left to right. -/
def literals : Formula → List Scalar
  | lit v => [v]
  | unary _ e => e.literals
  | binary _ a b => a.literals ++ b.literals

/-- A formula as a list of tokens without parentheses. -/
def flat : Formula → List Token
  | lit v => [.val v.value]
  | unary op e => .sym op.symbol :: e.flat
  | binary op a b => a.flat ++ .sym op.symbol :: b.flat

/-- How loosely the root of a formula binds: more than the level of its operator, and nothing for a
scalar. -/
def looseness : Formula → Nat
  | binary op _ _ => op.level + 1
  | _ => 0

/-- Parentheses would change nothing: on its left each operator has at most operators of its own
level, on its right only tighter ones. -/
def Grouped : Formula → Prop
  | lit _ => True
  | unary _ _ => False
  | binary op a b =>
    a.Grouped ∧ b.Grouped ∧ a.looseness ≤ op.level + 1 ∧ b.looseness ≤ op.level

end Formula

/-! ## Chains -/

/-- Operands with binary operators between them. -/
structure Chain (α : Type) where
  first : α
  rest : List (Binary × α)
deriving DecidableEq

namespace Chain

variable {α β : Type}

/-- The operators of a chain, in order. -/
def ops (c : Chain α) : List Binary :=
  c.rest.map Prod.fst

/-- The chain of what a function makes of the operands. -/
def map (f : α → β) (c : Chain α) : Chain β :=
  ⟨f c.first, c.rest.map fun p => (p.1, f p.2)⟩

/-- The tokens of a chain, given those of its operands. -/
def spread (write : α → List Token) (c : Chain α) : List Token :=
  write c.first ++ c.rest.flatMap fun p => .sym p.1.symbol :: write p.2

/-- The tokens of a chain of scalars. -/
def tokens (c : Chain Scalar) : List Token :=
  c.spread fun v => [.val v.value]

/-- Joins the operands of a chain at the operators of one level, from left to right. The chain
starts with `e`. -/
def gather (level : Nat) (e : Formula) : List (Binary × Formula) → Chain Formula
  | [] => ⟨e, []⟩
  | (op, e') :: rest =>
    if op.level = level then gather level (.binary op e e') rest
    else ⟨e, (op, (gather level e' rest).first) :: (gather level e' rest).rest⟩

/-- A chain joined at the operators of one level. -/
def gathered (c : Chain Formula) (level : Nat) : Chain Formula :=
  gather level c.first c.rest

/-- A chain joined at the operators of the tightest `n` levels, one level after the other. -/
def joined (c : Chain Scalar) : Nat → Chain Formula
  | 0 => c.map .lit
  | n + 1 => (c.joined n).gathered n

/-- The formula that the levels of precedence make of a chain. -/
def formula (c : Chain Scalar) : Formula :=
  (c.joined 6).first

/-! ## Joining by levels -/

/-- Joining takes the operators of its level out of a chain. -/
theorem ops_gather (level : Nat) (e : Formula) (rest : List (Binary × Formula)) :
    (gather level e rest).ops = (rest.map Prod.fst).filter fun op => op.level ≠ level := by
  fun_induction gather level e rest with
  | case1 e => rfl
  | case2 e op e' rest h ih => simpa [h] using ih
  | case3 e op e' rest h ih => simpa [ops, h] using ih

/-- Joining only puts a tree over the tokens. -/
theorem spread_gather (level : Nat) (e : Formula) (rest : List (Binary × Formula)) :
    (gather level e rest).spread Formula.flat = (Chain.mk e rest).spread Formula.flat := by
  fun_induction gather level e rest with
  | case1 e => rfl
  | case2 e op e' rest h ih => simpa [spread, Formula.flat] using ih
  | case3 e op e' rest h ih => simpa [spread] using ih

/-- Every operand of a chain has a property. -/
def Forall (P : α → Prop) (c : Chain α) : Prop :=
  P c.first ∧ ∀ p ∈ c.rest, P p.2

/-- Formulas that bind more tightly than a level make formulas no looser than it. -/
theorem forall_gather {level : Nat} {e : Formula} {rest : List (Binary × Formula)}
    (he : e.Grouped ∧ e.looseness ≤ level + 1)
    (hrest : ∀ p ∈ rest, p.2.Grouped ∧ p.2.looseness ≤ level) :
    (gather level e rest).Forall fun e => e.Grouped ∧ e.looseness ≤ level + 1 := by
  fun_induction gather level e rest with
  | case1 e => exact ⟨he, by simp⟩
  | case2 e op e' rest h ih =>
    obtain ⟨he', hrest⟩ := List.forall_mem_cons.1 hrest
    refine ih ⟨⟨he.1, he'.1, ?_, ?_⟩, ?_⟩ hrest
    · exact h ▸ he.2
    · exact h ▸ he'.2
    · exact Nat.le_of_eq (congrArg (· + 1) h)
  | case3 e op e' rest h ih =>
    obtain ⟨he', hrest⟩ := List.forall_mem_cons.1 hrest
    obtain ⟨hfirst, hmore⟩ := ih ⟨he'.1, Nat.le_succ_of_le he'.2⟩ hrest
    exact ⟨he, List.forall_mem_cons.2 ⟨hfirst, hmore⟩⟩

theorem ops_joined (c : Chain Scalar) (n : Nat) :
    (c.joined n).ops = c.ops.filter fun op => n ≤ op.level := by
  induction n with
  | zero =>
    rw [List.filter_eq_self.2 fun op _ => decide_eq_true (Nat.zero_le op.level)]
    simp [joined, map, ops]
  | succ n ih =>
    have h := ops_gather n (c.joined n).first (c.joined n).rest
    rw [← ops, ih, filter_filter] at h
    refine h.trans (filter_congr fun op _ => ?_)
    simp only [ne_eq, ← Bool.decide_and, decide_eq_decide]
    omega

theorem spread_joined (c : Chain Scalar) (n : Nat) :
    (c.joined n).spread Formula.flat = c.tokens := by
  induction n with
  | zero => simp [joined, map, tokens, spread, Formula.flat, flatMap_map]
  | succ n ih => exact (spread_gather n _ _).trans ih

theorem forall_joined (c : Chain Scalar) (n : Nat) : (c.joined n).Forall fun e => e.Grouped ∧
    e.looseness ≤ n := by
  induction n with
  | zero =>
    refine ⟨⟨trivial, Nat.le_refl 0⟩, fun p hp => ?_⟩
    obtain ⟨q, _, rfl⟩ := List.mem_map.1 hp
    exact ⟨trivial, Nat.le_refl 0⟩
  | succ n ih => exact forall_gather ⟨ih.1.1, Nat.le_succ_of_le ih.1.2⟩ ih.2

/-- Six levels leave no operator. -/
theorem rest_joined (c : Chain Scalar) : (c.joined 6).rest = [] := by
  have h : (c.joined 6).ops = [] := by
    rw [ops_joined, filter_eq_nil_iff]
    intro op _
    simpa using op.level_lt
  simpa [ops] using h

theorem grouped_formula (c : Chain Scalar) : c.formula.Grouped :=
  (c.forall_joined 6).1.1

theorem flat_formula (c : Chain Scalar) : c.formula.flat = c.tokens := by
  have h := c.spread_joined 6
  rwa [spread, rest_joined, flatMap_nil, append_nil] at h

end Chain

/-! ## Only one formula -/

namespace Formula

/-- The operators in a formula bind more tightly than its looseness. -/
theorem level_lt_looseness {e : Formula} (he : e.Grouped) {op : Binary}
    (h : Token.sym op.symbol ∈ e.flat) : op.level < e.looseness := by
  induction e with
  | lit v => simp [flat] at h
  | unary u e ih => exact he.elim
  | binary root a b iha ihb =>
    obtain ⟨ha, hb, hla, hlb⟩ := he
    simp only [flat, mem_append, mem_cons, Token.sym.injEq] at h
    rcases h with h | h | h
    · exact Nat.lt_of_lt_of_le (iha ha h) hla
    · exact Binary.symbol_injective h ▸ Nat.lt_succ_self _
    · exact Nat.lt_succ_of_lt (Nat.lt_of_lt_of_le (ihb hb h) hlb)

theorem flat_ne_nil (e : Formula) : e.flat ≠ [] := by
  cases e <;> simp [flat]

/-- The roots of two formulas of the same tokens cannot be apart: what is left of one would be on
the right of the other. -/
theorem not_root_before {op op' : Binary} {a b a' b' : Formula} (he : (binary op a b).Grouped)
    (he' : (binary op' a' b').Grouped) {mid : List Token}
    (ha' : a'.flat = a.flat ++ .sym op.symbol :: mid)
    (hb : b.flat = mid ++ .sym op'.symbol :: b'.flat) : False := by
  have h : op.level < a'.looseness := level_lt_looseness he'.1 (by simp [ha'])
  have h' : op'.level < b.looseness := level_lt_looseness he.2.1 (by simp [hb])
  have hl := he.2.2.2
  have hl' := he'.2.2.1
  omega

/-- Formulas that need no parentheses are told apart by their tokens. -/
theorem eq_of_flat_eq {e e' : Formula} (he : e.Grouped) (he' : e'.Grouped)
    (h : e.flat = e'.flat) : e = e' := by
  induction e generalizing e' with
  | lit v =>
    cases e' with
    | lit w =>
      simp only [flat, cons.injEq, Token.val.injEq, and_true] at h
      rw [Scalar.value_injective h]
    | unary u e' => exact he'.elim
    | binary op' a' b' =>
      have hlen := congrArg length h
      have ha := List.length_pos_iff.2 a'.flat_ne_nil
      simp only [flat, length_cons, length_append, length_nil] at hlen
      omega
  | unary u e ih => exact he.elim
  | binary op a b iha ihb =>
    cases e' with
    | lit w =>
      have hlen := congrArg length h
      have ha := List.length_pos_iff.2 a.flat_ne_nil
      simp only [flat, length_cons, length_append, length_nil] at hlen
      omega
    | unary u e' => exact he'.elim
    | binary op' a' b' =>
      rcases List.append_eq_append_iff.1 h with ⟨mid, hmid, hb⟩ | ⟨mid, hmid, hb⟩
      · cases mid with
        | nil =>
          simp only [nil_append, cons.injEq, Token.sym.injEq] at hb
          rw [Binary.symbol_injective hb.1, ihb he.2.1 he'.2.1 hb.2, iha he.1 he'.1
            (by simpa using hmid.symm)]
        | cons t mid =>
          simp only [cons_append, cons.injEq] at hb
          exact (not_root_before he he' (hb.1 ▸ hmid) hb.2).elim
      · cases mid with
        | nil =>
          simp only [nil_append, cons.injEq, Token.sym.injEq] at hb
          rw [Binary.symbol_injective hb.1, ihb he.2.1 he'.2.1 hb.2.symm, iha he.1 he'.1
            (by simpa using hmid)]
        | cons t mid =>
          simp only [cons_append, cons.injEq] at hb
          exact (not_root_before he' he (hb.1 ▸ hmid) hb.2).elim

end Formula

/-- The formula of a chain is the one formula over its tokens that needs no parentheses. -/
theorem Chain.eq_formula_iff (c : Chain Scalar) (e : Formula) :
    e = c.formula ↔ e.Grouped ∧ e.flat = c.tokens := by
  constructor
  · rintro rfl
    exact ⟨c.grouped_formula, c.flat_formula⟩
  · rintro ⟨he, hflat⟩
    exact Formula.eq_of_flat_eq he c.grouped_formula (hflat.trans c.flat_formula.symm)

end LittleJ
