import LittleJ.Proofs.LibrarySteps

/-!
# Slices

The library cuts strings and arrays with one and the same code, which is run here once for both. A
bound of a slice is null or any whole number. Before the loop the two bounds become positions, and
the loop goes through these.

**A slice is what it should be unless it begins before the start.** The first bound is not kept from
doing so, and then the first round of the loop asks for an element that is not there, and breaks
down.
-/

namespace LittleJ.Store

/-! ## Arrays that can be walked through -/

variable {σ τ : Store}

/-- Looking deeper does not find what was not there. -/
theorem endlessWithin_succ {v : Value} {fuel : Nat} (h : σ.endlessWithin fuel v = false) :
    σ.endlessWithin (fuel + 1) v = false := by
  induction fuel generalizing v with
  | zero => cases h
  | succ fuel ih =>
    cases v with
    | arr r =>
      rw [endlessWithin, Array.any_eq_false] at h ⊢
      exact fun i hi => Bool.eq_false_iff.1 (ih (Bool.eq_false_iff.2 (h i hi)))
    | _ => rfl

/-- The arrays in the arrays of a store are in it too. -/
def Linked (σ : Store) : Prop :=
  ∀ r q, .arr q ∈ σ.array r → q < σ.arrays.size

/-- New arrays change nothing in the old ones. -/
theorem endlessWithin_of_same (hlinked : σ.Linked) (h : ∀ r < σ.arrays.size, τ.array r = σ.array r)
    {v : Value} (hv : ∀ r, v = .arr r → r < σ.arrays.size) (fuel : Nat) :
    τ.endlessWithin fuel v = σ.endlessWithin fuel v := by
  induction fuel generalizing v with
  | zero => rfl
  | succ fuel ih =>
    cases v with
    | arr r =>
      rw [endlessWithin, endlessWithin, h r (hv r rfl)]
      refine Bool.eq_iff_iff.2 ?_
      rw [← Array.any_toList, ← Array.any_toList, List.any_eq_true, List.any_eq_true]
      refine exists_congr fun w => and_congr_right fun hw => ?_
      rw [ih fun q hq => hlinked r q (hq ▸ Array.mem_toList_iff.1 hw)]
    | _ => rfl

/-- An array that can be walked through: it does not contain itself, and all that is in it belongs
to the language. -/
structure Walkable (σ : Store) (q : Nat) : Prop where
  made : q < σ.arrays.size
  linked : σ.Linked
  ended : σ.isEndless (.arr q) = false
  proper : ∀ v ∈ σ.array q, v.isProper = true

/-- With a new array of some of its elements, both can be walked through. -/
theorem Walkable.ended_push {q : Nat} (h : σ.Walkable q) {xs : Array Value}
    (hxs : ∀ v ∈ xs, v ∈ σ.array q) (hτ : τ.arrays = σ.arrays.push xs) :
    τ.isEndless (.arr q) = false ∧ τ.isEndless (.arr σ.arrays.size) = false := by
  have hsame (r : Nat) (hr : r < σ.arrays.size) : τ.array r = σ.array r := by
    simp [Store.array, hτ, Array.getElem?_push, hr.ne]
  have hnew : τ.array σ.arrays.size = xs := by simp [Store.array, hτ]
  have hsize : τ.arrays.size = σ.arrays.size + 1 := by rw [hτ, Array.size_push]
  have hold {v : Value} (hv : ∀ r, v = .arr r → r < σ.arrays.size) (fuel : Nat) :=
    endlessWithin_of_same h.linked hsame hv fuel
  constructor
  · rw [isEndless, hsize, hold (by rintro r ⟨⟩; exact h.made)]
    exact endlessWithin_succ h.ended
  · have hended := h.ended
    rw [isEndless, endlessWithin, Array.any_eq_false'] at hended
    rw [isEndless, hsize, endlessWithin, hnew, Array.any_eq_false']
    intro v hv
    rw [hold fun r hr => h.linked q r (hr ▸ hxs v hv), Bool.not_eq_true]
    exact endlessWithin_succ (Bool.eq_false_iff.2 (hended v (hxs v hv)))

end LittleJ.Store

namespace LittleJ.StandardLibrary

open LittleJ.Bracket LittleJ.Parser LittleJ.Number Eval Expression
open Workload (numberToken)

/-! ## Bounds -/

/-- A bound of a slice: null, or a number that is whole. -/
inductive Bound : Value → Option Int → Prop where
  | null : Bound .null none
  | whole {x : Float} {k : Int} : IsInt x k → Bound (.num x) (some k)

/-- The position that a bound means in something of length `n`: negative numbers count from the end.
-/
def fromEnd (n null : Int) : Option Int → Int
  | none => null
  | some k => if k < 0 then n + k else k

/-- What becomes of the first bound. -/
def lower (n : Nat) : Value → Float
  | .num x => if x < 0.0 then Float.ofInt n + x else x
  | _ => 0.0

/-- What becomes of the second bound. -/
def upper (n : Nat) : Value → Float
  | .num x => if Float.ofInt n < x then Float.ofInt n else if x < 0.0 then Float.ofInt n + x else x
  | _ => Float.ofInt n

section

variable {v : Value} {k : Option Int} {n : Nat} (h : Bound v k) (hn : n ≤ 2 ^ 53)

include h hn

theorem Bound.marks_lower : Marks (lower n v) (fromEnd n 0 k) := by
  cases h with
  | null => exact .whole isInt_zero
  | @whole x k hx =>
    rw [lower, fromEnd, if_congr (Marks.neg_iff (.whole hx)) rfl rfl]
    split
    · exact hx.marks_add ‹_› hn
    · exact .whole hx

theorem Bound.marks_upper : Marks (upper n v) (min n (fromEnd n n k)) := by
  have hlength : IsInt (Float.ofInt n) n := isInt_ofInt (show Small n from hn)
  cases h with
  | null =>
    rw [fromEnd, min_self]
    exact .whole hlength
  | @whole x k hx =>
    rw [upper, fromEnd, if_congr (Marks.neg_iff (.whole hx)) rfl rfl,
      if_congr (hlength.lt_iff hx) rfl rfl]
    by_cases hlong : (n : Int) < k
    · rw [if_pos hlong, if_neg (by omega), min_eq_left hlong.le]
      exact .whole hlength
    · rw [if_neg hlong]
      split
      · rw [min_eq_right (by omega)]
        exact hx.marks_add ‹_› hn
      · rw [min_eq_right (by omega)]
        exact .whole hx

end

/-! ## The code -/

/-- The code of one of the two functions. -/
def Slicing.InLibrary (f : Slicing) : Prop :=
  f = stringSlicing ∨ f = arraySlicing

/-- The variables of a slice. -/
def Slicing.vars (f : Slicing) (n : Nat) (subject lo hi ans i : Value) : Table Value :=
  [(f.subject, subject), ("p1", lo), ("p2", hi), ("ans", ans), ("i", i),
    (f.length, .num (Float.ofInt n))]

/-- The two bounds of a slice. -/
inductive Side
  | first
  | second

def Side.name : Side → String
  | .first => "p1"
  | .second => "p2"

/-- The variables of a slice, by the value of one of the bounds. -/
def Slicing.varsAt (f : Slicing) (n : Nat) (subject other ans i : Value) :
    Side → Value → Table Value
  | .first, v => f.vars n subject v other ans i
  | .second, v => f.vars n subject other v ans i

variable {p : Place} {σ : Store} {d : Int} {c : Nat} {a : Array (Array Value)} {ctx : Context}
  {fuel n : Nat} {f : Slicing} {subject v w lo hi ans i : Value} {x y : Float} {s : String}

section

variable (hl : Loaded p σ) (hf : f.InLibrary)

include hl hf

section

variable {other : Value} (side : Side)

/-- Whether a bound is null. -/
theorem evaluate_isNull (v : Scalar) :
    evaluate ctx (fuel + 2) σ.scopes.size [.name side.name, .sym .same, .val .null]
        (p.frame σ d (f.varsAt n subject other ans i side v.value) c a) =
      .ok (.bool (v.same .null))
        (p.frame σ d (f.varsAt n subject other ans i side v.value) c a) := by
  rcases hf with rfl | rfl <;> cases side <;>
    exact evaluate_operation hl rfl .same v .null rfl rfl rfl rfl rfl

/-- The last arm for a bound: a negative number is counted from the end. -/
theorem exec_fromEnd :
    exec ctx (fuel + 3) σ.scopes.size (.ladder [([.name side.name, .sym .lt, numberToken 0],
        [.assign [.name side.name] [.name f.length, .sym .plus, .name side.name]])])
        (p.frame σ d (f.varsAt n subject other ans i side (.num x)) c a) =
      .ok () (p.frame σ d (f.varsAt n subject other ans i side
        (.num (if x < 0.0 then Float.ofInt n + x else x))) c a) := by
  let F (x : Float) := p.frame σ d (f.varsAt n subject other ans i side (.num x)) c a
  have hneg : evaluate ctx (fuel + 2) σ.scopes.size [.name side.name, .sym .lt, numberToken 0]
      (F x) = .ok (.bool (x < 0.0)) (F x) := by
    rcases hf with rfl | rfl <;> cases side <;>
      exact evaluate_operation hl rfl .lt (.num x) (.num 0.0) rfl rfl rfl rfl rfl
  by_cases h : x < 0.0
  · have hadd : exec ctx (fuel + 2) σ.scopes.size
        (.assign [.name side.name] [.name f.length, .sym .plus, .name side.name]) (F x) =
          .ok () (F (Float.ofInt n + x)) := by
      rcases hf with rfl | rfl <;> cases side <;> exact exec_assign_frame (by simp) rfl
        (evaluate_operation hl rfl .plus (.num (Float.ofInt n)) (.num x) rfl rfl rfl rfl rfl)
    rw [decide_eq_true h] at hneg
    rw [if_pos h]
    exact exec_ladder_true (by simp [numberToken]) hneg (runAll_singleton hadd)
  · rw [decide_eq_false h] at hneg
    rw [if_neg h]
    exact exec_ladder_false (by simp [numberToken]) hneg exec_ladder_nil

end

/-- The first bound becomes a position. -/
theorem exec_lower {k : Option Int} (h : Bound v k) :
    exec ctx (fuel + 3) σ.scopes.size f.lower (p.frame σ d (f.vars n subject v hi ans i) c a) =
      .ok () (p.frame σ d (f.vars n subject (.num (lower n v)) hi ans i) c a) := by
  rw [Slicing.lower]
  cases h with
  | null =>
    have hzero : exec ctx (fuel + 2) σ.scopes.size (.assign [.name "p1"] [numberToken 0])
        (p.frame σ d (f.vars n subject .null hi ans i) c a) =
          .ok () (p.frame σ d (f.vars n subject (.num 0.0) hi ans i) c a) := by
      rcases hf with rfl | rfl <;>
        exact exec_assign_frame (by simp) rfl (evaluate_scalar _ _ _ (.num 0.0) _)
    exact exec_ladder_true (by simp) (evaluate_isNull hl hf .first .null) (runAll_singleton hzero)
  | @whole x k hx =>
    exact exec_ladder_false (by simp) (evaluate_isNull hl hf .first (.num x))
      (exec_fromEnd hl hf .first)

/-- The second bound becomes a position, not past the end. -/
theorem exec_upper {k : Option Int} (h : Bound v k) :
    exec ctx (fuel + 3) σ.scopes.size f.upper (p.frame σ d (f.vars n subject lo v ans i) c a) =
      .ok () (p.frame σ d (f.vars n subject lo (.num (upper n v)) ans i) c a) := by
  let F (v : Value) := p.frame σ d (f.vars n subject lo v ans i) c a
  have hlength (v : Value) :
      exec ctx (fuel + 2) σ.scopes.size (.assign [.name "p2"] [.name f.length]) (F v) =
        .ok () (F (.num (Float.ofInt n))) := by
    rcases hf with rfl | rfl <;>
      exact exec_assign_frame (by simp) rfl (evaluate_variable hl rfl rfl rfl rfl rfl)
  rw [Slicing.upper]
  cases h with
  | null =>
    exact exec_ladder_true (by simp) (evaluate_isNull hl hf .second .null)
      (runAll_singleton (hlength .null))
  | @whole x k hx =>
    have hpast : evaluate ctx (fuel + 2) σ.scopes.size [.name "p2", .sym .gt, .name f.length]
        (F (.num x)) = .ok (.bool (Float.ofInt n < x)) (F (.num x)) := by
      rcases hf with rfl | rfl <;>
        exact evaluate_operation hl rfl .gt (.num x) (.num (Float.ofInt n)) rfl rfl rfl rfl rfl
    refine exec_ladder_false (by simp) (evaluate_isNull hl hf .second (.num x)) ?_
    rw [upper]
    by_cases hlong : Float.ofInt n < x
    · rw [decide_eq_true hlong] at hpast
      rw [if_pos hlong]
      exact exec_ladder_true (by simp) hpast (runAll_singleton (hlength (.num x)))
    · rw [decide_eq_false hlong] at hpast
      rw [if_neg hlong]
      exact exec_ladder_false (by simp) hpast (exec_fromEnd hl hf .second)

/-- The loop begins at the first bound. -/
theorem exec_begin : exec ctx (fuel + 1) σ.scopes.size (.assign [.name "i"] [.name "p1"])
      (p.frame σ d (f.vars n subject (.num x) hi ans i) c a) =
    .ok () (p.frame σ d (f.vars n subject (.num x) hi ans (.num x)) c a) := by
  rcases hf with rfl | rfl <;>
    exact exec_assign_frame (by simp) rfl (evaluate_variable hl rfl rfl rfl rfl rfl)

theorem evaluate_below : evaluate ctx (fuel + 2) σ.scopes.size [.name "i", .sym .lt, .name "p2"]
      (p.frame σ d (f.vars n subject lo (.num y) ans (.num x)) c a) =
    .ok (.bool (x < y)) (p.frame σ d (f.vars n subject lo (.num y) ans (.num x)) c a) := by
  rcases hf with rfl | rfl <;>
    exact evaluate_operation hl rfl .lt (.num x) (.num y) rfl rfl rfl rfl rfl

theorem exec_next :
    exec ctx (fuel + 2) σ.scopes.size (.assign [.name "i"] [.name "i", .sym .plus, numberToken 1])
      (p.frame σ d (f.vars n subject lo hi ans (.num x)) c a) =
    .ok () (p.frame σ d (f.vars n subject lo hi ans (.num (x + Float.ofInt 1))) c a) := by
  rcases hf with rfl | rfl <;> exact exec_assign_frame (by simp [numberToken]) rfl
    (evaluate_operation hl rfl .plus (.num x) (.num (Float.ofInt 1)) rfl rfl rfl rfl rfl)

end

/-! ## Running the code -/

/-- How one of the two functions cuts its subject, which has length `n`: what the answer and the
arrays are after the parts from `lo` up to `hi`, and that the code that is its own makes them so. -/
structure Cuts (ctx : Context) (fuel : Nat) (p : Place) (σ : Store) (f : Slicing)
    (subject : Value) (n : Nat) (answer : Nat → Nat → Value)
    (arrays : Nat → Nat → Array (Array Value)) : Prop where
  empty : ∀ lo hi, hi ≤ lo → answer lo hi = answer 0 0 ∧ arrays lo hi = arrays 0 0
  start : ∀ d c v w, evaluate ctx (fuel + 3) σ.scopes.size f.start
      (p.frame σ d [(f.subject, subject), ("p1", v), ("p2", w)] c σ.arrays) =
    .ok (answer 0 0) (p.frame σ d [(f.subject, subject), ("p1", v), ("p2", w)] c (arrays 0 0))
  length : ∀ d c v w, evaluate ctx (fuel + 3) σ.scopes.size
      [.name "len", .sym .lparen, .name f.subject, .sym .rparen]
      (p.frame σ d [(f.subject, subject), ("p1", v), ("p2", w), ("ans", answer 0 0), ("i", .null)]
        c (arrays 0 0)) =
    .ok (.num (Float.ofInt n))
      (p.frame σ d [(f.subject, subject), ("p1", v), ("p2", w), ("ans", answer 0 0), ("i", .null)]
        c (arrays 0 0))
  step : ∀ d c v w lo hi x, lo ≤ hi → hi < n → IsPosition x hi →
      exec ctx (fuel + 3) σ.scopes.size f.step
      (p.frame σ d (f.vars n subject v w (answer lo hi) (.num x)) c (arrays lo hi)) =
    .ok () (p.frame σ d (f.vars n subject v w (answer lo (hi + 1)) (.num x)) c (arrays lo (hi + 1)))
  fails : ∀ d c v w x, x < 0.0 → exec ctx (fuel + 3) σ.scopes.size f.step
      (p.frame σ d (f.vars n subject v w (answer 0 0) (.num x)) c (arrays 0 0)) =
    .error (.failure (.fault .unnamed))
      (p.frame σ d (f.vars n subject v w (answer 0 0) (.num x)) c (arrays 0 0))
  result : ∀ d c v w x lo hi, evaluate ctx (fuel + 3) σ.scopes.size [.name "ans"]
      (p.frame σ d (f.vars n subject v w (answer lo hi) x) c (arrays lo hi)) =
    .ok (answer lo hi) (p.frame σ d (f.vars n subject v w (answer lo hi) x) c (arrays lo hi))

/-- The nearest position in something of length `n`. -/
def within (n k : Int) : Nat :=
  (max 0 (min n k)).toNat

/-- The first of so many positions in a row. -/
def advanced (x : Float) : Nat → Float
  | 0 => x
  | k + 1 => advanced x k + Float.ofInt 1

theorem isPosition_advanced {m : Nat} (hx : IsPosition x m) {k : Nat} (hk : m + k ≤ 2 ^ 53) :
    IsPosition (advanced x k) (m + k) := by
  induction k with
  | zero => exact hx
  | succ k ih => exact (ih (by omega)).succ (by omega)

namespace Cuts

variable {answer : Nat → Nat → Value} {arrays : Nat → Nat → Array (Array Value)}
  (h : Cuts ctx fuel p σ f subject n answer arrays) (hl : Loaded p σ) (hf : f.InLibrary)

include h hl hf

/-- Before the loop the variables are made and the bounds become positions. -/
theorem prologue {k₁ k₂ : Option Int} (hv : Bound v k₁) (hw : Bound w k₂) :
    runAll (exec ctx (fuel + 4) σ.scopes.size) (f.routine.body.take 6)
        (p.frame σ d [(f.subject, subject), ("p1", v), ("p2", w)] c σ.arrays) =
      .ok () (p.frame σ d (f.vars n subject (.num (lower n v)) (.num (upper n w)) (answer 0 0)
        (.num (lower n v))) c (arrays 0 0)) := by
  have hans : exec ctx (fuel + 4) σ.scopes.size (.init "ans" f.start)
      (p.frame σ d [(f.subject, subject), ("p1", v), ("p2", w)] c σ.arrays) =
        .ok () (p.frame σ d [(f.subject, subject), ("p1", v), ("p2", w), ("ans", answer 0 0)] c
          (arrays 0 0)) := by
    have hstart := h.start d c v w
    rcases hf with rfl | rfl <;>
      exact exec_init_frame (by simp [stringSlicing, arraySlicing]) rfl hstart
  have hi : exec ctx (fuel + 4) σ.scopes.size (.init "i" [.val .null])
      (p.frame σ d [(f.subject, subject), ("p1", v), ("p2", w), ("ans", answer 0 0)] c
        (arrays 0 0)) =
        .ok () (p.frame σ d [(f.subject, subject), ("p1", v), ("p2", w), ("ans", answer 0 0),
          ("i", .null)] c (arrays 0 0)) := by
    rcases hf with rfl | rfl <;>
      exact exec_init_frame (by simp) rfl (evaluate_scalar ctx (fuel + 2) _ .null _)
  have hlength : exec ctx (fuel + 4) σ.scopes.size
      (.init f.length [.name "len", .sym .lparen, .name f.subject, .sym .rparen])
      (p.frame σ d [(f.subject, subject), ("p1", v), ("p2", w), ("ans", answer 0 0), ("i", .null)] c
        (arrays 0 0)) =
        .ok () (p.frame σ d (f.vars n subject v w (answer 0 0) .null) c (arrays 0 0)) := by
    have hlen := h.length d c v w
    rcases hf with rfl | rfl <;> exact exec_init_frame (by simp) rfl hlen
  refine (runAll_cons_ok hans).trans ((runAll_cons_ok hi).trans ((runAll_cons_ok hlength).trans ?_))
  exact (runAll_cons_ok (exec_lower hl hf hv)).trans ((runAll_cons_ok (exec_upper hl hf hw)).trans
    (runAll_singleton (exec_begin hl hf)))

/-- The code of the loop. -/
theorem turn_ok {x y : Float} {lo hi : Nat} (hlo : lo ≤ hi) (hhi : hi < n) (hx : IsPosition x hi)
    (hlt : x < y) :
    turn ctx (fuel + 3) σ.scopes.size [.name "i", .sym .lt, .name "p2"] f.code
        (p.frame σ d (f.vars n subject v (.num y) (answer lo hi) (.num x)) c (arrays lo hi)) =
      .ok true (p.frame σ d (f.vars n subject v (.num y) (answer lo (hi + 1))
        (.num (x + Float.ofInt 1))) c (arrays lo (hi + 1))) := by
  have hbelow := @evaluate_below p σ d c (arrays lo hi) ctx (fuel + 1) n f subject v
    (answer lo hi) x y hl hf
  rw [decide_eq_true hlt] at hbelow
  exact turn_of_true hbelow ((runAll_cons_ok (h.step d c v _ lo hi x hlo hhi hx)).trans
    (runAll_singleton (exec_next hl hf)))

/-- The loop adds one part after the other, and ends behind the last one that the bounds allow. -/
theorem exec_parts (hlimit : ctx.loopLimit = none) {x y : Float} {m k : Nat}
    (hrounds : k < ctx.rounds)
    (hparts : ∀ j < k, IsPosition (advanced x j) (m + j) ∧ advanced x j < y ∧ m + j < n)
    (hend : ¬advanced x k < y) :
    exec ctx (fuel + 4) σ.scopes.size f.loop
        (p.frame σ d (f.vars n subject v (.num y) (answer 0 0) (.num x)) c (arrays 0 0)) =
      .ok () (p.frame σ d (f.vars n subject v (.num y) (answer m (m + k)) (.num (advanced x k)))
        (c + 1) (arrays m (m + k))) := by
  obtain ⟨rounds, hrounds⟩ : ∃ r, ctx.rounds = k + (r + 1) := ⟨ctx.rounds - k - 1, by omega⟩
  obtain ⟨hanswer, harrays⟩ := h.empty m m le_rfl
  have hloop := @exec_loop p σ d c ctx (fuel + 3) [.name "i", .sym .lt, .name "p2"] hlimit (by simp)
    f.code (fun j => f.vars n subject v (.num y) (answer m (m + j)) (.num (advanced x j)))
    (fun j => arrays m (m + j)) _ _ hrounds fun j hj => ?_
  · have hstop := @evaluate_below p σ d (c + 1) (arrays m (m + k)) ctx (fuel + 1) n f subject v
      (answer m (m + k)) (advanced x k) y hl hf
    rw [decide_eq_false hend] at hstop
    rw [← hanswer, ← harrays]
    refine hloop.trans ?_
    rw [Statement.iterate, bind_of_ok (turn_of_false hstop)]
    rfl
  · obtain ⟨hx, hlt, hn⟩ := hparts j hj
    exact h.turn_ok hl hf (Nat.le_add_right ..) hn hx hlt

/-- A loop that begins before the start breaks down, unless it has no round. -/
theorem exec_before (hlimit : ctx.loopLimit = none) {x y : Float} (hrounds : 0 < ctx.rounds)
    (hx : x < 0.0) (hlt : x < y) :
    exec ctx (fuel + 4) σ.scopes.size f.loop
        (p.frame σ d (f.vars n subject v (.num y) (answer 0 0) (.num x)) c (arrays 0 0)) =
      .error (.failure (.fault .unnamed))
        (p.frame σ d (f.vars n subject v (.num y) (answer 0 0) (.num x)) (c + 1) (arrays 0 0)) := by
  obtain ⟨rounds, hrounds⟩ : ∃ r, ctx.rounds = 0 + (r + 1) := ⟨ctx.rounds - 1, by omega⟩
  have hloop := @exec_loop p σ d c ctx (fuel + 3) [.name "i", .sym .lt, .name "p2"] hlimit
    (by simp) f.code (fun _ => f.vars n subject v (.num y) (answer 0 0) (.num x))
    (fun _ => arrays 0 0) _ _ hrounds fun j hj => absurd hj (Nat.not_lt_zero j)
  have hbelow := @evaluate_below p σ d (c + 1) (arrays 0 0) ctx (fuel + 1) n f subject v
    (answer 0 0) x y hl hf
  rw [decide_eq_true hlt] at hbelow
  have hturn : turn ctx (fuel + 3) σ.scopes.size [.name "i", .sym .lt, .name "p2"] f.code _ = _ :=
    turn_of_failure hbelow (runAll_cons_error (h.fails d (c + 1) v _ x hx))
  refine hloop.trans ?_
  rw [Statement.iterate, bind_of_error hturn]

/-- The rounds of the loop are those of the positions between the bounds. -/
theorem exec_between (hlimit : ctx.loopLimit = none) (hn : n ≤ 2 ^ 53) (hrounds : n < ctx.rounds)
    {x y : Float} {a b : Int} (hx : Marks x a) (hy : Marks y b) (hb : b ≤ n)
    (hfine : ¬(x < 0.0 ∧ x < y)) :
    ∃ z, exec ctx (fuel + 4) σ.scopes.size f.loop
        (p.frame σ d (f.vars n subject v (.num y) (answer 0 0) (.num x)) c (arrays 0 0)) =
      .ok () (p.frame σ d (f.vars n subject v (.num y) (answer (within n a) (within n b)) (.num z))
        (c + 1) (arrays (within n a) (within n b))) := by
  rcases lt_or_ge a 0 with ha | ha
  · -- the first bound is before the start, and so is the second, or the loop would break down
    have hlt : ¬x < y := fun hlt => hfine ⟨hx.neg_iff.2 ha, hlt⟩
    have hb' : b ≤ 0 := by
      by_contra hpos
      exact hlt ((hx.lt_iff hy (.inr (by omega))).2 (by omega))
    obtain ⟨hanswer, harrays⟩ := h.empty (within n a) (within n b) (by unfold within; omega)
    rw [hanswer, harrays]
    exact ⟨x, h.exec_parts hl hf hlimit (m := 0) (k := 0) (by omega) (by omega) hlt⟩
  · obtain ⟨m, rfl⟩ := Int.eq_ofNat_of_zero_le ha
    have hm : IsPosition x m := by
      cases hx with
      | whole hx => exact hx
      | before hneg _ => omega
    obtain ⟨k, hk⟩ : ∃ k, k = (b - m).toNat := ⟨_, rfl⟩
    have hposition (j : Nat) (hj : m + j ≤ n) : IsPosition (advanced x j) (m + j) ∧
        (advanced x j < y ↔ m + j < b) := by
      have hj := @isPosition_advanced x m hm j (by omega)
      exact ⟨hj, Marks.lt_iff (.whole hj) hy (.inl (by omega))⟩
    have hrun (hk' : k < ctx.rounds) (hstop : ¬advanced x k < y) :=
      @exec_parts p σ d c ctx fuel n f subject v answer arrays h hl hf hlimit x y m k hk'
        (fun j hj =>
          ⟨(hposition j (by omega)).1, (hposition j (by omega)).2.2 (by omega), by omega⟩) hstop
    rcases le_or_gt b m with hle | hgt
    · -- the loop has no round, and what is between the bounds is empty however far they are apart
      obtain ⟨hanswer, harrays⟩ := h.empty (within n m) (within n b) (by unfold within; omega)
      obtain ⟨hanswer', harrays'⟩ := h.empty m (m + k) (by omega)
      obtain rfl : k = 0 := by omega
      have hnone : ¬advanced x 0 < y := fun hlt =>
        absurd ((Marks.lt_iff (.whole hm) hy (.inl ha)).1 hlt) (by omega)
      have hempty := hrun (by omega) hnone
      rw [hanswer', harrays'] at hempty
      rw [hanswer, harrays]
      exact ⟨_, hempty⟩
    · have hlast := hposition k (by omega)
      have hfirst : within n m = m := by unfold within; omega
      have hbehind : within n b = m + k := by unfold within; omega
      rw [hfirst, hbehind]
      exact ⟨_, hrun (by omega) fun hlt => absurd (hlast.2.1 hlt) (by omega)⟩

/-- What a call comes to: the parts between the two bounds, unless the first one is before the
start. -/
theorem call_eq {r : Nat} (hr : (σ.object (f.object p)).get? "slice" = some (.fn r))
    (hlimit : ctx.loopLimit = none) (hn : n ≤ 2 ^ 53) (hrounds : n < ctx.rounds)
    {k₁ k₂ : Option Int} (hv : Bound v k₁) (hw : Bound w k₂) (caller : Nat) :
    ∃ d vars c, call ctx (fuel + 5) caller r [subject, v, w] σ =
      if lower n v < 0.0 ∧ lower n v < upper n w then
        .error (.failure (.fault .unnamed)) (p.frame σ d vars c (arrays 0 0))
      else .ok (answer (within n (fromEnd n 0 k₁)) (within n (fromEnd n n k₂)))
        (p.frame σ d vars c (arrays (within n (fromEnd n 0 k₁)) (within n (fromEnd n n k₂)))) := by
  have hmember : f.routine ∈ routines := by rcases hf with rfl | rfl <;> simp [routines]
  obtain ⟨d, hcall⟩ := @call_eq_body p σ ctx (fuel + 4) hl f.routine hmember r hr
    [subject, v, w] rfl caller
  have hfirst :
      p.frame σ d (Table.putAll (f.routine.params.zip [subject, v, w]) []) σ.clock σ.arrays =
        p.frame σ d [(f.subject, subject), ("p1", v), ("p2", w)] σ.clock σ.arrays := by
    rcases hf with rfl | rfl <;> rfl
  have hstart := @prologue p σ d σ.clock ctx fuel n f subject v w answer arrays h hl hf k₁ k₂ hv hw
  have hbody (out : EStateM.Result Stop Store Unit)
      (hrest : runAll (exec ctx (fuel + 4) σ.scopes.size) [f.loop, .ret [.name "ans"]]
        (p.frame σ d (f.vars n subject (.num (lower n v)) (.num (upper n w)) (answer 0 0)
          (.num (lower n v))) σ.clock (arrays 0 0)) = out) :
      runAll (exec ctx (fuel + 4) σ.scopes.size) f.routine.body
        (p.frame σ d [(f.subject, subject), ("p1", v), ("p2", w)] σ.clock σ.arrays) = out :=
    (runAll_append_ok hstart).trans hrest
  rw [hcall, hfirst]
  by_cases hbad : lower n v < 0.0 ∧ lower n v < upper n w
  · have hfail := hbody _ (runAll_cons_error (h.exec_before hl hf hlimit (by omega) hbad.1 hbad.2))
    exact ⟨d, _, _, by rw [if_pos hbad, Statement.returned, hfail]⟩
  · have hupper := hw.marks_upper hn
    obtain ⟨z, hloop⟩ := h.exec_between hl hf hlimit hn hrounds (hv.marks_lower hn) hupper
      (min_le_left ..) hbad
    have hwithin : within n (min n (fromEnd n n k₂)) = within n (fromEnd n n k₂) := by
      unfold within
      omega
    rw [hwithin] at hloop
    have hreturn := hbody _ ((runAll_cons_ok hloop).trans
      (runAll_cons_error (exec_ret_ok (Statement.load_of_none (by simp) _) (h.result ..))))
    exact ⟨d, _, _, by rw [if_neg hbad, Statement.returned, hreturn]⟩

end Cuts

/-! ## Elements and characters -/

section

variable {F : Store} {b : Value} {what : String} {items : List Value}
    (hitems : F.items? b = some (what, items))

include hitems

theorem length_ok (hn : items.length ≤ 2 ^ 53) :
    Native.length b F = .ok (.num (Float.ofInt items.length)) F := by
  have hcount : Native.count items.length = .ok (Float.ofInt items.length) :=
    if_pos (isFinite_ofNat hn)
  rw [Native.length, get_bind]
  cases b with
  | str s | arr r =>
    cases hitems
    simp only [List.length_map, String.length_toList, Array.length_toList] at hcount ⊢
    rw [hcount]
    rfl
  | _ => cases hitems

theorem refine_position {m : Nat} (hx : IsPosition x m) {v : Value} (hv : items[m]? = some v) :
    refine b (.num x) F = .ok v F := by
  obtain ⟨e, hrefine⟩ := refine_items hitems (.num x)
  have hm : m < items.length := (List.getElem?_eq_some_iff.1 hv).1
  rw [hrefine, position_of_isPosition hx, if_pos hm, pure_bind, List.getD_eq_getElem?_getD, hv]
  rfl

/-- There is nothing before the start. -/
theorem refine_before (hx : x < 0.0) :
    refine b (.num x) F = .error (.failure (.fault .unnamed)) F := by
  obtain ⟨e, hrefine⟩ := refine_items hitems (.num x)
  rw [hrefine, position, if_pos (by rw [decide_eq_true hx]; rfl)]
  rfl

/-- The length of a variable. -/
theorem evaluate_length (hl : Loaded p σ) {vars : Table Value} (hF : F = p.frame σ d vars c a)
    {name : String}
    (hknown : List.all [.name "len", .sym .lparen, .name name, .sym .rparen] (p.knows vars) = true)
    (hnamed : List.map (Token.named (p.value vars))
        [.name "len", .sym .lparen, .name name, .sym .rparen] =
      [.val (.native .len), .sym .lparen, .val b, .sym .rparen])
    (hb : isBracket (.val b) = false) (hendless : F.isEndless b = false)
    (hlength : items.length = n) (hn : n ≤ 2 ^ 53) :
    evaluate ctx (fuel + 3) σ.scopes.size [.name "len", .sym .lparen, .name name, .sym .rparen] F =
      .ok (.num (Float.ofInt n)) F := by
  subst hlength
  have hvalue : b.isProper = true ∧ adoptAll σ.scopes.size [.val b] F = F := by
    cases b <;> first | exact ⟨rfl, rfl⟩ | cases hitems
  have hargument : elements (evaluate ctx (fuel + 2) σ.scopes.size) [[.val b]] F = .ok [b] F := by
    have heval := @evaluate_value F b ctx (fuel + 1) σ.scopes.size hvalue.1 hendless
    rw [hvalue.2] at heval
    exact elements_single (List.cons_ne_nil _ _) heval
  have hlen : Native.call .len [b] F = .ok (.num (Float.ofInt items.length)) F :=
    native_ok rfl (length_ok hitems hn) rfl
  have hparts : ∀ part ∈ [[Token.val b]], Clear (·.is .comma) part ∧ part ≠ [] := by
    simpa using Clear.cons hb rfl .nil
  have hnative : F.isEndless (.native .len) = false := rfl
  have hany : F.anyEndless [.val (.native .len), .sym .lparen, .val b, .sym .rparen] = false := by
    simp [Store.anyEndless, hendless, hnative]
  rw [evaluate_native hl hF hknown hnamed rfl hparts rfl hany, bind_of_ok hargument,
    bind_of_ok hlen]
  rfl

end

/-! ## Strings -/

/-- The characters from one position up to another. -/
def cut (s : String) (lo hi : Nat) : String :=
  String.ofList ((s.toList.take hi).drop lo)

theorem cut_of_le {lo hi : Nat} (h : hi ≤ lo) : cut s lo hi = "" := by
  rw [cut, List.drop_eq_nil_of_le ((List.length_take_le ..).trans h), String.ofList_nil]

theorem cut_succ {lo hi : Nat} (hlo : lo ≤ hi) (hhi : hi < s.length) :
    cut s lo (hi + 1) = cut s lo hi ++ String.singleton (s.toList.getD hi ' ') := by
  have hhi' : hi < s.toList.length := String.length_toList ▸ hhi
  have hget : s.toList.getD hi ' ' = s.toList[hi] := by
    rw [List.getD_eq_getElem?_getD, List.getElem?_eq_getElem hhi']
    rfl
  have hle : lo ≤ (s.toList.take hi).length := by
    rw [List.length_take]
    omega
  rw [cut, cut, List.take_succ_eq_append_getElem hhi', List.drop_append_of_le_length hle,
    String.ofList_append, hget]
  rfl

theorem cuts_string (hl : Loaded p σ) (hs : Plain s) (hn : s.length ≤ 2 ^ 53) :
    Cuts ctx fuel p σ stringSlicing (.str s) s.length (fun lo hi => .str (cut s lo hi))
      fun _ _ => σ.arrays where
  empty lo hi h := by simp [cut_of_le h, @cut_of_le s 0 0 le_rfl]
  start d c v w := by
    rw [cut_of_le le_rfl]
    exact evaluate_scalar ctx (fuel + 2) _ (.str "") _
  length d c v w := evaluate_length rfl hl rfl rfl rfl hs.not_bracket rfl
    (by rw [List.length_map, String.length_toList]) hn
  step d c v w lo hi x hlo hhi hx := by
    obtain ⟨F, hF⟩ : ∃ F, F = p.frame σ d
        (stringSlicing.vars s.length (.str s) v w (.str (cut s lo hi)) (.num x)) c σ.arrays :=
      ⟨_, rfl⟩
    have hhi' : hi < s.toList.length := String.length_toList ▸ hhi
    have hrefine :
        refine (.str s) (.num x) F = .ok (.str (String.singleton (s.toList.getD hi ' '))) F :=
      refine_position rfl hx (by simp [hhi'])
    have hadd : evaluate ctx (fuel + 3) σ.scopes.size
        [.name "ans", .sym .plus, .name "s", .sym .lbracket, .name "i", .sym .rbracket] F =
          .ok (.str (cut s lo (hi + 1))) F := by
      refine (evaluate_addition hl hF rfl rfl rfl rfl rfl).trans ((bind_of_ok hrefine _).trans ?_)
      rw [cut_succ hlo hhi]
      exact valueOf_operation (evaluate_scalar ctx (fuel + 1) _) .plus (.str _) (.str _) rfl
    rw [hF] at hadd
    exact exec_assign_frame (by simp) rfl hadd
  fails d c v w x hx := by
    refine exec_assign_error (by simp) ?_ _
    rw [evaluate_addition hl rfl rfl rfl rfl rfl rfl, bind_of_error (refine_before rfl hx)]
  result d c v w x lo hi := evaluate_variable hl rfl rfl rfl rfl rfl

/-! ## Arrays -/

/-- An array literal without elements. -/
theorem evaluate_empty_array (scope : Nat) (τ : Store) :
    evaluate ctx (fuel + 1) scope [.sym .lbracket, .sym .rbracket] τ =
      .ok (.arr τ.arrays.size) (τ.newArray #[]).2 := by
  have hresolve : resolve scope [.sym .lbracket, .sym .rbracket] τ =
      .ok [.sym .lbracket, .sym .rbracket] τ := rfl
  have hliterals : literals (evaluate ctx fuel scope) [.sym .lbracket, .sym .rbracket] τ =
      .ok [.val (.arr τ.arrays.size)] (τ.newArray #[]).2 := rfl
  have hended : (τ.newArray #[]).2.anyEndless [.val (.arr τ.arrays.size)] = false := by
    simp [Store.anyEndless, Store.isEndless, Store.endlessWithin, Store.newArray, Store.array]
  have happly : applications (evaluate ctx fuel scope) (call ctx fuel scope)
      [.val (.arr τ.arrays.size)] (τ.newArray #[]).2 =
      .ok [.val (.arr τ.arrays.size)] (τ.newArray #[]).2 := by
    rw [applications_of_not_endless hended]
    rfl
  rw [evaluate, bind_of_ok hresolve, reduce_eq, bind_of_ok hliterals, bind_of_ok happly,
    valueOf_val]
  rfl

/-- The arrays with a new one behind them, of some elements of one of them. -/
def withSlice (σ : Store) (q lo hi : Nat) : Array (Array Value) :=
  σ.arrays.push ((σ.array q).extract lo hi)

theorem push_ok {F τ : Store} {r : Nat} {u : Value} (hτ : F.modifyArray r (·.push u) = τ)
    (hsize : (τ.array r).size ≤ 2 ^ 53) :
    Native.push (.arr r) u F = .ok (.num (Float.ofNat (τ.array r).size)) τ := by
  subst hτ
  have hcount : Native.count ((F.modifyArray r (·.push u)).array r).size = .ok _ :=
    if_pos (isFinite_ofNat hsize)
  have hpush : Native.push (.arr r) u F =
      (ofFault (Native.count ((F.modifyArray r (·.push u)).array r).size) >>=
        fun x => pure (.num x)) (F.modifyArray r (·.push u)) := rfl
  rw [hpush, hcount]
  rfl

/-- One more element. -/
theorem append_withSlice {vars : Table Value} {q lo hi : Nat} {F : Store}
    (hF : F = p.frame σ d vars c (withSlice σ q lo hi)) (hlo : lo ≤ hi)
    (hhi : hi < (σ.array q).size) (hn : (σ.array q).size ≤ 2 ^ 53) :
    ∃ x, Native.call .append [.arr σ.arrays.size, (σ.array q)[hi]] F =
      .ok (.num x) (p.frame σ d vars c (withSlice σ q lo (hi + 1))) := by
  have hpush : (withSlice σ q lo hi).modify σ.arrays.size (·.push (σ.array q)[hi]) =
      withSlice σ q lo (hi + 1) := by
    rw [withSlice, modify_push, withSlice, Array.extract_succ_right (by omega) hhi]
  have hframe : F.modifyArray σ.arrays.size (·.push (σ.array q)[hi]) =
      p.frame σ d vars c (withSlice σ q lo (hi + 1)) := by
    rw [← hpush, hF]
    rfl
  have hsize :
      ((p.frame σ d vars c (withSlice σ q lo (hi + 1))).array σ.arrays.size).size ≤ 2 ^ 53 := by
    simp [array_frame, withSlice]
    omega
  have happend : Native.perform .append [.arr σ.arrays.size, (σ.array q)[hi]] F = .ok (.num _) _ :=
    push_ok hframe hsize
  exact ⟨_, native_ok rfl happend rfl⟩

section

variable {q : Nat} (hq : σ.Walkable q)

include hq

/-- In a call that has cut some of the elements, both arrays can be walked through. -/
theorem ended_withSlice (vars : Table Value) (lo hi : Nat) :
    (p.frame σ d vars c (withSlice σ q lo hi)).isEndless (.arr q) = false ∧
      (p.frame σ d vars c (withSlice σ q lo hi)).isEndless (.arr σ.arrays.size) = false := by
  refine hq.ended_push (fun v hv => ?_) rfl
  obtain ⟨k, _, rfl⟩ := Array.mem_extract_iff_getElem.1 hv
  exact Array.getElem_mem _

/-- The elements are where they were. -/
theorem items_withSlice (vars : Table Value) (lo hi : Nat) :
    (p.frame σ d vars c (withSlice σ q lo hi)).items? (.arr q) =
      some ("array", (σ.array q).toList) := by
  have hsame : (withSlice σ q lo hi).getD q #[] = σ.array q := by
    simp [withSlice, Store.array, Array.getElem?_push, hq.made.ne]
  rw [Store.items?, array_frame, hsame]

variable {F : Store} {lo hi : Nat}
  (hF : F = p.frame σ d (arraySlicing.vars n (.arr q) v w (.arr σ.arrays.size) (.num x)) c
    (withSlice σ q lo hi))

include hF

theorem evaluate_answer :
    evaluate ctx (fuel + 2) σ.scopes.size [.val (.arr σ.arrays.size)] F =
      .ok (.arr σ.arrays.size) F :=
  evaluate_value ctx (fuel + 1) σ.scopes.size rfl (hF ▸ (ended_withSlice hq _ lo hi).2)

variable (hl : Loaded p σ)

include hl

/-- The call that adds an element evaluates the answer and the element before it adds this. -/
theorem evaluate_append :
    evaluate ctx (fuel + 3) σ.scopes.size [.name "append", .sym .lparen, .name "ans", .sym .comma,
      .name "a", .sym .lbracket, .name "i", .sym .rbracket, .sym .rparen] F =
    (elements (evaluate ctx (fuel + 2) σ.scopes.size)
        [[.val (.arr σ.arrays.size)],
          [.val (.arr q), .sym .lbracket, .val (.num x), .sym .rbracket]] >>=
      fun vs => Native.call .append vs >>= checked) F := by
  obtain ⟨hold, hnew⟩ : F.isEndless (.arr q) = false ∧ F.isEndless (.arr σ.arrays.size) = false :=
    hF ▸ ended_withSlice hq _ lo hi
  have hscalar : F.isEndless (.native .append) = false ∧ F.isEndless (.num x) = false := ⟨rfl, rfl⟩
  have hparts : ∀ part ∈ [[Token.val (.arr σ.arrays.size)],
      [.val (.arr q), .sym .lbracket, .val (.num x), .sym .rbracket]],
      Clear (·.is .comma) part ∧ part ≠ [] := by
    simpa using ⟨clear_of_clears rfl, clear_of_clears rfl⟩
  have hany : F.anyEndless [.val (.native .append), .sym .lparen, .val (.arr σ.arrays.size),
      .sym .comma, .val (.arr q), .sym .lbracket, .val (.num x), .sym .rbracket,
      .sym .rparen] = false := by
    simp [Store.anyEndless, hold, hnew, hscalar]
  exact evaluate_native hl hF rfl rfl rfl hparts rfl hany

theorem evaluate_element : evaluate ctx (fuel + 2) σ.scopes.size
      [.val (.arr q), .sym .lbracket, .val (.num x), .sym .rbracket] F =
        (refine (.arr q) (.num x) >>= checked) F :=
  evaluate_position hl hF rfl rfl rfl (hF ▸ (ended_withSlice hq _ lo hi).1)

end

theorem cuts_array {q : Nat} (hl : Loaded p σ) (hq : σ.Walkable q)
    (hn : (σ.array q).size ≤ 2 ^ 53) :
    Cuts ctx (fuel + 1) p σ arraySlicing (.arr q) (σ.array q).size
      (fun _ _ => .arr σ.arrays.size) (withSlice σ q) where
  empty lo hi h := by simp [withSlice, Array.extract_eq_empty_of_le, h]
  start d c v w := by
    have hempty : withSlice σ q 0 0 = σ.arrays.push #[] := by simp [withSlice]
    rw [hempty]
    exact evaluate_empty_array _ _
  length d c v w :=
    evaluate_length (items_withSlice hq _ 0 0) hl rfl rfl rfl rfl (ended_withSlice hq _ 0 0).1
      (Array.length_toList ..) hn
  step d c v w lo hi x hlo hhi hx := by
    obtain ⟨F, hF⟩ : ∃ F, F = p.frame σ d (arraySlicing.vars (σ.array q).size (.arr q) v w
        (.arr σ.arrays.size) (.num x)) c (withSlice σ q lo hi) := ⟨_, rfl⟩
    have hitems : F.items? (.arr q) = some ("array", (σ.array q).toList) :=
      hF ▸ items_withSlice hq _ lo hi
    have helement : evaluate ctx (fuel + 2) σ.scopes.size
        [.val (.arr q), .sym .lbracket, .val (.num x), .sym .rbracket] F =
          .ok (σ.array q)[hi] F := by
      have hget : (σ.array q).toList[hi]? = some (σ.array q)[hi] := by simp [hhi]
      rw [evaluate_element hq hF hl, bind_of_ok (refine_position hitems hx hget)]
      exact congrFun (if_pos (hq.proper _ (Array.getElem_mem _))) F
    have hargs := elements_cons (List.cons_ne_nil _ _) (evaluate_answer hq hF)
      (elements_single (List.cons_ne_nil _ _) helement)
    obtain ⟨m, happend⟩ := append_withSlice hF hlo hhi hn
    rw [← hF]
    refine exec_exp_ok (by simp)
      ((evaluate_append hq hF hl).trans ((bind_of_ok hargs _).trans (bind_of_ok happend _))) ?_
    rw [scope_frame, if_pos rfl]
    rfl
  fails d c v w x hx := by
    obtain ⟨F, hF⟩ : ∃ F, F = p.frame σ d (arraySlicing.vars (σ.array q).size (.arr q) v w
        (.arr σ.arrays.size) (.num x)) c (withSlice σ q 0 0) := ⟨_, rfl⟩
    have hitems : F.items? (.arr q) = some ("array", (σ.array q).toList) :=
      hF ▸ items_withSlice hq _ 0 0
    have helement : evaluate ctx (fuel + 2) σ.scopes.size
        [.val (.arr q), .sym .lbracket, .val (.num x), .sym .rbracket] F =
          .error (.failure (.fault .unnamed)) F := by
      rw [evaluate_element hq hF hl, bind_of_error (refine_before hitems hx)]
    rw [← hF]
    refine exec_exp_error (by simp) ((evaluate_append hq hF hl).trans (bind_of_error ?_ _))
    exact elements_cons_error (List.cons_ne_nil _ _) (evaluate_answer hq hF)
      (elements_error (List.cons_ne_nil _ _) helement)
  result d c v w x lo hi := evaluate_variable hl rfl rfl rfl rfl (ended_withSlice hq _ lo hi).2

/-! ## What a slice is -/

/-- The bounds ask for a part before the start. -/
def Misses (n : Nat) (v w : Value) : Prop :=
  lower n v < 0.0 ∧ lower n v < upper n w

/-- That is so if the first bound is before the start and before the second. Numbers are compared,
which are exact unless both bounds are before the start and one of them is far from it. -/
theorem misses_iff {k₁ k₂ : Option Int} (hv : Bound v k₁) (hw : Bound w k₂)
    (hn : n ≤ 2 ^ 53) {lo hi : Int} (hlo : fromEnd n 0 k₁ = lo) (hhi : fromEnd n n k₂ = hi)
    (hnear : 0 ≤ lo ∨ 0 ≤ hi ∨ -2 ^ 53 ≤ lo ∧ -2 ^ 53 ≤ hi) : Misses n v w ↔ lo < 0 ∧ lo < hi := by
  subst hlo hhi
  have hlower := hv.marks_lower hn
  rw [Misses, hlower.neg_iff, hlower.lt_iff (hw.marks_upper hn) (by omega)]
  omega

/-- **A slice** of a string or of an array has the parts from its first bound up to its second,
where null stands for the start and for the end, negative bounds are counted from the end and both
are taken into the length. Only if the bounds ask for a part before the start, the call breaks down
instead. -/
theorem slice_cuts (hl : Loaded p σ) (hlimit : ctx.loopLimit = none) {k₁ k₂ : Option Int}
    (hv : Bound v k₁) (hw : Bound w k₂) (caller : Nat) :
    (∀ s r n, (σ.object p.string).get? "slice" = some (.fn r) → Plain s → s.length = n →
      n ≤ 2 ^ 53 → n < ctx.rounds →
      (Misses n v w → ∃ τ, call ctx (fuel + 6) caller r [.str s, v, w] σ =
        .error (.failure (.fault .unnamed)) τ) ∧
      (¬Misses n v w → ∃ τ, call ctx (fuel + 6) caller r [.str s, v, w] σ =
        .ok (.str (cut s (within n (fromEnd n 0 k₁)) (within n (fromEnd n n k₂)))) τ)) ∧
    (∀ q r n, (σ.object p.array).get? "slice" = some (.fn r) → σ.Walkable q →
      (σ.array q).size = n → n ≤ 2 ^ 53 → n < ctx.rounds →
      (Misses n v w → ∃ τ, call ctx (fuel + 6) caller r [.arr q, v, w] σ =
        .error (.failure (.fault .unnamed)) τ) ∧
      (¬Misses n v w → ∃ τ, call ctx (fuel + 6) caller r [.arr q, v, w] σ =
        .ok (.arr σ.arrays.size) τ ∧
        τ.arrays = σ.arrays.push ((σ.array q).extract (within n (fromEnd n 0 k₁))
          (within n (fromEnd n n k₂))))) ∧
    ∀ n : Nat, n ≤ 2 ^ 53 → ∀ lo hi, fromEnd n 0 k₁ = lo → fromEnd n n k₂ = hi →
      0 ≤ lo ∨ 0 ≤ hi ∨ -2 ^ 53 ≤ lo ∧ -2 ^ 53 ≤ hi → (Misses n v w ↔ lo < 0 ∧ lo < hi) := by
  refine ⟨?_, ?_, fun n hn lo hi hlo hhi hnear => misses_iff hv hw hn hlo hhi hnear⟩
  · rintro s r _ hr hs rfl hn hrounds
    obtain ⟨d, vars, c, hcall⟩ :=
      (cuts_string hl hs hn).call_eq hl (.inl rfl) hr hlimit hn hrounds hv hw caller
    exact ⟨fun hmiss => ⟨_, hcall.trans (if_pos hmiss)⟩,
      fun hmiss => ⟨_, hcall.trans (if_neg hmiss)⟩⟩
  · rintro q r _ hr hq rfl hn hrounds
    obtain ⟨d, vars, c, hcall⟩ :=
      (cuts_array hl hq hn).call_eq hl (.inr rfl) hr hlimit hn hrounds hv hw caller
    exact ⟨fun hmiss => ⟨_, hcall.trans (if_pos hmiss)⟩,
      fun hmiss => ⟨_, hcall.trans (if_neg hmiss), rfl⟩⟩

/-- In a library that was just run, with an array of six elements: a slice from the fifth part
before the end. A string of three characters has no such part. -/
theorem slice_cuts_before : ∃ σ r r' τ τ', Loaded ⟨0, 1, 1, 2, 3⟩ σ ∧
    σ.arrays = #[.replicate 6 .null] ∧
    call ⟨none, false, 7⟩ 6 0 r [.str "abc", .num (Float.ofInt (-5)), .null] σ =
      .error (.failure (.fault .unnamed)) τ ∧
    call ⟨none, false, 7⟩ 6 0 r' [.arr 0, .num (Float.ofInt (-5)), .null] σ = .ok (.arr 1) τ' ∧
    τ'.arrays = #[.replicate 6 .null, .replicate 5 .null] := by
  obtain ⟨_, σ, _, _, hl⟩ := exists_loaded
  obtain ⟨r, hr⟩ := exists_property hl (show stringSlicing.routine ∈ routines by simp [routines])
  obtain ⟨r', hr'⟩ := exists_property hl (show arraySlicing.routine ∈ routines by simp [routines])
  let τ : Store := { σ with arrays := #[.replicate 6 .null] }
  have hτ : Loaded ⟨0, 1, 1, 2, 3⟩ τ := ⟨hl.1, hl.2, hl.3, hl.4, hl.5, hl.6, hl.7⟩
  have hnull (r : Nat) (v : Value) (hv : v ∈ τ.array r) : v = .null := by
    cases r with
    | zero => exact (Array.mem_replicate.1 hv).2
    | succ r => simp [τ, Store.array] at hv
  have hended : τ.isEndless (.arr 0) = false := by
    rw [Store.isEndless, Store.endlessWithin, Array.any_eq_false']
    intro v hv
    rw [hnull 0 v hv]
    exact Bool.false_ne_true
  have hwalk : τ.Walkable 0 :=
    ⟨Nat.zero_lt_one, fun r q hq => absurd (hnull r _ hq) (by simp), hended,
      fun v hv => hnull 0 v hv ▸ rfl⟩
  obtain ⟨hstring, harray, hmisses⟩ := @slice_cuts _ τ ⟨none, false, 7⟩ 0 _ _ hτ rfl _ _
    (.whole (isInt_ofInt (show Small (-5) by decide))) .null 0
  obtain ⟨ρ, hρ⟩ := (hstring "abc" r 3 hr (by simp [Plain]) (by decide) (by decide) (by decide)).1
    ((hmisses 3 (by decide) _ _ rfl rfl (by decide)).2 (by decide))
  obtain ⟨ρ', hρ', harrays⟩ := (harray 0 r' 6 hr' hwalk rfl (by decide) (by decide)).2
    (mt (hmisses 6 (by decide) _ _ rfl rfl (by decide)).1 (by decide))
  exact ⟨τ, r, r', ρ, ρ', hτ, rfl, hρ, hρ', harrays⟩

end LittleJ.StandardLibrary
