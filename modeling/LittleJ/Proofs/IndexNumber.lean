import LittleJ.Eval.Expression
import LittleJ.Proofs.FiniteNumber

/-!
# Numbers that are positions

A number is the position of an element if it is whole and not negative. Reading an element asks for
just that, in three steps that look at a double from different sides: whether it is below zero,
whether it equals its rounding, and what whole number it is. The two infinities equal their rounding
too, so the positive one passes the first two steps and fails in the third.

Setting an element asks for less. It takes the whole number of a double, whatever the fraction, and
counts from the end if that number is negative. **Where a number is a position, both take it for the
same one.**
-/

open Float.Model Float.Model.UnpackedFloat

namespace LittleJ.Number

theorem toNat_unpackMantissa (b : BitVec 64) :
    (@unpackMantissa .binary64 b).toNat = b.toNat % 2 ^ 52 := by
  delta unpackMantissa
  simp [BitVec.extractLsb]

/-- The sign of an unpacked double. -/
def signOf (negative : Bool) : Sign :=
  if negative then .negative else .positive

theorem ofBitVec_unpackSign_bits (x : Float) :
    Sign.ofBitVec (@unpackSign .binary64 x.toBits.toBitVec) =
      signOf (x.toBits.toNat / 2 ^ 63 == 1) := by
  have hbits : x.toBits.toNat < 2 ^ 64 := x.toBits.toNat_lt
  rw [ofBitVec_unpackSign, UInt64.toNat_toBitVec, signOf]
  by_cases h : x.toBits.toNat < 2 ^ 63
  · rw [if_pos h, if_neg (by rw [beq_iff_eq]; omega)]
  · rw [if_neg h, if_pos (by rw [beq_iff_eq]; omega)]

/-- What is below zero: negative infinity, and the finite numbers with a sign that are not zero. -/
theorem lt_zero_iff (x : Float) : x < 0.0 ↔ match parts x with
    | .nan => False
    | .infinite negative => negative = true
    | .finite negative m _ => negative = true ∧ 0 < m := by
  have hlt : x < 0.0 ↔ x.toModel.unpack.lt (.zero .positive) = true := decide_eq_true_iff
  have hmantissa : @unpackMantissa .binary64 x.toBits.toBitVec = 0#52 ↔
      x.toBits.toNat % 2 ^ 52 = 0 := by
    rw [← BitVec.toNat_inj, toNat_unpackMantissa, UInt64.toNat_toBitVec, BitVec.toNat_zero]
  have hexponent : @unpackExponent .binary64 x.toBits.toBitVec = 0#11 ↔
      x.toBits.toNat / 2 ^ 52 % 2048 = 0 := by
    rw [← BitVec.toNat_inj, toNat_unpackExponent, UInt64.toNat_toBitVec, BitVec.toNat_zero]
  have hinfinite : @unpackExponent .binary64 x.toBits.toBitVec = -1#11 ↔
      x.toBits.toNat / 2 ^ 52 % 2048 = 2047 :=
    unpackExponent_eq _
  have hfinite (s : Bool) (m : Nat) (e : Int) (h : 0 < m) :
      (UnpackedFloat.finite (signOf s) m e h).lt (.zero .positive) = s := by cases s <;> rfl
  have hinf (s : Bool) : (UnpackedFloat.infinity (signOf s)).lt (.zero .positive) = s := by
    cases s <;> rfl
  rw [hlt]
  show (UnpackedFloat.unpack .binary64 x.toBits.toBitVec).lt (.zero .positive) = true ↔ _
  delta UnpackedFloat.unpack
  dsimp only
  rw [ofBitVec_unpackSign_bits]
  generalize hn : (x.toBits.toNat / 2 ^ 63 == 1) = negative
  simp only [parts, Nat.pow_eq, hn, beq_iff_eq]
  by_cases htop : x.toBits.toNat / 2 ^ 52 % 2048 = 2047
  · rw [if_pos (hinfinite.2 htop), if_pos htop]
    by_cases hzero : x.toBits.toNat % 2 ^ 52 = 0
    · rw [if_pos (hmantissa.2 hzero), if_pos hzero, hinf]
    · rw [if_neg (mt hmantissa.1 hzero), if_neg hzero]
      exact ⟨fun h => Bool.noConfusion h, False.elim⟩
  · rw [if_neg (mt hinfinite.1 htop), if_neg htop]
    by_cases hlow : x.toBits.toNat / 2 ^ 52 % 2048 = 0
    · rw [if_pos (hexponent.2 hlow), if_pos hlow]
      by_cases hzero : x.toBits.toNat % 2 ^ 52 = 0
      · rw [dif_pos (hmantissa.2 hzero), hzero]
        exact ⟨fun h => Bool.noConfusion h, fun h => absurd h.2 (Nat.lt_irrefl 0)⟩
      · rw [dif_neg (mt hmantissa.1 hzero), hfinite]
        exact (and_iff_left (Nat.pos_of_ne_zero hzero)).symm
    · rw [if_neg (mt hexponent.1 hlow), if_neg hlow, hfinite]
      exact (and_iff_left (Nat.add_pos_right _ (Nat.two_pow_pos 52))).symm

/-- A whole number is below zero if its double is. -/
theorem IsInt.nonneg_iff {x : Float} {n : Int} (h : IsInt x n) : 0 ≤ n ↔ ¬x < 0.0 := by
  obtain ⟨m, q, hparts, hscaled, hn⟩ := h.parts_eq
  rw [lt_zero_iff, hparts]
  dsimp only
  have hzero : m = 0 ↔ n.natAbs = 0 := by
    unfold Scaled at hscaled
    constructor
    · rintro rfl
      exact (Nat.mul_eq_zero.1 (hscaled.trans (Nat.zero_mul _))).resolve_right
        (Nat.two_pow_pos _).ne'
    · intro h
      rw [h, Nat.zero_mul] at hscaled
      exact (Nat.mul_eq_zero.1 hscaled.symm).resolve_right (Nat.two_pow_pos _).ne'
  cases hneg : isNegative x with
  | false =>
    rw [hneg, if_neg Bool.false_ne_true] at hn
    simp only [Bool.false_eq_true, false_and, not_false_iff, iff_true]
    omega
  | true =>
    rw [hneg, if_pos rfl] at hn
    simp only [true_and]
    omega

/-- The number is the position `n` in a list, however long. -/
def IsPosition (x : Float) (n : Nat) : Prop :=
  IsInt x n

theorem IsPosition.not_lt {x : Float} {n : Nat} (h : IsPosition x n) : ¬x < 0.0 :=
  (IsInt.nonneg_iff h).1 (Int.natCast_nonneg n)

/-- The double is the positive infinity. -/
def IsInfinity (x : Float) : Prop :=
  parts x = .infinite false

/-- What is not below zero and equals its rounding is a position or the positive infinity. -/
theorem position_cases (x : Float) : (∃ n, IsPosition x n) ∨ IsInfinity x ∨
    (x < 0.0 ∨ isWhole x = false) := by
  by_cases hlt : x < 0.0
  · exact .inr (.inr (.inl hlt))
  cases hwhole : isWhole x with
  | false => exact .inr (.inr (.inr rfl))
  | true =>
    cases hint : toInt? x with
    | some n =>
      have hx : IsInt x n := ⟨hwhole, hint⟩
      obtain ⟨k, rfl⟩ := Int.eq_ofNat_of_zero_le (hx.nonneg_iff.2 hlt)
      exact .inl ⟨k, hx⟩
    | none =>
      refine .inr (.inl ?_)
      rw [lt_zero_iff] at hlt
      unfold isWhole at hwhole
      unfold toInt? at hint
      unfold IsInfinity
      cases hparts : parts x with
      | nan => rw [hparts] at hwhole; cases hwhole
      | finite negative m q => rw [hparts] at hint; cases hint
      | infinite negative =>
        rw [hparts] at hlt
        rw [Bool.eq_false_iff.2 hlt]

theorem IsInfinity.not_lt {x : Float} (h : IsInfinity x) : ¬x < 0.0 := by
  rw [lt_zero_iff, h]
  exact Bool.false_ne_true

end LittleJ.Number

namespace LittleJ

open Number

/-! ## Reading -/

namespace Expression

variable {x : Float}

theorem position_of_isPosition {n : Nat} (h : IsPosition x n) (what : String) (length : Nat) :
    position what length (.num x) =
      if n < length then pure n else Eval.raise (.outOfRange what (integerText n)) := by
  have hlt : decide (x < 0.0) = false := decide_eq_false h.not_lt
  simp only [position, hlt, h.1, h.2, Bool.not_true, Bool.or_self, Bool.false_eq_true, if_false,
    Int.natAbs_natCast]

theorem position_of_isInfinity (h : IsInfinity x) (what : String) (length : Nat) :
    position what length (.num x) = Eval.breakdown .overflow := by
  have hlt : decide (x < 0.0) = false := decide_eq_false h.not_lt
  have hwhole : isWhole x = true := by rw [isWhole, h]
  have hint : toInt? x = none := by rw [toInt?, h]
  simp only [position, hlt, hwhole, hint, Bool.not_true, Bool.or_self, Bool.false_eq_true, if_false]

/-- Whatever else is used as a position, no error is made of it. -/
theorem position_of_not {key : Value} (h : ∀ x, key = .num x → (∀ n, ¬IsPosition x n) ∧
    ¬IsInfinity x) (what : String) (length : Nat) :
    position what length key = Eval.breakdown .unnamed := by
  cases key with
  | num x =>
    obtain ⟨hposition, hinfinity⟩ := h x rfl
    have hbad :=
      ((position_cases x).resolve_left fun ⟨n, hn⟩ => hposition n hn).resolve_left hinfinity
    rw [position, if_pos]
    rcases hbad with hlt | hwhole
    · rw [decide_eq_true hlt]
      rfl
    · rw [hwhole, Bool.not_false, Bool.or_true]
  | _ => rfl

end Expression

/-! ## Setting -/

/-- A position that is read is the one that is set. -/
theorem Eval.settingPosition_of_isPosition {x : Float} {n : Nat} (h : IsPosition x n)
    (length : Nat) :
    settingPosition length x = if n < length then pure n else breakdown .position := by
  simp only [settingPosition, h.2, Bracket.position?, Int.natCast_nonneg, if_true,
    Int.natAbs_natCast]
  by_cases hn : n < length
  · rw [if_pos hn, if_pos hn]
  · rw [if_neg hn, if_neg hn]

end LittleJ
