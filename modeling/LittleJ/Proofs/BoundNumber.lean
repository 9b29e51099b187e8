import LittleJ.Proofs.IndexNumber

/-!
# Numbers that count from an end

A whole double is compared and added by the whole number that it holds, however large this is.
Comparison is exact. A sum may be rounded, but if a length is added to a negative number it is
rounded only far below zero: **the sum is not negative just if the number reaches back into the
length, and then it is exact.**
-/

open Float.Model Float.Model.UnpackedFloat

namespace LittleJ.Number

variable {x y : Float} {a b : Int}

/-! ## Whole doubles of any size -/

/-- What a double that is not zero holds. -/
theorem IsInt.whole (h : IsInt x a) (ha : a ≠ 0) : Whole a x.toModel.unpack := by
  obtain ⟨m, q, hparts, hscaled, hsign⟩ := h.parts_eq
  obtain ⟨e, f, he, -, -, hfields⟩ := fields_of_finite hparts
  obtain ⟨hlow, hhigh, -⟩ := (hscaled.mantissa_cases hparts).resolve_left fun hzero => ha (by omega)
  have hnormal : Normal m q := ⟨hlow, hhigh, by omega, by omega⟩
  obtain ⟨s, hs⟩ : ∃ s, negativeSign s = isNegative x := by
    cases isNegative x with
    | false => exact ⟨.positive, rfl⟩
    | true => exact ⟨.negative, rfl⟩
  have hx : x = Float.ofModel (Float.Model.pack (.finite s m q hnormal.pos)) :=
    eq_of_parts_eq hparts (hs ▸ hnormal.parts_pack s)
  have hunpack : x.toModel.unpack = .finite s m q hnormal.pos := by
    rw [hx]
    exact hnormal.unpack_pack s
  rw [hunpack]
  refine .finite hnormal ?_
  have hvalue := hscaled.value
  rw [← hs] at hsign
  cases s with
  | positive =>
    rw [signedValue_positive, hvalue, hsign]
    simp [negativeSign]
  | negative =>
    rw [signedValue_negative, hvalue, hsign]
    simp [negativeSign]

/-- Both zeros hold the same. -/
theorem IsInt.unpack_zero (h : IsInt x 0) : ∃ s, x.toModel.unpack = .zero s := by
  obtain ⟨m, q, hparts, hscaled, -⟩ := h.parts_eq
  obtain ⟨rfl, rfl, -⟩ := (hscaled.mantissa_cases hparts).resolve_right fun hne => hne.2.2 rfl
  cases hneg : isNegative x with
  | false =>
    rw [hneg] at hparts
    exact ⟨.positive, by rw [eq_of_parts_eq hparts (show parts 0.0 = _ by decide +kernel)]; rfl⟩
  | true =>
    rw [hneg] at hparts
    exact ⟨.negative, by rw [eq_of_parts_eq hparts (show parts (-0.0) = _ by decide +kernel)]; rfl⟩

/-- A zero compares like the positive one. -/
theorem compare_zero (s : Sign) (v : UnpackedFloat) :
    (UnpackedFloat.zero s).compare v = (UnpackedFloat.zero .positive).compare v ∧
      v.compare (.zero s) = v.compare (.zero .positive) := by
  cases v with
  | infinity s' | finite s' => cases s' <;> cases s <;> exact ⟨rfl, rfl⟩
  | _ => exact ⟨rfl, rfl⟩

/-- Whole doubles compare as their numbers do. -/
theorem IsInt.compare_eq (hx : IsInt x a) (hy : IsInt y b) :
    x.toModel.unpack.compare y.toModel.unpack = some (compare a b) := by
  have hwhole {z : Float} {c : Int} (h : IsInt z c) : ∃ u, Whole c u ∧
      ∀ v : UnpackedFloat, z.toModel.unpack.compare v = u.compare v ∧ v.compare z.toModel.unpack =
        v.compare u := by
    by_cases hc : c = 0
    · subst hc
      obtain ⟨s, hs⟩ := h.unpack_zero
      exact ⟨_, .zero, hs ▸ compare_zero s⟩
    · exact ⟨_, h.whole hc, fun _ => ⟨rfl, rfl⟩⟩
  obtain ⟨u, hu, hx⟩ := hwhole hx
  obtain ⟨v, hv, hy⟩ := hwhole hy
  rw [(hx _).1, (hy _).2, hu.compare hv]

theorem IsInt.lt_iff (hx : IsInt x a) (hy : IsInt y b) : x < y ↔ a < b := by
  show decide (x.toModel.unpack.lt y.toModel.unpack = true) = true ↔ _
  rw [decide_eq_true_iff, UnpackedFloat.lt, hx.compare_eq hy, beq_iff_eq, Option.some.injEq]
  exact Int.compare_eq_lt

theorem isInt_ofInt {n : Int} (h : Small n) : IsInt (Float.ofInt n) n := by
  cases n with
  | ofNat k =>
    have hint := (isInt_ofDecimal h).1
    rwa [ofDecimal_eq_ofNat h] at hint
  | negSucc k =>
    have hint := isInt_neg_ofDecimal k.succ_pos h
    rwa [ofDecimal_eq_ofNat (show k.succ ≤ 2 ^ 53 from h)] at hint

/-! ## Counting from an end -/

theorem Whole.signs {u : UnpackedFloat} (h : Whole a u) (ha : a ≠ 0) : ∃ s m e, ∃ hn : Normal m e,
    u = .finite s m e hn.pos ∧ signedValue s m e = a ∧
    s = if 0 < a then .positive else .negative := by
  cases h with
  | zero => exact absurd rfl ha
  | @finite _ s m e hn hvalue =>
    refine ⟨s, m, e, hn, rfl, hvalue, ?_⟩
    have hpos := hn.value_pos
    cases s with
    | positive =>
      rw [signedValue_positive] at hvalue
      rw [hvalue] at hpos
      rw [if_pos (by exact_mod_cast hpos)]
    | negative =>
      rw [signedValue_negative, neg_eq_iff_eq_neg] at hvalue
      rw [hvalue, neg_pos] at hpos
      rw [if_neg (not_lt.2 (by exact_mod_cast hpos.le))]

/-- A negative sum of numbers of different signs is rounded to a negative number. -/
theorem Whole.add_neg {u v : UnpackedFloat} (hu : Whole a u) (hv : Whole b v)
    (ha : 0 ≤ a) (hb : b < 0) (h : a + b < 0) :
    ∃ m e, ∃ hn : Normal m e, UnpackedFloat.add .binary64 u v = .finite .negative m e hn.pos := by
  obtain ⟨s', m', e', hn', rfl, hvalue', hs'⟩ := hv.signs hb.ne
  rw [if_neg (by omega)] at hs'
  subst hs'
  rcases ha.eq_or_lt with rfl | hpos
  · cases hu with
    | zero => exact ⟨m', e', hn', rfl⟩
    | finite hn hvalue => exact absurd (hvalue.trans Int.cast_zero) (by
        have := hn.value_pos
        cases ‹Sign› with
        | positive => rw [signedValue_positive]; exact this.ne'
        | negative => rw [signedValue_negative]; exact (neg_neg_of_pos this).ne)
  · obtain ⟨s, m, e, hn, rfl, hvalue, hs⟩ := hu.signs hpos.ne'
    rw [if_pos hpos] at hs
    subst hs
    -- the two mantissas at the lower exponent, and their difference
    obtain ⟨A, hA⟩ : ∃ A, m <<< (e - min e e').toNat = A := ⟨_, rfl⟩
    obtain ⟨B, hB⟩ : ∃ B, m' <<< (e' - min e e').toNat = B := ⟨_, rfl⟩
    have hsum : (((A : Int) - B : Int) : ℚ) * 2 ^ min e e' = ((a + b : Int) : ℚ) := by
      have hleft := signedValue_aligned .positive m (min_le_left e e')
      have hright := signedValue_aligned .negative m' (min_le_right e e')
      rw [hA, hvalue, Sign.apply] at hleft
      rw [hB, hvalue', Sign.apply] at hright
      rw [Int.cast_add, ← hleft, ← hright]
      push_cast
      ring
    have hneg : (A : Int) - B < 0 := by
      have : (((A : Int) - B : Int) : ℚ) * 2 ^ min e e' < 0 := hsum ▸ (by exact_mod_cast h)
      exact_mod_cast (neg_iff_pos_of_mul_neg this).2 (two_zpow_pos _)
    -- its size is that of the sum, so rounding keeps the top bit
    have hsize : -1022 ≤ ((B - A).log2 : Int) + min e e' := by
      by_contra hlow
      have hlt : ((B - A : Nat) : ℚ) * 2 ^ min e e' < 1 := by
        have hlog : ((B - A : Nat) : ℚ) < 2 ^ ((B - A).log2 + 1) := by
          exact_mod_cast Nat.lt_log2_self
        calc ((B - A : Nat) : ℚ) * 2 ^ min e e' < 2 ^ ((B - A).log2 + 1) * 2 ^ min e e' :=
              mul_lt_mul_of_pos_right hlog (two_zpow_pos _)
          _ = 2 ^ (((B - A).log2 + 1 : Nat) + min e e' : Int) := by
              rw [zpow_add₀ (by norm_num), zpow_natCast]
          _ ≤ 1 := zpow_le_one_of_nonpos₀ (by norm_num) (by push_cast; omega)
      have hone : (1 : ℚ) ≤ ((B - A : Nat) : ℚ) * 2 ^ min e e' := by
        have hcast : ((B - A : Nat) : ℚ) = -(((A : Int) - B : Int) : ℚ) := by
          rw [Nat.cast_sub (by omega)]
          push_cast
          ring
        rw [hcast, neg_mul, hsum]
        exact_mod_cast (by omega : (1 : Int) ≤ -(a + b))
      exact absurd hlt (not_lt.2 hone)
    obtain ⟨r, t, hnormal, hround⟩ := @normal_round .negative (B - A) m' (e' - min e e').toNat
        (min e e') (by omega)
      hn'.high (by rw [← Nat.shiftLeft_eq, hB]; omega) (by have := hn'.most; omega) hsize
    refine ⟨r, t, hnormal, ?_⟩
    show UnpackedFloat.normalize .binary64 ((m <<< (e - min e e').toNat : Nat) +
      -(m' <<< (e' - min e e').toNat : Nat) : Int) (min e e') .positive = _
    rw [hA, hB, UnpackedFloat.normalize, ← sub_eq_add_neg, Int.compare_eq_lt.2 hneg]
    dsimp only
    rw [show (-((A : Int) - B)).toNat = B - A by omega, hround]

/-- A number below every position. -/
def Before (x : Float) : Prop :=
  ∀ y n, IsPosition y n → x < y ∧ ¬y < x

theorem before_of_unpack {m : Nat} {e : Int} {hm : 0 < m}
    (h : x.toModel.unpack = .finite .negative m e hm) :
    Before x := by
  intro y n hy
  have hlt (u v : Float) : u < v ↔ u.toModel.unpack.lt v.toModel.unpack = true := decide_eq_true_iff
  rw [hlt, hlt, h]
  by_cases hn : (n : Int) = 0
  · obtain ⟨s, hs⟩ := IsInt.unpack_zero (show IsInt y 0 from hn ▸ (hy : IsInt y n))
    rw [hs]
    cases s <;> exact ⟨rfl, Bool.false_ne_true⟩
  · obtain ⟨s, m', e', _, hunpack, -, hs⟩ := (IsInt.whole hy hn).signs hn
    rw [if_pos (by omega)] at hs
    rw [hunpack, hs]
    exact ⟨rfl, Bool.false_ne_true⟩

/-- A number for the position `k`. What is before the start is a position too, but far from it need
not be exact. -/
inductive Marks (x : Float) (k : Int) : Prop where
  | whole (h : IsInt x k)
  | before (hk : k < -2 ^ 53) (h : Before x)

/-- One of the two positions is not before the start, or neither is far from it. -/
theorem Marks.lt_iff (hx : Marks x a) (hy : Marks y b)
    (h : 0 ≤ a ∨ 0 ≤ b ∨ -2 ^ 53 ≤ a ∧ -2 ^ 53 ≤ b) :
    x < y ↔ a < b := by
  cases hx with
  | whole hx =>
    cases hy with
    | whole hy => exact hx.lt_iff hy
    | before hb hy =>
      obtain ⟨n, rfl⟩ := Int.eq_ofNat_of_zero_le (show 0 ≤ a by omega)
      exact iff_of_false (hy x n hx).2 (by omega)
  | before ha hx =>
    cases hy with
    | whole hy =>
      obtain ⟨n, rfl⟩ := Int.eq_ofNat_of_zero_le (show 0 ≤ b by omega)
      exact iff_of_true (hx y n hy).1 (by omega)
    | before hb hy => omega

theorem isInt_zero : IsInt 0.0 0 :=
  ⟨by decide +kernel, by decide +kernel⟩

theorem Marks.neg_iff (h : Marks x a) : x < 0.0 ↔ a < 0 :=
  h.lt_iff (.whole isInt_zero) (.inr (.inl le_rfl))

/-- **Counting from an end.** A length and a negative number come to the position that far back,
which is exact unless it is far before the start. -/
theorem IsInt.marks_add {n : Nat} (hx : IsInt x a) (ha : a < 0) (hn : n ≤ 2 ^ 53) :
    Marks (Float.ofInt n + x) (n + a) := by
  have hlength := whole_ofInt (show Small n from hn)
  have hback := hx.whole ha.ne
  rcases le_or_gt (-2 ^ 53) (n + a) with hnear | hfar
  · have hsmall : Small (n + a) := show _ ≤ _ by omega
    have hsum : Float.ofInt n + x = Float.ofInt (n + a) :=
      (hlength.add hback hsmall).eq_ofInt hsmall
    exact .whole (hsum ▸ isInt_ofInt hsmall)
  · obtain ⟨m, e, hnormal, hadd⟩ := hlength.add_neg hback (by omega) ha (by omega)
    have hsum :
        Float.ofInt n + x = Float.ofModel (Float.Model.pack (.finite .negative m e hnormal.pos)) :=
      congrArg (fun u => Float.ofModel (Float.Model.pack u)) hadd
    have hunpack : (Float.ofInt n + x).toModel.unpack = .finite .negative m e hnormal.pos := by
      rw [hsum]
      exact hnormal.unpack_pack .negative
    exact .before hfar (before_of_unpack hunpack)

/-- The position behind a position. -/
theorem IsPosition.succ {n : Nat} (hx : IsPosition x n) (hn : n < 2 ^ 53) :
    IsPosition (x + Float.ofInt 1) (n + 1 : Nat) := by
  have hsmall : Small (n + 1) := show _ ≤ _ by omega
  have hone := whole_ofInt (show Small 1 by decide)
  have hadd : Whole (n + 1)
      (UnpackedFloat.add .binary64 x.toModel.unpack (Float.ofInt 1).toModel.unpack) := by
    by_cases hzero : (n : Int) = 0
    · -- zero may have a sign
      obtain ⟨s, hs⟩ := IsInt.unpack_zero (show IsInt x 0 from hzero ▸ (hx : IsInt x n))
      rw [hs, hzero]
      cases hone with
      | finite hn hvalue => exact .finite hn hvalue
    · exact (IsInt.whole hx hzero).add hone hsmall
  have hsum : x + Float.ofInt 1 = Float.ofInt (n + 1) := hadd.eq_ofInt hsmall
  exact hsum ▸ isInt_ofInt hsmall

end LittleJ.Number
