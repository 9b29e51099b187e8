import LittleJ.Proofs.WholeNumber
import Mathlib.Algebra.Order.Field.Power
import Mathlib.Tactic.NormNum
import Mathlib.Tactic.Positivity

/-!
# Arithmetic on whole doubles

Sums, differences and comparisons of doubles are those of the whole numbers they hold, as long as
these and the result have at most 53 bits.

The argument is by the value `m · 2 ^ e` of a mantissa and an exponent. A whole number has one
mantissa with a top bit, and rounding gives that mantissa from any other one of the same value. So
all that is left of an operation is its effect on the values.
-/

open Float.Model Float.Model.UnpackedFloat

namespace LittleJ.Number

/-- The whole numbers up to which every one is a double. -/
def Small (n : Int) : Prop :=
  n.natAbs ≤ 2 ^ 53

instance (n : Int) : Decidable (Small n) :=
  inferInstanceAs (Decidable (_ ≤ _))

/-! ## Values -/

theorem two_zpow_pos (e : Int) : (0 : ℚ) < 2 ^ e :=
  zpow_pos (by norm_num) e

theorem cast_toNat {k : Int} (h : 0 ≤ k) : ((k.toNat : Nat) : ℚ) = k := by
  exact_mod_cast congrArg (Int.cast : Int → ℚ) (Int.toNat_of_nonneg h)

theorem compare_cast (a b : Int) : compare a b = compare (a : ℚ) b := by
  rcases lt_trichotomy a b with hlt | rfl | hgt
  · rw [compare_lt_iff_lt.2 hlt, compare_lt_iff_lt.2 (Int.cast_lt.2 hlt)]
  · rw [compare_eq_iff_eq.2 rfl, compare_eq_iff_eq.2 rfl]
  · rw [compare_gt_iff_gt.2 hgt, compare_gt_iff_gt.2 (Int.cast_lt.2 hgt)]

theorem compare_neg_neg (p q : ℚ) : compare (-p) (-q) = (compare p q).swap := by
  rcases lt_trichotomy p q with hlt | rfl | hgt
  · rw [compare_lt_iff_lt.2 hlt, compare_gt_iff_gt.2 (neg_lt_neg hlt)]
    rfl
  · rw [compare_eq_iff_eq.2 rfl, compare_eq_iff_eq.2 rfl]
    rfl
  · rw [compare_gt_iff_gt.2 hgt, compare_lt_iff_lt.2 (neg_lt_neg hgt)]
    rfl

/-- A mantissa keeps its value when its exponent is lowered. -/
theorem value_shifted (m : Nat) {e e' : Int} (h : e' ≤ e) :
    ((m <<< (e - e').toNat : Nat) : ℚ) * 2 ^ e' = m * 2 ^ e := by
  have hsplit : (e - e').toNat + e' = e := by omega
  rw [Nat.shiftLeft_eq, Nat.cast_mul, Nat.cast_pow, Nat.cast_ofNat, mul_assoc, ← zpow_natCast,
    ← zpow_add₀ (by norm_num), hsplit]

theorem log2_mul_two_pow {k : Nat} (hk : k ≠ 0) (j : Nat) : (k * 2 ^ j).log2 = k.log2 + j := by
  induction j with
  | zero => simp
  | succ j ih =>
    have hne : k * 2 ^ j ≠ 0 := Nat.mul_ne_zero hk (Nat.two_pow_pos j).ne'
    rw [pow_succ', Nat.mul_left_comm, Nat.log2_two_mul hne, ih, Nat.add_assoc]

theorem Scaled.value {k m : Nat} {q : Int} (h : Scaled k m q) : (m : ℚ) * 2 ^ q = k := by
  unfold Scaled at h
  rcases le_total 0 q with hq | hq
  · lift q to Nat using hq
    have hneg : (-(q : Int)).toNat = 0 := by omega
    rw [hneg, Int.toNat_natCast, pow_zero, mul_one] at h
    rw [zpow_natCast, h]
    push_cast
    rfl
  · obtain ⟨j, rfl⟩ : ∃ j : Nat, q = -j := ⟨(-q).toNat, by omega⟩
    have hpos : (-(j : Int)).toNat = 0 := by omega
    rw [neg_neg, Int.toNat_natCast, hpos, pow_zero, mul_one] at h
    rw [← h, Nat.cast_mul, Nat.cast_pow, Nat.cast_ofNat, zpow_neg, zpow_natCast, mul_assoc,
      mul_inv_cancel₀ (by positivity), mul_one]

/-- A positive whole number of at most 53 bits has a mantissa with its top bit. -/
theorem exists_normal {n : Nat} (hpos : 0 < n) (h : n ≤ 2 ^ 53) :
    ∃ (m : Nat) (e : Int), Normal m e ∧ (m : ℚ) * 2 ^ e = n := by
  obtain ⟨m, e, hn, hscaled, _⟩ := toModel_ofDecimal hpos h
  exact ⟨m, e, hn, hscaled.value⟩

namespace Normal

variable {m m' : Nat} {e e' : Int}

/-- Rounding finds the mantissa with the top bit from any mantissa of its value. -/
theorem round (h : Normal m e) (s : Sign) {k : Nat} {x : Int}
    (hvalue : (k : ℚ) * 2 ^ x = m * 2 ^ e) :
    UnpackedFloat.round .binary64 s k x = .finite s m e h.pos := by
  have hleast := h.least
  have hbits : (Format.binary64.mantissaBits : Int) = 53 := rfl
  have hmin : Format.binary64.minExponent = -1074 := rfl
  rcases le_total e x with hx | hx
  · -- the exponent comes down, and zeros are put behind the mantissa
    have hm : k * 2 ^ (x - e).toNat = m := by
      have hlow := value_shifted k hx
      rw [hvalue, Nat.shiftLeft_eq] at hlow
      exact_mod_cast mul_right_cancel₀ (two_zpow_pos e).ne' hlow
    have hk : k ≠ 0 := by
      rintro rfl
      exact h.pos.ne' (by simpa using hm.symm)
    have hlog : k.log2 + (x - e).toNat = 52 := by
      have := h.log2
      rwa [← hm, log2_mul_two_pow hk] at this
    have htarget : Format.binary64.targetExponent (totalExponent k x) = e := by
      rw [Format.targetExponent, totalExponent, hbits, hmin]
      omega
    have hround := h.roundWithAccuracy s 0
    rw [pow_zero, mul_one, Int.natCast_zero, Int.sub_zero] at hround
    have hexp : x - ((x - e).toNat : Int) = e := by omega
    rw [UnpackedFloat.round, htarget, decreaseExponent]
    dsimp only
    rw [Nat.shiftLeft_eq, hm, hexp, hround]
  · -- the mantissa has zeros behind its 53 bits, and they are dropped
    have hk : k = m * 2 ^ (e - x).toNat := by
      have hlow := value_shifted m hx
      rw [← hvalue, Nat.shiftLeft_eq] at hlow
      exact_mod_cast (mul_right_cancel₀ (two_zpow_pos x).ne' hlow).symm
    have htarget : Format.binary64.targetExponent (totalExponent k x) = e := by
      rw [Format.targetExponent, totalExponent, hk, h.log2_shifted, hbits, hmin]
      omega
    have hnone : (x - e).toNat = 0 := by omega
    have hexp : x = e - ((e - x).toNat : Int) := by omega
    rw [UnpackedFloat.round, htarget, decreaseExponent, hnone]
    dsimp only
    rw [Nat.shiftLeft_zero, Int.natCast_zero, Int.sub_zero, hk, ← h.roundWithAccuracy s
      (e - x).toNat]
    exact congrArg (UnpackedFloat.roundWithAccuracy .binary64 s _ · .exact) hexp

theorem value_pos (h : Normal m e) : (0 : ℚ) < m * 2 ^ e :=
  mul_pos (by exact_mod_cast h.pos) (two_zpow_pos e)

/-- Mantissas with their top bit are ordered by their exponents first. -/
theorem value_lt (h : Normal m e) (h' : Normal m' e') (hlt : e < e') :
    (m : ℚ) * 2 ^ e < m' * 2 ^ e' := by
  have hm : (m : ℚ) < 2 ^ 53 := by exact_mod_cast h.high
  have hm' : (2 : ℚ) ^ 52 ≤ m' := by exact_mod_cast h'.low
  calc (m : ℚ) * 2 ^ e < 2 ^ 53 * 2 ^ e := mul_lt_mul_of_pos_right hm (two_zpow_pos e)
    _ = 2 ^ 52 * 2 ^ (e + 1) := by rw [zpow_add₀ (by norm_num)]; ring
    _ ≤ 2 ^ 52 * 2 ^ e' := by
      refine mul_le_mul_of_nonneg_left (zpow_le_zpow_right₀ (by norm_num) (by omega))
        (by positivity)
    _ ≤ m' * 2 ^ e' := mul_le_mul_of_nonneg_right hm' (two_zpow_pos e').le

theorem compare_eq (h : Normal m e) (h' : Normal m' e') :
    (compare e e').then (compare m m') = compare ((m : ℚ) * 2 ^ e) (m' * 2 ^ e') := by
  rcases lt_trichotomy e e' with hlt | rfl | hgt
  · rw [compare_lt_iff_lt.2 hlt, compare_lt_iff_lt.2 (h.value_lt h' hlt)]
    rfl
  · rw [compare_eq_iff_eq.2 rfl, Ordering.then]
    rcases lt_trichotomy m m' with hlt | rfl | hgt
    · have hvalue : (m : ℚ) * 2 ^ e < m' * 2 ^ e := mul_lt_mul_of_pos_right (by exact_mod_cast hlt)
        (two_zpow_pos e)
      rw [compare_lt_iff_lt.2 hlt, compare_lt_iff_lt.2 hvalue]
    · rw [compare_eq_iff_eq.2 rfl, compare_eq_iff_eq.2 rfl]
    · have hvalue : (m' : ℚ) * 2 ^ e < m * 2 ^ e := mul_lt_mul_of_pos_right (by exact_mod_cast hgt)
        (two_zpow_pos e)
      rw [compare_gt_iff_gt.2 hgt, compare_gt_iff_gt.2 hvalue]
  · rw [compare_gt_iff_gt.2 hgt, compare_gt_iff_gt.2 (h'.value_lt h hgt)]
    rfl

end Normal

/-! ## Whole numbers -/

/-- The value of a signed mantissa. -/
def signedValue (s : Sign) (m : Nat) (e : Int) : ℚ :=
  s.apply m * 2 ^ e

theorem signedValue_positive (m : Nat) (e : Int) : signedValue .positive m e = m * 2 ^ e := by
  rw [signedValue, Sign.apply, Int.cast_natCast]

theorem signedValue_negative (m : Nat) (e : Int) : signedValue .negative m e = -(m * 2 ^ e) := by
  rw [signedValue, Sign.apply, Int.cast_neg, Int.cast_natCast, neg_mul]

theorem signedValue_aligned (s : Sign) (m : Nat) {e e' : Int} (h : e' ≤ e) :
    (s.apply ((m <<< (e - e').toNat : Nat) : Int) : ℚ) * 2 ^ e' = signedValue s m e := by
  have hvalue := value_shifted m h
  cases s with
  | positive => rw [signedValue_positive, ← hvalue, Sign.apply, Int.cast_natCast]
  | negative =>
    rw [signedValue_negative, ← hvalue, Sign.apply, Int.cast_neg, Int.cast_natCast, neg_mul]

theorem signedValue_neg (s : Sign) (m : Nat) (e : Int) :
    signedValue (-s) m e = -signedValue s m e := by
  have happly : (-s).apply (m : Int) = -s.apply m := by
    cases s with
    | positive => rfl
    | negative => exact (neg_neg _).symm
  rw [signedValue, signedValue, happly, Int.cast_neg, neg_mul]

/-- A whole number with its double: zero, or a mantissa with its top bit. -/
inductive Whole : Int → UnpackedFloat → Prop where
  | zero : Whole 0 (.zero .positive)
  | finite {n : Int} {s : Sign} {m : Nat} {e : Int} (h : Normal m e)
      (hvalue : signedValue s m e = n) :
      Whole n (.finite s m e h.pos)

/-- Rounding gives a small whole number its double. -/
theorem whole_normalize {n k : Int} {x : Int} (hn : Small n) (hvalue : (k : ℚ) * 2 ^ x = n) :
    Whole n (UnpackedFloat.normalize .binary64 k x .positive) := by
  unfold Small at hn
  have hx := two_zpow_pos x
  rcases lt_trichotomy k 0 with hk | rfl | hk
  · have hneg : (n : ℚ) < 0 := hvalue ▸ mul_neg_of_neg_of_pos (by exact_mod_cast hk) hx
    have hneg : n < 0 := by exact_mod_cast hneg
    obtain ⟨m, e, hnormal, hm⟩ := exists_normal (n := n.natAbs) (by omega) hn
    have habs : ((n.natAbs : Nat) : ℚ) = -n := by
      rw [Nat.cast_natAbs, abs_of_neg hneg]
      push_cast
      rfl
    rw [habs] at hm
    rw [UnpackedFloat.normalize, Int.compare_eq_lt.2 hk, hnormal.round .negative (by
      rw [cast_toNat (by omega), hm, ← hvalue, Int.cast_neg, neg_mul])]
    refine .finite hnormal ?_
    rw [signedValue, Sign.apply]
    push_cast
    rw [neg_mul, hm, neg_neg]
  · have hzero : n = 0 := by
      rw [Int.cast_zero, zero_mul] at hvalue
      exact_mod_cast hvalue.symm
    subst hzero
    exact .zero
  · have hpos : (0 : ℚ) < n := hvalue ▸ mul_pos (by exact_mod_cast hk) hx
    have hpos : 0 < n := by exact_mod_cast hpos
    obtain ⟨m, e, hnormal, hm⟩ := exists_normal (n := n.natAbs) (by omega) hn
    have habs : ((n.natAbs : Nat) : ℚ) = n := by rw [Nat.cast_natAbs, abs_of_pos hpos]
    rw [habs] at hm
    rw [UnpackedFloat.normalize, Int.compare_eq_gt.2 hk, hnormal.round .positive
      (by rw [cast_toNat hk.le, hm, ← hvalue])]
    exact .finite hnormal (by rw [signedValue, Sign.apply]; exact_mod_cast hm)

namespace Whole

variable {a b : Int} {x y : UnpackedFloat}

/-- Packing a whole number loses nothing. -/
theorem unpack_pack (h : Whole a x) : (Float.Model.pack x).unpack = x := by
  cases h with
  | zero => rfl
  | finite h _ => exact h.unpack_pack _

/-- The sum of two whole numbers is exact. -/
theorem add (hx : Whole a x) (hy : Whole b y) (h : Small (a + b)) :
    Whole (a + b) (UnpackedFloat.add .binary64 x y) := by
  cases hx with
  | zero =>
    rw [zero_add]
    cases hy with
    | zero => exact .zero
    | finite hy hvalue => exact .finite hy hvalue
  | @finite _ s m e hx hxvalue =>
    cases hy with
    | zero =>
      rw [add_zero]
      exact .finite hx hxvalue
    | @finite _ s' m' e' hy hyvalue =>
      refine whole_normalize h ?_
      rw [Int.cast_add, Int.cast_add, add_mul, ← hxvalue, ← hyvalue,
        signedValue_aligned s m (min_le_left e e'), signedValue_aligned s' m' (min_le_right e e')]

theorem neg (hx : Whole a x) (ha : a ≠ 0) : Whole (-a) x.neg := by
  cases hx with
  | zero => exact absurd rfl ha
  | finite hx hvalue => exact .finite hx (by rw [signedValue_neg, hvalue, Int.cast_neg])

/-- Whole numbers compare as their doubles do. -/
theorem compare (hx : Whole a x) (hy : Whole b y) : x.compare y = some (Ord.compare a b) := by
  rw [compare_cast]
  cases hx with
  | zero =>
    cases hy with
    | zero => rw [compare_eq_iff_eq.2 rfl]; rfl
    | @finite _ s m e hy hvalue =>
      rw [← hvalue, Int.cast_zero]
      have hpos := hy.value_pos
      cases s with
      | positive => rw [signedValue_positive, compare_lt_iff_lt.2 hpos]; rfl
      | negative => rw [signedValue_negative, compare_gt_iff_gt.2 (neg_neg_of_pos hpos)]; rfl
  | @finite _ s m e hx hxvalue =>
    have hxpos := hx.value_pos
    rw [← hxvalue]
    cases hy with
    | zero =>
      rw [Int.cast_zero]
      cases s with
      | positive => rw [signedValue_positive, compare_gt_iff_gt.2 hxpos]; rfl
      | negative => rw [signedValue_negative, compare_lt_iff_lt.2 (neg_neg_of_pos hxpos)]; rfl
    | @finite _ s' m' e' hy hyvalue =>
      have hypos := hy.value_pos
      rw [← hyvalue]
      cases s with
      | positive =>
        rw [signedValue_positive]
        cases s' with
        | positive => rw [signedValue_positive, ← hx.compare_eq hy]; rfl
        | negative =>
          rw [signedValue_negative, compare_gt_iff_gt.2 ((neg_neg_of_pos hypos).trans hxpos)]; rfl
      | negative =>
        rw [signedValue_negative]
        cases s' with
        | positive =>
          rw [signedValue_positive, compare_lt_iff_lt.2 ((neg_neg_of_pos hxpos).trans hypos)]; rfl
        | negative =>
          rw [signedValue_negative, compare_neg_neg, ← hx.compare_eq hy]
          rfl

/-- A whole number has one double, the one that rounding gives. -/
theorem eq_normalize (hx : Whole a x) : x = UnpackedFloat.normalize .binary64 a 0 .positive := by
  cases hx with
  | zero => rfl
  | @finite _ s m e hx hvalue =>
    have hpos := hx.value_pos
    cases s with
    | positive =>
      rw [signedValue_positive] at hvalue
      have ha : 0 < a := by
        rw [hvalue] at hpos
        exact_mod_cast hpos
      rw [UnpackedFloat.normalize, Int.compare_eq_gt.2 ha]
      exact (hx.round .positive (by rw [cast_toNat ha.le, hvalue, zpow_zero, mul_one])).symm
    | negative =>
      rw [signedValue_negative] at hvalue
      have ha : a < 0 := by
        rw [← neg_neg ((m : ℚ) * 2 ^ e), hvalue] at hpos
        exact_mod_cast neg_pos.1 hpos
      rw [UnpackedFloat.normalize, Int.compare_eq_lt.2 ha]
      exact (hx.round .negative (by
        rw [cast_toNat (by omega), Int.cast_neg, ← hvalue, neg_neg, zpow_zero, mul_one])).symm

end Whole

/-! ## Doubles -/

/-- A number is made like its digits are read. -/
theorem ofDecimal_eq_ofNat {k : Nat} (h : k ≤ 2 ^ 53) : ofDecimal k 0 = Float.ofNat k := by
  rcases Nat.eq_zero_or_pos k with rfl | hpos
  · have hmodel : (ofDecimal 0 0).toModel = (Float.ofNat 0).toModel := by decide +kernel
    exact congrArg Float.ofModel hmodel
  · have hlen : (Nat.toDigits 10 k).length ≤ 16 :=
      (Nat.length_toDigits_le_iff (by omega) (by omega)).2 (by omega)
    rw [ofDecimal, if_neg (by simpa using hpos.ne'), if_neg (by omega), if_neg (by omega),
      if_neg (by omega)]
    rfl

theorem toModel_ofNat {k : Nat} (h : k ≤ 2 ^ 53) :
    ∃ x, Whole k x ∧ (Float.ofNat k).toModel = Float.Model.pack x := by
  rcases Nat.eq_zero_or_pos k with rfl | hpos
  · exact ⟨_, .zero, by decide +kernel⟩
  · obtain ⟨m, e, hnormal, hscaled, hmodel⟩ := toModel_ofDecimal hpos h
    refine ⟨_, .finite hnormal ?_, ofDecimal_eq_ofNat h ▸ hmodel⟩
    rw [signedValue_positive, hscaled.value, Int.cast_natCast]

theorem toModel_ofInt {n : Int} (h : Small n) :
    ∃ x, Whole n x ∧ (Float.ofInt n).toModel = Float.Model.pack x := by
  cases n with
  | ofNat k => exact toModel_ofNat h
  | negSucc k =>
    obtain ⟨x, hx, hmodel⟩ := toModel_ofNat h
    refine ⟨x.neg, hx.neg (by omega), ?_⟩
    show Float.Model.pack (Float.ofNat k.succ).toModel.unpack.neg = _
    rw [show k.succ = (Int.negSucc k).natAbs from rfl, hmodel, hx.unpack_pack]

/-- The parts of the double of a small whole number. -/
theorem whole_ofInt {n : Int} (h : Small n) : Whole n (Float.ofInt n).toModel.unpack := by
  obtain ⟨x, hx, hmodel⟩ := toModel_ofInt h
  rw [hmodel, hx.unpack_pack]
  exact hx

/-- A small whole number has one double. -/
theorem Whole.eq_ofInt {n : Int} {x : UnpackedFloat} (hx : Whole n x) (h : Small n) :
    Float.ofModel (Float.Model.pack x) = Float.ofInt n := by
  obtain ⟨y, hy, hmodel⟩ := toModel_ofInt h
  rw [hx.eq_normalize, ← hy.eq_normalize, ← hmodel]

end LittleJ.Number
