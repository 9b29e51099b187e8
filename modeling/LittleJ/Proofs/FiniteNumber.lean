import LittleJ.Proofs.Watch
import LittleJ.Proofs.WholeArithmetic
import Mathlib

/-!
# Finite numbers

Signs, the remainder and the functions of `math` make finite numbers of finite numbers, or fail.

Most of them look at their result. The remainder does not, and it adds the divisor to a remainder of
the other sign. This sum cannot get too large: it is no larger than the larger of the two, and
rounding does not take a number past a double that it is not above.
-/

open Float.Model Float.Model.UnpackedFloat

namespace LittleJ.Number

/-! ## Mantissas and exponents -/

/-- Zero, or a mantissa and an exponent that a double can hold. -/
def Fits : UnpackedFloat → Prop
  | .zero _ => True
  | .finite _ m e _ => m < 2 ^ 53 ∧ e ≤ 971
  | _ => False

theorem Fits.neg {u : UnpackedFloat} (h : Fits u) : Fits u.neg := by
  cases u <;> exact h

theorem Fits.abs {u : UnpackedFloat} (h : Fits u) : Fits u.abs := by
  cases u <;> exact h

theorem toNat_unpackExponent (b : BitVec 64) :
    (@unpackExponent .binary64 b).toNat = b.toNat / 2 ^ 52 % 2048 := by
  delta unpackExponent
  simp [BitVec.extractLsb, Nat.shiftRight_eq_div_pow]

/-- The exponent of all ones is that of the infinities and of NaN. -/
theorem unpackExponent_eq (b : BitVec 64) : @unpackExponent .binary64 b = -1#11 ↔
    b.toNat / 2 ^ 52 % 2048 = 2047 := by
  rw [← BitVec.toNat_inj, toNat_unpackExponent]
  rfl

theorem fits_unpack {b : BitVec 64} (h : b.toNat / 2 ^ 52 % 2048 ≠ 2047) :
    Fits (UnpackedFloat.unpack .binary64 b) := by
  have hbias :
      ((Format.binary64.exponentBias : Int) + (Format.binary64.mantissaBitsWithoutImplicit : Int)) =
        1075 := rfl
  have hmantissa : (@unpackMantissa .binary64 b).toNat < 2 ^ 52 :=
    (@unpackMantissa .binary64 b).isLt
  delta UnpackedFloat.unpack
  dsimp only
  rw [if_neg (mt (unpackExponent_eq b).1 h), hbias, toNat_unpackExponent]
  split
  · next hzero =>
      have hzero := congrArg BitVec.toNat hzero
      rw [toNat_unpackExponent] at hzero
      change b.toNat / 2 ^ 52 % 2048 = 0 at hzero
      split
      · trivial
      · exact ⟨by omega, by omega⟩
  · exact ⟨(1#1 ++ @unpackMantissa .binary64 b).isLt, by omega⟩

/-- What fits is packed as a finite double. -/
theorem exponent_pack {u : UnpackedFloat} (h : Fits u) :
    (UnpackedFloat.pack .binary64 u).toNat / 2 ^ 52 % 2048 ≠ 2047 := by
  have hne (s : Sign) (e : BitVec 11) (f : BitVec 52) (he : e ≠ -1#11) :
      (packComponents .binary64 s e f).toNat / 2 ^ 52 % 2048 ≠ 2047 := by
    rw [Ne, ← unpackExponent_eq]
    exact fun heq => he (unpackExponent_packComponents.symm.trans heq)
  cases u with
  | infinity s => exact h.elim
  | notANumber => exact h.elim
  | zero s => exact hne s 0#11 0#52 (by decide)
  | finite s m e hm =>
    have hbias : (Format.binary64.exponentBias : Int) +
        (Format.binary64.mantissaBitsWithoutImplicit : Int) = 1075 := rfl
    have hmost : e ≤ 971 := h.2
    delta UnpackedFloat.pack
    simp only [add_assoc, hbias]
    rw [if_neg (by omega)]
    split
    · refine hne s _ _ fun heq => ?_
      have hval := congrArg BitVec.toNat heq
      rw [BitVec.toNat_ofNat] at hval
      change (e + 1075).toNat % 2 ^ 11 = 2047 at hval
      omega
    · exact hne s 0#11 _ (by decide)

/-! ## Rounding -/

theorem mantissa_shiftRight (em : ExtendedMantissa) (j : Nat) :
    (em >>> j).mantissa = em.mantissa / 2 ^ j := by
  show (j.repeat ExtendedMantissa.shiftRightOne em).mantissa = _
  induction j with
  | zero => simp [Nat.repeat]
  | succ j ih =>
    rw [Nat.repeat, ExtendedMantissa.shiftRightOne, ih, Nat.div_div_eq_div_mul, pow_succ]

theorem roundedMantissa_le (em : ExtendedMantissa) : em.roundedMantissa ≤ em.mantissa + 1 := by
  obtain ⟨m, roundBit, stickyBit⟩ := em
  cases roundBit <;> cases stickyBit <;>
    simp only [ExtendedMantissa.roundedMantissa, ExtendedMantissa.accuracy,
      Accuracy.roundToNearestEven] <;> omega

/-- Dropping bits and rounding does not get past a number that has none of these bits. -/
theorem rounded_shiftRight_le {k n j : Nat} (h : k ≤ n * 2 ^ j) :
    ((⟨k, false, false⟩ : ExtendedMantissa) >>> j).roundedMantissa ≤ n := by
  rcases Nat.lt_or_eq_of_le h with hlt | rfl
  · have hdiv : k / 2 ^ j < n := (Nat.div_lt_iff_lt_mul (Nat.two_pow_pos j)).2 hlt
    have hle := roundedMantissa_le ((⟨k, false, false⟩ : ExtendedMantissa) >>> j)
    rw [mantissa_shiftRight] at hle
    exact hle.trans hdiv
  · rw [shiftRight_exact]
    exact Nat.le_refl n

theorem le_roundedMantissa (em : ExtendedMantissa) : em.mantissa ≤ em.roundedMantissa := by
  obtain ⟨m, roundBit, stickyBit⟩ := em
  cases roundBit <;> cases stickyBit <;>
    simp only [ExtendedMantissa.roundedMantissa, ExtendedMantissa.accuracy,
      Accuracy.roundToNearestEven] <;> omega

/-- The second shift of rounding, which takes care of a carry. -/
def carried (s : Sign) (r : Nat) (t : Int) : UnpackedFloat :=
  match shiftToTargetExponent .binary64 r t .exact with
  | (em, e) => if h :
      em.mantissa = 0 then .zero s else .finite s em.mantissa e (Nat.pos_of_ne_zero h)

/-- There is a carry only if the mantissa has a bit too many. -/
theorem carried_of_lt (s : Sign) {r : Nat} {t : Int} (hr : r < 2 ^ 53) (hlow : -1074 ≤ t) :
    carried s r t = if h : r = 0 then .zero s else .finite s r t (Nat.pos_of_ne_zero h) := by
  have hlog : r.log2 ≤ 52 := by
    by_cases hzero : r = 0
    · simp [hzero]
    · exact Nat.lt_succ_iff.1 ((Nat.log2_lt hzero).2 hr)
  have htarget : (Format.binary64.targetExponent (totalExponent r t) - t).toNat = 0 := by
    have hbits : (Format.binary64.mantissaBits : Int) = 53 := rfl
    have hmin : Format.binary64.minExponent = -1074 := rfl
    rw [Format.targetExponent, totalExponent, hbits, hmin]
    omega
  rw [carried, shiftToTargetExponent, shiftToExponent, htarget]
  show (if h : r = 0 then UnpackedFloat.zero s else .finite s r (t + (0 : Nat))
      (Nat.pos_of_ne_zero h)) = _
  simp only [Nat.cast_zero, add_zero]

theorem carried_full (s : Sign) {t : Int} (h : Normal (2 ^ 52) (t + 1)) :
    carried s (2 ^ 53) t = .finite s (2 ^ 52) (t + 1) h.pos := by
  have hshift := h.shiftToTargetExponent 1
  rw [Nat.cast_one, add_sub_cancel_right, ← pow_add] at hshift
  rw [carried, hshift]
  exact dif_neg h.pos.ne'

/-- Rounding leaves a mantissa of 53 bits for the second shift, and an exponent that a double can
have. -/
theorem exists_carried (s : Sign) {k m j : Nat} {x : Int} (hpos : 0 < k) (hm : m < 2 ^ 53)
    (hk : k ≤ m * 2 ^ j) (hx : x + j ≤ 971) :
    ∃ r t, UnpackedFloat.round .binary64 s k x = carried s r t ∧ r ≤ 2 ^ 53 ∧ -1074 ≤ t ∧
      t ≤ 971 ∧ (r = 2 ^ 53 → t < 971) ∧ (-1022 ≤ k.log2 + x → 2 ^ 52 ≤ r) := by
  have hbits : (Format.binary64.mantissaBits : Int) = 53 := rfl
  have hmin : Format.binary64.minExponent = -1074 := rfl
  have hlog : k.log2 < 53 + j := (Nat.log2_lt hpos.ne').2 <| hk.trans_lt <| by
    rw [pow_add]
    exact Nat.mul_lt_mul_of_pos_right hm (Nat.two_pow_pos j)
  obtain ⟨t, ht⟩ : ∃ t, Format.binary64.targetExponent (totalExponent k x) = t := ⟨_, rfl⟩
  have ht' : t = max (k.log2 + 1 + x - 53) (-1074) := by
    rw [← ht, Format.targetExponent, totalExponent, hbits, hmin]
  -- one of the two shifts is by no bits
  have hagain : Format.binary64.targetExponent
      (totalExponent (k * 2 ^ (x - t).toNat) (x - ((x - t).toNat : Int))) = t := by
    rw [Format.targetExponent, totalExponent, log2_mul_two_pow hpos.ne', hbits, hmin]
    omega
  have hshift : (t - (x - ((x - t).toNat : Int))).toNat = (t - x).toNat := by omega
  have hexponent : x - ((x - t).toNat : Int) + ((t - x).toNat : Int) = t := by omega
  have hlarge : k * 2 ^ (x - t).toNat ≤ 2 ^ 53 * 2 ^ (t - x).toNat := by
    have hlt : k < 2 ^ (k.log2 + 1) := Nat.lt_log2_self
    calc k * 2 ^ (x - t).toNat ≤ 2 ^ (k.log2 + 1) * 2 ^ (x - t).toNat :=
      Nat.mul_le_mul_right _ hlt.le
      _ = 2 ^ (k.log2 + 1 + (x - t).toNat) := (pow_add ..).symm
      _ ≤ 2 ^ (53 + (t - x).toNat) := Nat.pow_le_pow_right (by omega) (by omega)
      _ = 2 ^ 53 * 2 ^ (t - x).toNat := pow_add ..
  have hcarry : ((⟨k * 2 ^ (x - t).toNat, false, false⟩ : ExtendedMantissa) >>>
      (t - x).toNat).roundedMantissa = 2 ^ 53 → t < 971 := by
    intro heq
    by_contra hge
    have hdown : (x - t).toNat = 0 := by omega
    have hup : (t - x).toNat = j := by omega
    have hle := rounded_shiftRight_le hk
    rw [hdown, hup, pow_zero, mul_one] at heq
    omega
  have hfull (hlow : -1022 ≤ k.log2 + x) :
      2 ^ 52 ≤ ((⟨k * 2 ^ (x - t).toNat, false, false⟩ : ExtendedMantissa) >>>
      (t - x).toNat).roundedMantissa := by
    refine le_trans ?_ (le_roundedMantissa _)
    rw [mantissa_shiftRight, Nat.le_div_iff_mul_le (Nat.two_pow_pos _)]
    calc 2 ^ 52 * 2 ^ (t - x).toNat = 2 ^ (52 + (t - x).toNat) := (pow_add ..).symm
      _ = 2 ^ (k.log2 + (x - t).toNat) := by
        rw [show 52 + (t - x).toNat = k.log2 + (x - t).toNat by omega]
      _ = 2 ^ k.log2 * 2 ^ (x - t).toNat := pow_add ..
      _ ≤ k * 2 ^ (x - t).toNat := Nat.mul_le_mul_right _ (Nat.log2_self_le hpos.ne')
  refine ⟨_, t, ?_, rounded_shiftRight_le hlarge, by omega, by omega, hcarry, hfull⟩
  rw [UnpackedFloat.round, ht, decreaseExponent, Nat.shiftLeft_eq]
  dsimp only
  rw [roundWithAccuracy, shiftToTargetExponent, shiftToExponent, hagain, hshift, hexponent]
  rfl

/-- Rounding does not take a number past a double that it is not above. -/
theorem fits_round (s : Sign) {k m j : Nat} {x : Int} (hpos : 0 < k) (hm : m < 2 ^ 53)
    (hk : k ≤ m * 2 ^ j) (hx : x + j ≤ 971) : Fits (UnpackedFloat.round .binary64 s k x) := by
  obtain ⟨r, t, hround, hr, hlow, hhigh, hcarry, -⟩ := exists_carried s hpos hm hk hx
  rw [hround]
  rcases Nat.lt_or_eq_of_le hr with hlt | rfl
  · rw [carried_of_lt s hlt hlow]
    split
    · trivial
    · exact ⟨hlt, hhigh⟩
  · have hnormal : Normal (2 ^ 52) (t + 1) :=
      ⟨by omega, by omega, by omega, by have := hcarry rfl; omega⟩
    rw [carried_full s hnormal]
    exact ⟨hnormal.high, hnormal.most⟩

/-- A number that is not too close to zero is rounded to a mantissa with its top bit. -/
theorem normal_round (s : Sign) {k m j : Nat} {x : Int} (hpos : 0 < k) (hm : m < 2 ^ 53)
    (hk : k ≤ m * 2 ^ j) (hx : x + j ≤ 971) (hsize : -1022 ≤ k.log2 + x) :
    ∃ m' e, ∃ h : Normal m' e, UnpackedFloat.round .binary64 s k x = .finite s m' e h.pos := by
  obtain ⟨r, t, hround, hr, hlow, hhigh, hcarry, hfull⟩ := exists_carried s hpos hm hk hx
  rw [hround]
  rcases Nat.lt_or_eq_of_le hr with hlt | rfl
  · have hnormal : Normal r t := ⟨hfull hsize, hlt, hlow, hhigh⟩
    exact ⟨r, t, hnormal, (carried_of_lt s hlt hlow).trans (dif_neg hnormal.pos.ne')⟩
  · have hnormal : Normal (2 ^ 52) (t + 1) :=
      ⟨by omega, by omega, by omega, by have := hcarry rfl; omega⟩
    exact ⟨_, _, hnormal, carried_full s hnormal⟩

theorem fits_normalize {m j : Nat} {k x : Int} (hm : m < 2 ^ 53) (hk : k.natAbs ≤ m * 2 ^ j)
    (hx : x + j ≤ 971) :
    Fits (UnpackedFloat.normalize .binary64 k x .positive) := by
  rw [UnpackedFloat.normalize]
  rcases lt_trichotomy k 0 with hneg | rfl | hpos
  · rw [Int.compare_eq_lt.2 hneg]
    exact fits_round .negative (by omega) hm (le_trans (by omega) hk) hx
  · trivial
  · rw [Int.compare_eq_gt.2 hpos]
    exact fits_round .positive (by omega) hm (le_trans (by omega) hk) hx

/-- The sum of numbers of different signs is between them. -/
theorem fits_add {u v : UnpackedFloat} (hu : Fits u) (hv : Fits v)
    (h : u.lt (.zero .positive) ≠ v.lt (.zero .positive)) :
    Fits (UnpackedFloat.add .binary64 u v) := by
  cases u with
  | infinity s => exact hu.elim
  | notANumber => exact hu.elim
  | zero s =>
    cases v with
    | infinity s' => exact hv.elim
    | notANumber => exact hv.elim
    | zero s' => exact iteInduction (fun _ => trivial) fun _ => trivial
    | finite s' m' e' hm' => exact hv
  | finite s m e hm =>
    cases v with
    | infinity s' => exact hv.elim
    | notANumber => exact hv.elim
    | zero s' => exact hu
    | finite s' m' e' hm' =>
      obtain ⟨hmantissa, hexponent⟩ : m < 2 ^ 53 ∧ e ≤ 971 := hu
      obtain ⟨hmantissa', hexponent'⟩ : m' < 2 ^ 53 ∧ e' ≤ 971 := hv
      obtain ⟨k, hk⟩ : ∃ k, m * 2 ^ (e - min e e').toNat = k := ⟨_, rfl⟩
      obtain ⟨k', hk'⟩ : ∃ k', m' * 2 ^ (e' - min e e').toNat = k' := ⟨_, rfl⟩
      have hsum : UnpackedFloat.add .binary64 (.finite s m e hm) (.finite s' m' e' hm') =
          UnpackedFloat.normalize .binary64 (s.apply k + s'.apply k') (min e e') .positive := by
        rw [← hk, ← hk', ← Nat.shiftLeft_eq, ← Nat.shiftLeft_eq]
        rfl
      have habs : (s.apply k + s'.apply k').natAbs ≤ max k k' := by
        cases s <;> cases s'
        · exact absurd rfl h
        · simp only [Sign.apply]; omega
        · simp only [Sign.apply]; omega
        · exact absurd rfl h
      rw [hsum]
      rcases le_total k k' with hle | hle
      · exact fits_normalize (j := (e' - min e e').toNat) hmantissa' (by omega) (by omega)
      · exact fits_normalize (j := (e - min e e').toNat) hmantissa (by omega) (by omega)

/-! ## Doubles -/

variable {x y : Float}

theorem isFinite_iff : Math.isFinite x = true ↔ x.toBits.toNat / 2 ^ 52 % 2048 ≠ 2047 := by
  obtain ⟨u, hu⟩ : ∃ u, UnpackedFloat.unpack .binary64 x.toBits.toBitVec = u := ⟨_, rfl⟩
  have hdef : Math.isFinite x = (!u.isNaN && !u.isInf) := by
    rw [← hu]
    rfl
  rw [hdef]
  constructor
  · intro h heq
    delta UnpackedFloat.unpack at hu
    dsimp only at hu
    rw [if_pos ((unpackExponent_eq _).2 heq)] at hu
    split at hu
    · subst hu
      cases h
    · subst hu
      cases h
  · intro h
    have hfits := fits_unpack h
    rw [hu] at hfits
    cases u with
    | infinity s => exact hfits.elim
    | notANumber => exact hfits.elim
    | zero s => rfl
    | finite s m e hm => rfl

theorem fits_of_isFinite (h : Math.isFinite x = true) : Fits x.toModel.unpack :=
  fits_unpack (isFinite_iff.1 h)

theorem isFinite_pack {u : UnpackedFloat} (h : Fits u) :
    Math.isFinite (Float.ofModel (Float.Model.pack u)) = true :=
  isFinite_iff.2 (exponent_pack h)

theorem isFinite_neg (h : Math.isFinite x = true) : Math.isFinite (-x) = true :=
  isFinite_pack (fits_of_isFinite h).neg

theorem isFinite_abs (h : Math.isFinite x = true) : Math.isFinite x.abs = true :=
  isFinite_pack (fits_of_isFinite h).abs

/-- A whole number of at most 53 bits. -/
theorem isFinite_ofNat {n : Nat} (h : n ≤ 2 ^ 53) : Math.isFinite (Float.ofNat n) = true := by
  obtain ⟨u, hu, hmodel⟩ := toModel_ofNat h
  have hfits : Fits u := by
    cases hu with
    | zero => trivial
    | finite hnormal _ => exact ⟨hnormal.high, hnormal.most⟩
  rw [show Float.ofNat n = Float.ofModel (Float.ofNat n).toModel from rfl, hmodel]
  exact isFinite_pack hfits

theorem exists_parts (h : Math.isFinite x = true) :
    ∃ negative m q, parts x = .finite negative m q ∧ m < 2 ^ 53 ∧ -1074 ≤ q ∧ q ≤ 971 := by
  have hexponent := isFinite_iff.1 h
  obtain ⟨negative, m, q, hparts⟩ : ∃ negative m q, parts x = .finite negative m q := by
    unfold parts
    simp only [Nat.pow_eq, beq_iff_eq]
    rw [if_neg hexponent]
    split
    · exact ⟨_, _, _, rfl⟩
    · exact ⟨_, _, _, rfl⟩
  obtain ⟨e, f, he, hf, -, hfields⟩ := fields_of_finite hparts
  exact ⟨negative, m, q, hparts, by omega, by omega, by omega⟩

/-- A double made of parts that it can have. -/
theorem isFinite_ofParts (negative : Bool) {m : Nat} {q : Int} (hm : m < 2 ^ 53) (hlow : -1074 ≤ q)
    (hhigh : q ≤ 971) : Math.isFinite (ofParts negative m q) = true := by
  have hlarge : m * 2 ^ min (52 - m.log2) (q + 1074).toNat < 2 ^ 53 := by
    rcases Nat.eq_zero_or_pos m with rfl | hpos
    · simp
    · have hlog : m.log2 < 53 := (Nat.log2_lt hpos.ne').2 hm
      calc m * 2 ^ min (52 - m.log2) (q + 1074).toNat
          ≤ m * 2 ^ (52 - m.log2) :=
          Nat.mul_le_mul_left _ (Nat.pow_le_pow_right (by omega) (min_le_left _ _))
        _ < 2 ^ (m.log2 + 1) * 2 ^ (52 - m.log2) := Nat.mul_lt_mul_of_pos_right Nat.lt_log2_self
          (Nat.two_pow_pos _)
        _ = 2 ^ 53 := by rw [← pow_add]; congr 1; omega
  have hbits (bits : Nat) (h : bits < 2047 * 2 ^ 52) :
      Math.isFinite (Float.ofBits (UInt64.ofNat (if negative then 2 ^ 63 + bits else bits))) =
        true := by
    refine isFinite_pack (fits_unpack ?_)
    rw [UInt64.toNat_toBitVec, UInt64.toNat_ofNat']
    cases negative <;> simp only [Bool.false_eq_true, if_false, if_true] <;> omega
  unfold ofParts
  simp only [Nat.pow_eq]
  refine hbits _ ?_
  split
  · omega
  · omega

/-! ## The remainder -/

theorem isZero_of_parts {negative : Bool} {q : Int} (h : parts x = .finite negative 0 q) :
    (x == 0.0) = true := by
  obtain ⟨e, f, he, hf, hbits, hfields⟩ := fields_of_finite h
  have hzero : x.toBits.toNat = negative.toNat * 2 ^ 63 := by
    rcases hfields with ⟨rfl, hm, -⟩ | ⟨-, hm, -⟩
    · rw [hbits, ← hm, Nat.zero_mul, Nat.add_zero]
    · exact absurd hm (Nat.add_pos_right f (Nat.two_pow_pos 52)).ne
  cases negative with
  | false =>
    have hx : x = 0.0 := eq_of_bits_eq (hzero.trans (by decide +kernel))
    rw [hx]
    decide +kernel
  | true =>
    have hx : x = -0.0 := eq_of_bits_eq (hzero.trans (by decide +kernel))
    rw [hx]
    decide +kernel

theorem isFinite_truncatedRemainder (hzero : (y == 0.0) = false) (hx : Math.isFinite x = true)
    (hy : Math.isFinite y = true) : Math.isFinite (truncatedRemainder x y) = true := by
  obtain ⟨negative, m, q, hxparts, hm, hqlow, hqhigh⟩ := exists_parts hx
  obtain ⟨negative', n, r, hyparts, hn, hrlow, hrhigh⟩ := exists_parts hy
  have hpos : 0 < n := Nat.pos_of_ne_zero fun h => by
    rw [isZero_of_parts (h ▸ hyparts)] at hzero
    cases hzero
  rw [truncatedRemainder, hxparts, hyparts]
  simp only [Nat.pow_eq]
  refine isFinite_ofParts negative ?_ (by omega) (by omega)
  -- the number with the lower exponent is not shifted
  rcases le_total q r with hle | hle
  · rw [min_eq_left hle, Int.sub_self, Int.natAbs_zero, pow_zero, mul_one]
    exact (Nat.mod_le m _).trans_lt hm
  · rw [min_eq_right hle, Int.sub_self, Int.natAbs_zero, pow_zero, mul_one]
    exact (Nat.mod_lt _ hpos).trans hn

theorem isFinite_add (hx : Math.isFinite x = true) (hy : Math.isFinite y = true)
    (h : decide (y < 0.0) ≠ decide (x < 0.0)) : Math.isFinite (x + y) = true := by
  have hlt (z : Float) : decide (z < 0.0) = z.toModel.unpack.lt (.zero .positive) := by
    rw [Bool.eq_iff_iff, decide_eq_true_iff]
    exact decide_eq_true_iff
  rw [hlt, hlt] at h
  exact isFinite_pack (fits_add (fits_of_isFinite hx) (fits_of_isFinite hy) h.symm)

theorem isFinite_remainder (hzero : (y == 0.0) = false) (hx : Math.isFinite x = true)
    (hy : Math.isFinite y = true) : Math.isFinite (remainder x y) = true := by
  have hr := isFinite_truncatedRemainder hzero hx hy
  unfold remainder
  simp only
  split
  · split <;> decide +kernel
  · split
    · next h => exact isFinite_add hr hy (by simpa using h)
    · exact hr

/-! ## Functions -/

theorem isFinite_roundBy (away : Bool → Nat → Nat → Bool) (hx : Math.isFinite x = true) :
    Math.isFinite (roundBy away x) = true := by
  obtain ⟨negative, m, q, hparts, hm, -, -⟩ := exists_parts hx
  rw [roundBy, hparts]
  simp only [Nat.pow_eq]
  split
  · exact hx
  · have hsmall : m / 2 ^ q.natAbs < 2 ^ 53 := (Nat.div_le_self m _).trans_lt hm
    have hfinite :
        Math.isFinite (Float.ofNat (if away negative (m % 2 ^ q.natAbs) (2 ^ q.natAbs) then
        m / 2 ^ q.natAbs + 1 else m / 2 ^ q.natAbs)) = true := by
      apply isFinite_ofNat
      split <;> omega
    split
    · exact isFinite_neg hfinite
    · exact hfinite

theorem isFinite_of_not (hnan : ¬x.isNaN = true) (hinf : ¬x.isInf = true) :
    Math.isFinite x = true := by
  rw [Math.isFinite, Bool.eq_false_of_not_eq_true hnan, Bool.eq_false_of_not_eq_true hinf]
  rfl

/-- A function that looks at its result. -/
theorem isFinite_real {grows : Bool} {f : Float → Float} (hx : Math.isFinite x = true)
    (h : Math.real grows f x = .ok y) : Math.isFinite y = true := by
  have hnan : x.isNaN = false := by simpa using (Bool.and_eq_true_iff.1 hx).1
  unfold Math.real at h
  simp only [hnan, hx, Bool.not_false, Bool.and_true] at h
  split at h
  · cases h
  · next hy =>
      split at h
      · cases h
      · next hy' =>
          cases h
          exact isFinite_of_not hy hy'

theorem isFinite_real₂ {z : Float} {f : Float → Float → Float} (hx : Math.isFinite x = true)
    (hy : Math.isFinite y = true) (h : Math.real₂ f x y = .ok z) : Math.isFinite z = true := by
  have hxnan : x.isNaN = false := by simpa using (Bool.and_eq_true_iff.1 hx).1
  have hynan : y.isNaN = false := by simpa using (Bool.and_eq_true_iff.1 hy).1
  unfold Math.real₂ at h
  simp only [hxnan, hynan, hx, hy, Bool.not_false, Bool.and_true] at h
  split at h
  · cases h
  · next hz =>
      split at h
      · cases h
      · next hz' =>
          cases h
          exact isFinite_of_not hz hz'

theorem isFinite_ln (hx : Math.isFinite x = true) (h : Math.ln x = .ok y) :
    Math.isFinite y = true := by
  unfold Math.ln at h
  split at h
  · cases h
    exact hx
  · split at h
    · exact isFinite_real hx h
    · cases h

theorem isFinite_logTo {b : Float} (hb : Math.isFinite b = true) (hx : Math.isFinite x = true)
    (h : Math.logTo b x = .ok y) : Math.isFinite y = true := by
  unfold Math.logTo at h
  cases hn : Math.ln x with
  | error e =>
    rw [hn] at h
    cases h
  | ok n =>
    cases hd : Math.ln b with
    | error e =>
      rw [hn, hd] at h
      cases h
    | ok d =>
      simp only [hn, hd, bind, Except.bind] at h
      split at h
      · cases h
      · exact isFinite_real₂ (isFinite_ln hx hn) (isFinite_ln hb hd) h

theorem isFinite_power {z : Float} (hx : Math.isFinite x = true) (hy : Math.isFinite y = true)
    (h : Math.power x y = .ok (some z)) : Math.isFinite z = true := by
  obtain ⟨hxnan, hxinf⟩ : x.isNaN = false ∧ x.isInf = false := by simpa [Math.isFinite] using hx
  obtain ⟨hynan, hyinf⟩ : y.isNaN = false ∧ y.isInf = false := by simpa [Math.isFinite] using hy
  unfold Math.power at h
  simp only [hxnan, hxinf, hynan, hyinf, Bool.false_eq_true, if_false] at h
  split at h
  · cases h
    decide +kernel
  · split at h
    · split at h
      · cases h
      · cases h
        split
        · exact hx
        · decide +kernel
    · generalize (if x.abs == 1.0 then 1.0 else x.abs.pow y) = p at h
      split at h
      · cases h
      · next hinf =>
          split at h
          · cases h
          · next hnan =>
              have hp : Math.isFinite p = true := isFinite_of_not hnan hinf
              split at h
              · cases h
              · cases h
                split
                · exact isFinite_neg hp
                · exact hp

theorem isFinite_unary {f : MathFunction} {g : Float → Except Fault Float}
    (hg : Math.unary? f = some g) (hx : Math.isFinite x = true) (h : g x = .ok y) :
    Math.isFinite y = true := by
  cases f <;> cases hg
  case abs =>
    cases h
    exact isFinite_abs hx
  case ceil =>
    cases h
    exact isFinite_roundBy _ hx
  case floor =>
    cases h
    exact isFinite_roundBy _ hx
  case round =>
    cases h
    exact isFinite_roundBy _ hx
  case log => exact isFinite_logTo (by decide +kernel) hx h
  all_goals exact isFinite_real hx h

theorem isFinite_constants {name : String} (h : (name, Value.num x) ∈ Math.constants) :
    Math.isFinite x = true := by
  simp only [Math.constants, List.mem_cons, List.not_mem_nil, or_false, Prod.mk.injEq] at h
  rcases h with ⟨-, h⟩ | ⟨-, h⟩ | ⟨-, h⟩ | ⟨-, h⟩ | ⟨-, h⟩ | ⟨-, h⟩ | ⟨-, h⟩ | ⟨-, h⟩
  · obtain rfl := Value.num.inj h
    decide +kernel
  · obtain rfl := Value.num.inj h
    decide +kernel
  iterate 4
    · split at h
      · next hlog =>
          obtain rfl := Value.num.inj h
          exact isFinite_logTo (by decide +kernel) (by decide +kernel) hlog
      · cases h
  · obtain rfl := Value.num.inj h
    decide +kernel
  · obtain rfl := Value.num.inj h
    decide +kernel

/-- **Finite numbers are closed** under all that is not arithmetic. -/
theorem closed_isFinite : Number.Closed fun x => Math.isFinite x = true where
  neg := isFinite_neg
  remainder := isFinite_remainder
  count := by
    intro n x h
    simp only [Native.count] at h
    split at h
    · next hfinite =>
        cases h
        exact hfinite
    · cases h
  ordinal c := isFinite_ofNat (Nat.le_of_lt (lt_trans (UInt32.toNat_lt c.val) (by omega)))
  unary := isFinite_unary
  atan2 := isFinite_real₂
  power := isFinite_power
  random n hn := isFinite_ofParts false (by simpa using hn) (by omega) (by omega)
  constants := isFinite_constants
  guest := by decide +kernel

end LittleJ.Number
