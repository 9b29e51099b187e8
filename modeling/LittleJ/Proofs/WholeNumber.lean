import LittleJ.Number.Layout
import LittleJ.Number.Numeral
import Mathlib.Data.List.Basic
import Mathlib.Data.List.TakeWhile
import Mathlib.Tactic.Ring

/-!
# Whole numbers as doubles

A double holds a whole number of at most 53 bits exactly, so the decimal digits of such a number
read back as the very double they were printed from.

Both halves go through the parts of a double. Reading digits multiplies and rounds, and rounding a
number whose low bits are zero drops nothing. In the other direction a whole double is determined by
its sign and its whole number: its first bit fixes the exponent.
-/

open Float.Model Float.Model.UnpackedFloat

namespace LittleJ.Number

open Text List

variable {x y : Float} {negative : Bool} {q : Int} {n k : Nat}

/-! ## Bits and parts -/

/-- Whether a sign is negative. -/
def negativeSign : Sign → Bool
  | .negative => true
  | .positive => false

/-- The three fields of a packed double, as one number. -/
theorem toNat_packComponents (s : Sign) (e : BitVec 11) (f : BitVec 52) :
    (packComponents .binary64 s e f).toNat = (negativeSign s).toNat * 2 ^ 63 + e.toNat * 2 ^
    52 + f.toNat := by
  have hs : s.toBitVec.toNat = (negativeSign s).toNat := by cases s <;> rfl
  rw [packComponents, BitVec.toNat_append, ← Nat.shiftLeft_add_eq_or_of_lt f.isLt,
    BitVec.toNat_append,
    ← Nat.shiftLeft_add_eq_or_of_lt e.isLt, Nat.shiftLeft_eq, Nat.shiftLeft_eq, hs]
  ring

theorem parts_of_bits {e f : Nat} (he : e < 2048) (hf : f < 2 ^ 52)
    (h : x.toBits.toNat = negative.toNat * 2 ^ 63 + e * 2 ^ 52 + f) :
    parts x = if e = 2047 then if f = 0 then .infinite negative else .nan
      else if e = 0 then .finite negative f (-1074) else .finite negative (f + 2 ^ 52)
        (e - 1075) := by
  have hneg : negative.toNat ≤ 1 := Bool.toNat_le negative
  have h63 : (negative.toNat * 2 ^ 63 + e * 2 ^ 52 + f) / 2 ^ 63 = negative.toNat := by omega
  have h52 : (negative.toNat * 2 ^ 63 + e * 2 ^ 52 + f) / 2 ^ 52 % 2048 = e := by omega
  have h0 : (negative.toNat * 2 ^ 63 + e * 2 ^ 52 + f) % 2 ^ 52 = f := by omega
  have hsign : (negative.toNat == 1) = negative := by cases negative <;> rfl
  unfold parts
  simp only [Nat.pow_eq, h, h63, h52, h0, hsign, beq_iff_eq]

/-- The fields of a finite double, and how its parts come from them. -/
theorem fields_of_finite {m : Nat} (h : parts x = .finite negative m q) :
    ∃ e f : Nat, e < 2047 ∧ f < 2 ^ 52 ∧ x.toBits.toNat = negative.toNat * 2 ^ 63 + e * 2 ^ 52 + f ∧
      (e = 0 ∧ m = f ∧ q = -1074 ∨ 0 < e ∧ m = f + 2 ^ 52 ∧ q = e - 1075) := by
  have hlt : x.toBits.toNat < 2 ^ 64 := x.toBits.toNat_lt
  have hbits : x.toBits.toNat = (decide (2 ^ 63 ≤ x.toBits.toNat)).toNat * 2 ^ 63 +
      x.toBits.toNat / 2 ^ 52 % 2048 * 2 ^ 52 + x.toBits.toNat % 2 ^ 52 := by
    by_cases hneg : 2 ^ 63 ≤ x.toBits.toNat
    · rw [decide_eq_true hneg, Bool.toNat_true]
      omega
    · rw [decide_eq_false hneg, Bool.toNat_false]
      omega
  have hparts := parts_of_bits (Nat.mod_lt _ (by omega)) (Nat.mod_lt _ (by omega)) hbits
  rw [h] at hparts
  split at hparts
  · split at hparts <;> cases hparts
  · next hinf =>
      refine ⟨x.toBits.toNat / 2 ^ 52 % 2048, x.toBits.toNat % 2 ^ 52, by omega, by omega, ?_⟩
      split at hparts
      · next hzero =>
          injection hparts with hn hm hq
          exact ⟨hn ▸ hbits, .inl ⟨hzero, hm, hq⟩⟩
      · next hzero =>
          injection hparts with hn hm hq
          exact ⟨hn ▸ hbits, .inr ⟨Nat.pos_of_ne_zero hzero, hm, hq⟩⟩

theorem eq_of_bits_eq (h : x.toBits.toNat = y.toBits.toNat) : x = y := by
  obtain ⟨⟨b, _⟩⟩ := x
  obtain ⟨⟨c, _⟩⟩ := y
  have hbc : b = c := UInt64.toNat_inj.1 h
  subst hbc
  rfl

/-- A finite double is determined by its parts. -/
theorem eq_of_parts_eq {m : Nat} (hx : parts x = .finite negative m q)
    (hy : parts y = .finite negative m q) :
    x = y := by
  obtain ⟨e, f, _, _, hxbits, hxparts⟩ := fields_of_finite hx
  obtain ⟨e', f', _, _, hybits, hyparts⟩ := fields_of_finite hy
  have he : e = e' := by omega
  have hf : f = f' := by omega
  exact eq_of_bits_eq (by rw [hxbits, hybits, he, hf])

/-! ## Whole doubles -/

/-- The double is the whole number `n`, perhaps with a negative zero. -/
def IsInt (x : Float) (n : Int) : Prop :=
  isWhole x = true ∧ toInt? x = some n

/-- `k` is the number `m · 2 ^ q`. -/
def Scaled (k m : Nat) (q : Int) : Prop :=
  k * 2 ^ (-q).toNat = m * 2 ^ q.toNat

/-- The whole number of a whole double is its mantissa with zeros added or taken away. -/
theorem IsInt.parts_eq {n : Int} (h : IsInt x n) : ∃ m q, parts x = .finite (isNegative x) m q ∧
    Scaled n.natAbs m q ∧
      n = if isNegative x then -(n.natAbs : Int) else n.natAbs := by
  obtain ⟨hwhole, hint⟩ := h
  cases hparts : parts x with
  | nan => simp [toInt?, hparts] at hint
  | infinite negative => simp [toInt?, hparts] at hint
  | finite negative m q =>
    have hneg : isNegative x = negative := by rw [isNegative, hparts]
    simp only [isWhole, hparts, Nat.pow_eq] at hwhole
    simp only [toInt?, hparts, Nat.pow_eq, Option.some.injEq] at hint
    refine ⟨m, q, by rw [hneg], ?_⟩
    generalize hk : (if q < 0 then m / 2 ^ q.natAbs else m * 2 ^ q.natAbs) = k at hint
    have habs : n.natAbs = k := by
      rw [← hint]
      split <;> omega
    refine ⟨?_, by rw [hneg, habs]; exact hint.symm⟩
    rw [habs, Scaled, ← hk]
    by_cases hq : q < 0
    · rw [if_pos hq] at hwhole ⊢
      have hto : (-q).toNat = q.natAbs := by omega
      have hzero : q.toNat = 0 := by omega
      have hdvd : 2 ^ q.natAbs ∣ m := Nat.dvd_of_mod_eq_zero (by simpa using hwhole)
      rw [hto, hzero, Nat.div_mul_cancel hdvd, Nat.pow_zero, Nat.mul_one]
    · rw [if_neg hq]
      have hto : q.toNat = q.natAbs := by omega
      have hzero : (-q).toNat = 0 := by omega
      rw [hto, hzero, Nat.pow_zero, Nat.mul_one]

theorem isInt_of_parts {m : Nat} (h : parts x = .finite negative m q) (hk : Scaled k m q) :
    IsInt x (if negative then -(k : Int) else k) := by
  unfold Scaled at hk
  by_cases hq : q < 0
  · have hto : (-q).toNat = q.natAbs := by omega
    have hzero : q.toNat = 0 := by omega
    rw [hto, hzero, Nat.pow_zero, Nat.mul_one] at hk
    have hpos : 0 < 2 ^ q.natAbs := Nat.two_pow_pos _
    simp [IsInt, isWhole, toInt?, h, hq, ← hk, Nat.mul_div_cancel _ hpos]
  · have hto : q.toNat = q.natAbs := by omega
    have hzero : (-q).toNat = 0 := by omega
    rw [hto, hzero, Nat.pow_zero, Nat.mul_one] at hk
    simp [IsInt, isWhole, toInt?, h, hq, ← hk]

/-- Of two mantissas of one number, the one with the larger exponent is smaller by as many bits. -/
theorem Scaled.exponent_le {m m' : Nat} {q' : Int} (h : Scaled k m q) (h' : Scaled k m' q')
    (hhigh : m < 2 ^ 53) (hlow : 2 ^ 52 ≤ m') : q' ≤ q := by
  by_contra hlt
  obtain ⟨d, hd⟩ : ∃ d : Nat, q'.toNat + (-q).toNat = q.toNat + (-q').toNat + (d + 1) :=
    ⟨(q' - q - 1).toNat, by omega⟩
  have hcross :
      m * 2 ^ (q.toNat + (-q').toNat) = m' * 2 ^ (d + 1) * 2 ^ (q.toNat + (-q').toNat) := by
    calc m * 2 ^ (q.toNat + (-q').toNat)
        = k * 2 ^ (-q).toNat * 2 ^ (-q').toNat := by rw [pow_add, ← mul_assoc, ← h]
      _ = m' * 2 ^ q'.toNat * 2 ^ (-q).toNat := by rw [← h']; ring
      _ = m' * 2 ^ (q.toNat + (-q').toNat + (d + 1)) := by rw [← hd, pow_add, mul_assoc]
      _ = m' * 2 ^ (d + 1) * 2 ^ (q.toNat + (-q').toNat) := by rw [pow_add]; ring
  have hm : m = m' * 2 ^ (d + 1) := Nat.eq_of_mul_eq_mul_right (Nat.two_pow_pos _) hcross
  have hpow : 2 ≤ 2 ^ (d + 1) := by
    have := Nat.two_pow_pos d
    rw [pow_succ]
    omega
  have hle : 2 ^ 52 * 2 ≤ m' * 2 ^ (d + 1) := Nat.mul_le_mul hlow hpow
  omega

/-- The mantissa of a whole double has its top bit, unless the number is zero. -/
theorem Scaled.mantissa_cases {m : Nat} (hk : Scaled k m q) (h : parts x = .finite negative m q) :
    m = 0 ∧ q = -1074 ∧ k = 0 ∨ 2 ^ 52 ≤ m ∧ m < 2 ^ 53 ∧ k ≠ 0 := by
  obtain ⟨e, f, _, hf, _, hfields⟩ := fields_of_finite h
  unfold Scaled at hk
  rcases hfields with ⟨_, hm, hq⟩ | ⟨_, hm, hq⟩
  · -- a mantissa without its top bit is too small for a whole number
    left
    have hpow : 2 ^ 52 ≤ 2 ^ (-q).toNat := Nat.pow_le_pow_right (by omega) (by omega)
    have hzero : q.toNat = 0 := by omega
    rw [hzero, Nat.pow_zero, Nat.mul_one] at hk
    have hk0 : k = 0 := by
      by_contra hne
      have : 1 * 2 ^ (-q).toNat ≤ k * 2 ^ (-q).toNat := Nat.mul_le_mul_right _ (by omega)
      omega
    rw [hk0, Nat.zero_mul] at hk
    exact ⟨hk.symm, hq, hk0⟩
  · right
    refine ⟨by omega, by omega, fun hk0 => ?_⟩
    rw [hk0, Nat.zero_mul] at hk
    have hpos : 0 < m * 2 ^ q.toNat := Nat.mul_pos (by omega) (Nat.two_pow_pos _)
    omega

/-- A whole double is determined by its sign and its whole number. -/
theorem IsInt.eq {n : Int} (hx : IsInt x n) (hy : IsInt y n) (hneg : isNegative x = isNegative y) :
    x = y := by
  obtain ⟨m, q, hxparts, hxscaled, _⟩ := hx.parts_eq
  obtain ⟨m', q', hyparts, hyscaled, _⟩ := hy.parts_eq
  rw [← hneg] at hyparts
  have hparts : m = m' ∧ q = q' := by
    rcases hxscaled.mantissa_cases hxparts with ⟨hm, hq, hn⟩ | ⟨hlow, hhigh, hn⟩ <;>
      rcases hyscaled.mantissa_cases hyparts with ⟨hm', hq', hn'⟩ | ⟨hlow', hhigh', hn'⟩
    · exact ⟨hm.trans hm'.symm, hq.trans hq'.symm⟩
    · exact absurd hn hn'
    · exact absurd hn' hn
    · have hq : q = q' :=
        Int.le_antisymm (hyscaled.exponent_le hxscaled hhigh' hlow)
        (hxscaled.exponent_le hyscaled hhigh hlow')
      subst hq
      exact ⟨Nat.eq_of_mul_eq_mul_right (Nat.two_pow_pos q.toNat) (hxscaled.symm.trans hyscaled),
        rfl⟩
  rw [← hparts.1, ← hparts.2] at hyparts
  exact eq_of_parts_eq hxparts hyparts

/-! ## Rounding a number that fits -/

/-- A mantissa with its top bit, and an exponent that a double can have. -/
structure Normal (m : Nat) (e : Int) : Prop where
  low : 2 ^ 52 ≤ m
  high : m < 2 ^ 53
  least : -1074 ≤ e
  most : e ≤ 971

namespace Normal

variable {m : Nat} {e : Int}

theorem pos (h : Normal m e) : 0 < m :=
  Nat.lt_of_lt_of_le (Nat.two_pow_pos 52) h.low

theorem log2_shifted (h : Normal m e) (j : Nat) : (m * 2 ^ j).log2 = 52 + j := by
  have hne : m * 2 ^ j ≠ 0 := Nat.mul_ne_zero h.pos.ne' (Nat.two_pow_pos j).ne'
  have hle : 2 ^ (52 + j) ≤ m * 2 ^ j := by
    rw [pow_add]
    exact Nat.mul_le_mul_right _ h.low
  have hlt : m * 2 ^ j < 2 ^ (53 + j) := by
    rw [pow_add]
    exact Nat.mul_lt_mul_of_pos_right h.high (Nat.two_pow_pos j)
  have hlow := (Nat.le_log2 hne).2 hle
  have hhigh := (Nat.log2_lt hne).2 hlt
  omega

theorem log2 (h : Normal m e) : m.log2 = 52 := by
  simpa using h.log2_shifted 0

end Normal

theorem shiftRight_exact (m j : Nat) : (⟨m * 2 ^ j, false, false⟩ : ExtendedMantissa) >>> j =
    ⟨m, false, false⟩ := by
  show j.repeat ExtendedMantissa.shiftRightOne ⟨m * 2 ^ j, false, false⟩ = _
  induction j generalizing m with
  | zero => simp [Nat.repeat]
  | succ j ih =>
    have hstep := ih (m * 2)
    rw [mul_assoc, ← pow_succ'] at hstep
    rw [Nat.repeat, hstep]
    simp [ExtendedMantissa.shiftRightOne]

theorem Normal.shiftToTargetExponent {m : Nat} {e : Int} (h : Normal m e) (j : Nat) :
    shiftToTargetExponent .binary64 (m * 2 ^ j) (e - j) .exact = (⟨m, false, false⟩, e) := by
  have hleast := h.least
  have htarget : Format.binary64.targetExponent (totalExponent (m * 2 ^ j) (e - j)) = e := by
    have hbits : (Format.binary64.mantissaBits : Int) = 53 := rfl
    have hmin : Format.binary64.minExponent = -1074 := rfl
    rw [Format.targetExponent, totalExponent, h.log2_shifted, hbits, hmin]
    omega
  have hshift : (e - (e - (j : Int))).toNat = j := by omega
  rw [UnpackedFloat.shiftToTargetExponent, shiftToExponent, htarget, hshift]
  exact Prod.ext (shiftRight_exact m j) (by show e - (j : Int) + j = e; omega)

/-- Rounding drops nothing but zeros from a number of 53 bits. -/
theorem Normal.roundWithAccuracy {m : Nat} {e : Int} (h : Normal m e) (s : Sign) (j : Nat) :
    roundWithAccuracy .binary64 s (m * 2 ^ j) (e - j) .exact = .finite s m e h.pos := by
  have hagain := h.shiftToTargetExponent 0
  rw [Nat.pow_zero, Nat.mul_one, Int.natCast_zero, Int.sub_zero] at hagain
  have hround : (⟨m, false, false⟩ : ExtendedMantissa).roundedMantissa = m := rfl
  rw [UnpackedFloat.roundWithAccuracy, h.shiftToTargetExponent j]
  dsimp only
  rw [hround, hagain]
  exact dif_neg h.pos.ne'

/-! ## Packing -/

theorem ofBitVec_unpackSign (b : BitVec 64) :
    Sign.ofBitVec (@unpackSign .binary64 b) = if b.toNat < 2 ^ 63 then .positive
    else .negative := by
  have hbit : (@unpackSign .binary64 b).toNat = b.toNat / 2 ^ 63 % 2 := by
    delta unpackSign
    simp [BitVec.extractLsb, Nat.shiftRight_eq_div_pow]
  have hlt : b.toNat < 2 ^ 64 := b.isLt
  have hzero : @unpackSign .binary64 b = 0#1 ↔ b.toNat < 2 ^ 63 := by
    rw [← BitVec.toNat_inj, hbit, BitVec.toNat_ofNat]
    omega
  unfold Sign.ofBitVec
  exact if_congr hzero rfl rfl

theorem unpackSign_packComponents (s : Sign) (e : BitVec 11) (f : BitVec 52) :
    Sign.ofBitVec (unpackSign (packComponents .binary64 s e f)) = s := by
  have he : e.toNat < 2 ^ 11 := e.isLt
  have hf : f.toNat < 2 ^ 52 := f.isLt
  rw [ofBitVec_unpackSign, toNat_packComponents]
  cases s with
  | positive => exact if_pos (by simp only [negativeSign, Bool.toNat_false]; omega)
  | negative => exact if_neg (by simp only [negativeSign, Bool.toNat_true]; omega)

theorem Normal.pack {m : Nat} {e : Int} (h : Normal m e) (s : Sign) :
    UnpackedFloat.pack .binary64 (.finite s m e h.pos) =
      packComponents .binary64 s (BitVec.ofNat 11 (e + 1075).toNat) (BitVec.ofNat 52 m) := by
  have hbias : (Format.binary64.exponentBias : Int) + (Format.binary64.mantissaBitsWithoutImplicit :
      Int) = 1075 := rfl
  have hbits : 52 + 1 = Format.binary64.mantissaBits := rfl
  have hmost := h.most
  delta UnpackedFloat.pack
  simp only [h.log2, add_assoc, hbias]
  rw [if_neg (by omega), if_pos hbits]

theorem finite_congr {s s' : Sign} {m m' : Nat} {e e' : Int} {h : 0 < m} {h' : 0 < m'} (hs : s = s')
    (hm : m = m') (he : e = e') : UnpackedFloat.finite s m e h = .finite s' m' e' h' := by
  subst hs hm he
  rfl

/-- A double with its top bit survives packing. -/
theorem Normal.unpack_pack {m : Nat} {e : Int} (h : Normal m e) (s : Sign) :
    (Float.Model.pack (.finite s m e h.pos)).unpack = .finite s m e h.pos := by
  obtain ⟨hlow, hhigh, hleast, hmost⟩ := id h
  have hexp : (BitVec.ofNat 11 (e + 1075).toNat).toNat = (e + 1075).toNat := by
    rw [BitVec.toNat_ofNat]
    omega
  have hmax : BitVec.ofNat 11 (e + 1075).toNat ≠ -1#11 := fun heq => by
    have hval : (e + 1075).toNat = 2047 := hexp.symm.trans (congrArg BitVec.toNat heq)
    omega
  have hmin : BitVec.ofNat 11 (e + 1075).toNat ≠ 0#11 := fun heq => by
    have hval : (e + 1075).toNat = 0 := hexp.symm.trans (congrArg BitVec.toNat heq)
    omega
  have hmant : (1#1 ++ BitVec.ofNat 52 m).toNat = m := by
    rw [BitVec.toNat_append, ← Nat.shiftLeft_add_eq_or_of_lt (BitVec.ofNat 52 m).isLt,
      BitVec.toNat_ofNat, Nat.shiftLeft_eq, BitVec.toNat_ofNat]
    omega
  have hbias :
      ((Format.binary64.exponentBias : Int) + (Format.binary64.mantissaBitsWithoutImplicit : Int)) =
        1075 := rfl
  show UnpackedFloat.unpack .binary64 (UnpackedFloat.pack .binary64 (.finite s m e h.pos)) = _
  rw [h.pack s]
  obtain ⟨b, hb⟩ :
      ∃ b, packComponents .binary64 s (BitVec.ofNat 11 (e + 1075).toNat) (BitVec.ofNat 52 m) = b :=
    ⟨_, rfl⟩
  have hexponent : @unpackExponent .binary64 b = BitVec.ofNat 11 (e + 1075).toNat := by
    rw [← hb]
    exact unpackExponent_packComponents
  have hmantissa : @unpackMantissa .binary64 b = BitVec.ofNat 52 m := by
    rw [← hb]
    exact unpackMantissa_packComponents
  have hsign : Sign.ofBitVec (@unpackSign .binary64 b) = s := by
    rw [← hb]
    exact unpackSign_packComponents s _ _
  rw [hb]
  delta UnpackedFloat.unpack
  dsimp only
  rw [if_neg (hexponent ▸ hmax), if_neg (hexponent ▸ hmin)]
  refine finite_congr hsign (hmantissa ▸ hmant) ?_
  rw [hexponent, hbias, hexp]
  omega

theorem Normal.parts_pack {m : Nat} {e : Int} (h : Normal m e) (s : Sign) :
    parts (Float.ofModel (Float.Model.pack (.finite s m e h.pos))) =
      .finite (negativeSign s) m e := by
  obtain ⟨hlow, hhigh, hleast, hmost⟩ := id h
  have hbits : (Float.ofModel (Float.Model.pack (.finite s m e h.pos))).toBits.toNat =
      (negativeSign s).toNat * 2 ^ 63 + (e + 1075).toNat * 2 ^ 52 + (m - 2 ^ 52) := by
    show (UnpackedFloat.pack .binary64 (.finite s m e h.pos)).toNat = _
    rw [h.pack, toNat_packComponents, BitVec.toNat_ofNat, BitVec.toNat_ofNat]
    omega
  rw [parts_of_bits (by omega) (by omega) hbits, if_neg (by omega), if_neg (by omega)]
  congr 1 <;> omega

/-! ## Digits of a whole number -/

/-- A positive number of at most 53 bits, moved up to its top bit. -/
theorem normal_shifted (hpos : 0 < n) (h : n < 2 ^ 53) :
    Normal (n * 2 ^ (52 - n.log2)) (n.log2 - 52) ∧
    Scaled n (n * 2 ^ (52 - n.log2)) (n.log2 - 52) := by
  have hlog : n.log2 ≤ 52 := Nat.lt_succ_iff.1 ((Nat.log2_lt hpos.ne').2 h)
  have hsplit : n.log2 + (52 - n.log2) = 52 := by omega
  have hlow : 2 ^ n.log2 ≤ n := Nat.log2_self_le hpos.ne'
  have hhigh : n < 2 ^ (n.log2 + 1) := Nat.lt_log2_self
  refine ⟨⟨?_, ?_, by omega, by omega⟩, ?_⟩
  · calc 2 ^ 52 = 2 ^ n.log2 * 2 ^ (52 - n.log2) := by rw [← pow_add, hsplit]
      _ ≤ n * 2 ^ (52 - n.log2) := Nat.mul_le_mul_right _ hlow
  · calc n * 2 ^ (52 - n.log2) < 2 ^ (n.log2 + 1) * 2 ^ (52 - n.log2) :=
          Nat.mul_lt_mul_of_pos_right hhigh (Nat.two_pow_pos _)
      _ = 2 ^ 53 := by rw [← pow_add]; congr 1; omega
  · have hneg : (-((n.log2 : Int) - 52)).toNat = 52 - n.log2 := by omega
    have hzero : ((n.log2 : Int) - 52).toNat = 0 := by omega
    rw [Scaled, hneg, hzero, Nat.pow_zero, Nat.mul_one]

theorem ofNat_eq (hpos : 0 < n) (h : n < 2 ^ 53) : UnpackedFloat.ofNat .binary64 n =
      .finite .positive (n * 2 ^ (52 - n.log2)) (n.log2 - 52) (normal_shifted hpos h).1.pos := by
  have hnormal := (normal_shifted hpos h).1
  have hlog : n.log2 ≤ 52 := Nat.lt_succ_iff.1 ((Nat.log2_lt hpos.ne').2 h)
  have hcompare : compare (n : Int) 0 = .gt := by
    rw [Int.compare_eq_gt]
    omega
  have htarget : Format.binary64.targetExponent (totalExponent n 0) = n.log2 - 52 := by
    have hbits : (Format.binary64.mantissaBits : Int) = 53 := rfl
    have hmin : Format.binary64.minExponent = -1074 := rfl
    rw [Format.targetExponent, totalExponent, hbits, hmin]
    omega
  have hshift : (0 - ((n.log2 : Int) - 52)).toNat = 52 - n.log2 := by omega
  have hround := hnormal.roundWithAccuracy .positive 0
  rw [UnpackedFloat.ofNat, UnpackedFloat.ofInt, UnpackedFloat.normalize, hcompare, ← hround]
  simp only [UnpackedFloat.round, Int.toNat_natCast, htarget, decreaseExponent, hshift,
    Nat.shiftLeft_eq]
  congr 1 <;> simp
  omega

/-- The double that a positive number of at most 53 bits is read as. -/
theorem toModel_ofDecimal (hpos : 0 < n) (h : n ≤ 2 ^ 53) :
    ∃ (m : Nat) (e : Int) (hn : Normal m e), Scaled n m e ∧
      (ofDecimal n 0).toModel = Float.Model.pack (.finite .positive m e hn.pos) := by
  rcases Nat.lt_or_eq_of_le h with hlt | rfl
  · obtain ⟨hnormal, hscaled⟩ := normal_shifted hpos hlt
    refine ⟨_, _, hnormal, hscaled, ?_⟩
    have hdecimal : ofDecimal n 0 = n.toUInt64.toFloat * Float.ofBits 0x3FF0000000000000 := by
      have hne : (n == 0) = false := by simpa using hpos.ne'
      have hlen : (Nat.toDigits 10 n).length ≤ 16 :=
        (Nat.length_toDigits_le_iff (by omega) (by omega)).2 (by omega)
      rw [ofDecimal, hne, if_neg (by simp), if_neg (by omega), if_neg (by omega), if_neg (by omega),
        Float.ofScientific, dif_pos ⟨hlt, by simp⟩]
      rfl
    have hone : (Float.ofBits 0x3FF0000000000000).toModel.unpack =
        .finite .positive (2 ^ 52) (-52) (Nat.two_pow_pos 52) := rfl
    have hnum : n.toUInt64.toFloat.toModel =
        Float.Model.pack (.finite .positive (n * 2 ^ (52 - n.log2)) (n.log2 - 52) hnormal.pos) := by
      have hto : n.toUInt64.toNat = n := Nat.mod_eq_of_lt (by omega)
      show Float.Model.pack (UnpackedFloat.ofNat .binary64 n.toUInt64.toNat) = _
      rw [hto, ofNat_eq hpos hlt]
    calc (ofDecimal n 0).toModel
        = Float.Model.pack (UnpackedFloat.mul .binary64 n.toUInt64.toFloat.toModel.unpack
            (Float.ofBits 0x3FF0000000000000).toModel.unpack) := by rw [hdecimal]; rfl
      _ =
        Float.Model.pack (.finite .positive (n * 2 ^ (52 - n.log2)) (n.log2 - 52) hnormal.pos) := by
        rw [hnum, hnormal.unpack_pack, hone]
        exact congrArg Float.Model.pack (hnormal.roundWithAccuracy .positive 52)
  · have hscaled : 2 ^ 53 * 2 ^ 0 = 2 ^ 52 * 2 ^ 1 := by omega
    exact ⟨2 ^ 52, 1, ⟨by omega, by omega, by omega, by omega⟩, hscaled, by decide +kernel⟩

/-- A number of at most 53 bits is read exactly. -/
theorem isInt_ofDecimal (h : n ≤ 2 ^ 53) :
    IsInt (ofDecimal n 0) n ∧ isNegative (ofDecimal n 0) = false := by
  rcases Nat.eq_zero_or_pos n with rfl | hpos
  · unfold IsInt
    decide +kernel
  · obtain ⟨m, e, hn, hscaled, hmodel⟩ := toModel_ofDecimal hpos h
    have hparts : parts (ofDecimal n 0) = .finite false m e := by
      rw [show ofDecimal n 0 = Float.ofModel (ofDecimal n 0).toModel from rfl, hmodel,
        hn.parts_pack]
      rfl
    exact ⟨isInt_of_parts hparts hscaled, by rw [isNegative, hparts]⟩

/-- And so is its negative. -/
theorem isInt_neg_ofDecimal (hpos : 0 < n) (h : n ≤ 2 ^ 53) : IsInt (-ofDecimal n 0) (-n) := by
  obtain ⟨m, e, hn, hscaled, hmodel⟩ := toModel_ofDecimal hpos h
  have hneg :
      -ofDecimal n 0 = Float.ofModel (Float.Model.pack (ofDecimal n 0).toModel.unpack.neg) := rfl
  have hparts : parts (-ofDecimal n 0) = .finite true m e := by
    rw [hneg, hmodel, hn.unpack_pack]
    exact hn.parts_pack .negative
  exact isInt_of_parts hparts hscaled

/-! ## Reading digits -/

theorem toNat_of_isDigit {c : Char} (h : isDigit c = true) : 48 ≤ c.toNat ∧ c.toNat ≤ 57 := by
  obtain ⟨hlow, hhigh⟩ : '0' ≤ c ∧ c ≤ '9' := by simpa [isDigit] using h
  exact ⟨hlow, hhigh⟩

theorem ne_of_isDigit {c d : Char} (hc : isDigit c = true) (hd : isDigit d = false) : c ≠ d := by
  rintro rfl
  rw [hc] at hd
  cases hd

theorem stripMargins_eq_self {cs : List Char} (h : ∀ c ∈ cs, isMargin c = false) :
    stripMargins cs = cs := by
  have hdrop {cs : List Char} (h : ∀ c ∈ cs, isMargin c = false) : cs.dropWhile isMargin = cs := by
    cases cs with
    | nil => rfl
    | cons c cs => rw [dropWhile_cons_of_neg (by simp [h c (mem_cons_self ..)])]
  rw [stripMargins, hdrop h, hdrop (fun c hc => h c (List.mem_reverse.1 hc)), reverse_reverse]

section Digits

variable {ds : List Char} (hds : ∀ c ∈ ds, isDigit c = true)

include hds

theorem stripMargins_of_digits : stripMargins ds = ds := by
  refine stripMargins_eq_self fun c hc => ?_
  have hnum := toNat_of_isDigit (hds c hc)
  simp only [isMargin, isBlank, Bool.or_eq_false_iff, Bool.and_eq_false_iff,
    decide_eq_false_iff_not, beq_eq_false_iff_ne]
  omega

theorem dropUnderscores_of_digits (prev : Option Char) : dropUnderscores? prev ds = some ds := by
  induction ds generalizing prev with
  | nil => rfl
  | cons c ds ih =>
    obtain ⟨hc, hds⟩ := List.forall_mem_cons.1 hds
    have hne : (c == '_') = false := by simpa using ne_of_isDigit hc rfl
    rw [dropUnderscores?, hne, if_neg (by simp), ih hds]
    rfl

theorem unsigned_of_digits (hne : ds ≠ []) : unsigned? ds = some (ofDecimal (valueOf ds) 0) := by
  have htake : ds.takeWhile isDigit = ds := List.takeWhile_eq_self_iff.2 hds
  have hdrop : ds.dropWhile isDigit = [] := List.dropWhile_eq_nil_iff.2 hds
  simp [unsigned?, htake, hdrop, hne]

theorem magnitude_of_digits (hne : ds ≠ []) : magnitude? ds = some (ofDecimal (valueOf ds) 0) := by
  have hword {w : String} (hw : w.toList.head?.any isDigit = false) :
      (String.ofList (ds.map Char.toLower) == w) = false := by
    obtain ⟨d, ds, rfl⟩ := exists_cons_of_ne_nil hne
    have hd := hds d (mem_cons_self ..)
    have hlower : d.toLower = d := by
      have hnum := toNat_of_isDigit hd
      have hupper : ¬(d.val ≥ 'A'.val ∧ d.val ≤ 'Z'.val) := fun h => by
        have hlow : 65 ≤ d.toNat := h.1
        omega
      exact dif_neg hupper
    rw [beq_eq_false_iff_ne]
    rintro rfl
    simp [hlower, hd] at hw
  rw [magnitude?, hword rfl, hword rfl, hword rfl, if_neg (by simp), if_neg (by simp),
    unsigned_of_digits hds hne]

/-- Digits stand for the number of their value. -/
theorem read_of_digits (hne : ds ≠ []) :
    read? (String.ofList ds) = some (ofDecimal (valueOf ds) 0) := by
  have hsign {c : Char} {r : List Char} (hc : isDigit c = false) : ds ≠ c :: r := by
    rintro rfl
    exact ne_of_isDigit (hds c (mem_cons_self ..)) hc rfl
  rw [read?, String.toList_ofList, stripMargins_of_digits hds, dropUnderscores_of_digits hds]
  simp only [Option.bind_eq_bind, Option.bind_some]
  split
  · exact absurd rfl (hsign rfl)
  · exact absurd rfl (hsign rfl)
  · exact magnitude_of_digits hds hne

end Digits

theorem digitsOf_ne_nil (n : Nat) : digitsOf n ≠ [] :=
  Nat.toDigits_ne_nil

theorem isDigit_of_mem_digitsOf : ∀ c ∈ digitsOf n, isDigit c = true :=
  fun _ hc => Nat.isDigit_of_mem_toDigits (by omega) (by omega) hc

theorem valueOf_digitsOf (n : Nat) : valueOf (digitsOf n) = n :=
  Nat.ofDigitChars_ten_toDigits

/-- The digits of a number read back. -/
theorem read_digitsOf (n : Nat) : read? (String.ofList (digitsOf n)) = some (ofDecimal n 0) := by
  rw [read_of_digits isDigit_of_mem_digitsOf (digitsOf_ne_nil n), valueOf_digitsOf]

/-- No digits but those of zero start with a zero. -/
theorem head_digitsOf (hpos : 0 < n) : (digitsOf n).head? ≠ some '0' := by
  induction n using Nat.strongRecOn with
  | ind n ih =>
    unfold digitsOf at ih ⊢
    rw [Nat.toDigits_eq_if (by omega)]
    split
    · next hlt =>
        intro h
        have hchar : n.digitChar = '0' := by simpa using h
        have hval := Nat.toNat_digitChar_of_lt_ten hlt
        rw [hchar] at hval
        have hzero : '0'.toNat = 48 := rfl
        omega
    · rw [head?_append_of_ne_nil _ Nat.toDigits_ne_nil]
      exact ih (n / 10) (by omega) (by omega)

theorem isDecimalText_digitsOf (n : Nat) : isDecimalText (String.ofList (digitsOf n)) = true := by
  rcases Nat.eq_zero_or_pos n with rfl | hpos
  · rfl
  · have hhead := head_digitsOf hpos
    rw [isDecimalText, String.toList_ofList]
    split
    · rfl
    · next heq =>
        rw [heq] at hhead
        exact absurd rfl hhead
    · rfl

theorem toList_integerText (n : Int) :
    (integerText n).toList = if n < 0 then '-' :: digitsOf n.natAbs else digitsOf n.natAbs := by
  rw [integerText]
  split <;> simp

end LittleJ.Number
