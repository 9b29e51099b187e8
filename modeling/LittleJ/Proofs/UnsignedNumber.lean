import LittleJ.Proofs.Spacing
import LittleJ.Proofs.WholeNumber

/-!
# Numerals without a sign

A numeral stands for a negative number only if a minus sign stands in front of it. Digits are turned
into a double by rounding, multiplying and dividing, and none of these makes a sign of its own: the
sign of a product or quotient comes from its factors, and the sign of a zero or an infinity does
too.

A word of code is never such a numeral with a minus sign, for there a sign is followed by signs
alone.
-/

open Float.Model Float.Model.UnpackedFloat

namespace LittleJ.Number

open Lexer List

/-! ## Arithmetic without a sign -/

/-- The sign bit of the double is not set. -/
def Unsigned (x : Float) : Prop :=
  x.toBits.toNat < 2 ^ 63

/-- The sign of an unpacked double is positive, if it has one. -/
def Positive : UnpackedFloat → Prop
  | .infinity s | .zero s | .finite s _ _ _ => s = .positive
  | .notANumber => True

theorem Unsigned.isNegative {x : Float} (h : Unsigned x) : isNegative x = false := by
  have hbits : x.toBits.toNat = false.toNat * 2 ^ 63 + x.toBits.toNat / 2 ^ 52 * 2 ^ 52 +
      x.toBits.toNat % 2 ^ 52 := by
    rw [Bool.toNat_false]
    omega
  have hexponent : x.toBits.toNat / 2 ^ 52 < 2048 := by
    unfold Unsigned at h
    omega
  have hparts := parts_of_bits hexponent (Nat.mod_lt _ (by omega)) hbits
  split at hparts <;> split at hparts <;> simp [Number.isNegative, hparts]

theorem packComponents_positive (e : BitVec 11) (f : BitVec 52) :
    (packComponents .binary64 .positive e f).toNat < 2 ^ 63 := by
  have he : e.toNat < 2 ^ 11 := e.isLt
  have hf : f.toNat < 2 ^ 52 := f.isLt
  rw [toNat_packComponents, negativeSign, Bool.toNat_false]
  omega

theorem unsigned_pack {u : UnpackedFloat} (h : Positive u) :
    Unsigned (Float.ofModel (Float.Model.pack u)) := by
  show (UnpackedFloat.pack .binary64 u).toNat < 2 ^ 63
  cases u with
  | notANumber => exact packComponents_positive _ _
  | infinity s =>
    obtain rfl : s = .positive := h
    exact packComponents_positive _ _
  | zero s =>
    obtain rfl : s = .positive := h
    exact packComponents_positive _ _
  | finite s m e hm =>
    obtain rfl : s = .positive := h
    delta UnpackedFloat.pack
    dsimp only
    split
    · exact packComponents_positive _ _
    · split <;> exact packComponents_positive _ _

theorem positive_dite {p : Prop} [Decidable p] {u : p → UnpackedFloat} {v : ¬p → UnpackedFloat}
    (hu : ∀ h, Positive (u h)) (hv : ∀ h, Positive (v h)) :
    Positive (if h : p then u h else v h) := by
  by_cases h : p
  · rw [dif_pos h]
    exact hu h
  · rw [dif_neg h]
    exact hv h

theorem positive_unpack {x : Float} (h : Unsigned x) : Positive x.toModel.unpack := by
  have hsign : Sign.ofBitVec (@unpackSign .binary64 x.toBits.toBitVec) = .positive := by
    rw [ofBitVec_unpackSign]
    exact if_pos h
  show Positive (UnpackedFloat.unpack .binary64 x.toBits.toBitVec)
  delta UnpackedFloat.unpack
  refine iteInduction (fun _ => ?_) fun _ => iteInduction (fun _ => ?_) fun _ => hsign
  · exact iteInduction (fun _ => hsign) fun _ => trivial
  · exact positive_dite (fun _ => hsign) fun _ => hsign

theorem positive_roundWithAccuracy (m : Nat) (e : Int) (accuracy : Accuracy) :
    Positive (roundWithAccuracy .binary64 .positive m e accuracy) := by
  rw [roundWithAccuracy]
  exact positive_dite (fun _ => rfl) fun _ => rfl

theorem positive_mul {u v : UnpackedFloat} (hu : Positive u) (hv : Positive v) :
    Positive (UnpackedFloat.mul .binary64 u v) := by
  -- what is not a number has no sign, and all else the product of two positive ones
  cases u <;> cases v <;> first | exact True.intro | cases hu; cases hv
  case finite.finite => exact positive_roundWithAccuracy ..
  all_goals rfl

theorem positive_div {u v : UnpackedFloat} (hu : Positive u) (hv : Positive v) :
    Positive (UnpackedFloat.div .binary64 u v) := by
  cases u <;> cases v <;> first | exact True.intro | cases hu; cases hv
  case finite.finite => exact positive_roundWithAccuracy ..
  all_goals rfl

theorem positive_ofNat (n : Nat) : Positive (UnpackedFloat.ofNat .binary64 n) := by
  rw [UnpackedFloat.ofNat, UnpackedFloat.ofInt, UnpackedFloat.normalize]
  split
  · next hlt => exact absurd (Int.compare_eq_lt.1 hlt) (by omega)
  · rfl
  · exact positive_roundWithAccuracy ..

theorem positive_ofScientific (m : Nat) (e : Int) :
    Positive (UnpackedFloat.ofScientific .binary64 m e) := by
  rw [UnpackedFloat.ofScientific]
  refine positive_dite (fun _ => rfl) fun _ => ?_
  refine iteInduction (fun _ => rfl) fun _ => ?_
  refine iteInduction (fun _ => rfl) fun _ => ?_
  exact iteInduction (fun _ => positive_mul rfl rfl) fun _ => positive_div rfl rfl

section

variable {x y : Float}

theorem Unsigned.mul (hx : Unsigned x) (hy : Unsigned y) : Unsigned (x * y) :=
  unsigned_pack (positive_mul (positive_unpack hx) (positive_unpack hy))

theorem Unsigned.div (hx : Unsigned x) (hy : Unsigned y) : Unsigned (x / y) :=
  unsigned_pack (positive_div (positive_unpack hx) (positive_unpack hy))

end

/-! ## Numerals -/

theorem unsigned_ofScientific (m : Nat) (s : Bool) (e : Nat) :
    Unsigned (Float.ofScientific m s e) := by
  have hpowers : ∀ x ∈ Float.exactlyRepresentablePowersOfTen, Unsigned x := by
    unfold Unsigned
    decide +kernel
  have hnum (n : UInt64) : Unsigned n.toFloat := unsigned_pack (positive_ofNat _)
  rw [Float.ofScientific]
  split
  · next h =>
      have hlt : e < Float.exactlyRepresentablePowersOfTen.size := Nat.lt_succ_of_le h.2
      have hpower := hpowers _ (Array.getElem_mem hlt)
      split
      · exact (hnum _).div hpower
      · exact (hnum _).mul hpower
  · exact unsigned_pack (positive_ofScientific _ _)

theorem unsigned_ofDecimal (n : Nat) (e : Int) : Unsigned (ofDecimal n e) := by
  have hzero : Unsigned 0.0 := unsigned_ofScientific 0 true 1
  have hone : Unsigned 1.0 := unsigned_ofScientific 10 true 1
  rw [ofDecimal]
  split
  · exact hzero
  · dsimp only
    split
    · exact hone.div hzero
    · split
      · exact hzero
      · split <;> exact unsigned_ofScientific ..

theorem unsigned_of_unsigned? {cs : List Char} {x : Float} (h : unsigned? cs = some x) :
    Unsigned x := by
  unfold unsigned? at h
  dsimp only at h
  split at h
  all_goals
    split at h
    · cases h
    · split at h
      · cases h
        exact unsigned_ofDecimal _ _
      · split at h
        · obtain ⟨e, _, he⟩ := Option.bind_eq_some_iff.1 h
          cases he
          exact unsigned_ofDecimal _ _
        · cases h

theorem unsigned_of_magnitude? {cs : List Char} {x : Float} (h : magnitude? cs = some x) :
    Unsigned x := by
  unfold magnitude? at h
  dsimp only at h
  split at h
  · cases h
    exact (unsigned_ofScientific 10 true 1).div (unsigned_ofScientific 0 true 1)
  · split at h
    · cases h
      exact (unsigned_ofScientific 0 true 1).div (unsigned_ofScientific 0 true 1)
    · exact unsigned_of_unsigned? h

/-! ## Words -/

/-- No numeral starts with a sign of the code. -/
theorem magnitude?_sign {c : Char} (hc : c ∈ signs) (cs : List Char) :
    magnitude? (c :: cs) = none := by
  have hsigns : ∀ d ∈ signs, d.toLower = d ∧ Text.isDigit d = false ∧ d ≠ '.' ∧
      d ≠ 'i' ∧ d ≠ 'n' := by
    decide
  obtain ⟨hlower, hdigit, hpoint, hi, hn⟩ := hsigns c hc
  have hword {d : Char} {ds : List Char} (hd : c ≠ d) :
      (String.ofList ((c :: cs).map Char.toLower) == String.ofList (d :: ds)) = false := by
    rw [beq_eq_false_iff_ne, Ne, String.ofList_inj, map_cons, hlower]
    exact fun heq => hd (cons.inj heq).1
  have hnone : unsigned? (c :: cs) = none := by
    simp [unsigned?, hdigit, hpoint]
  have hinf : (String.ofList ((c :: cs).map Char.toLower) == "inf") = false := hword hi
  have hinfinity : (String.ofList ((c :: cs).map Char.toLower) == "infinity") = false := hword hi
  have hnan : (String.ofList ((c :: cs).map Char.toLower) == "nan") = false := hword hn
  rw [magnitude?, hinf, hinfinity, hnan, if_neg (by simp), if_neg (by simp), hnone]

theorem infix_stripMargins (cs : List Char) : stripMargins cs <:+: cs := by
  have hfront : cs.dropWhile isMargin <:+ cs := dropWhile_suffix _
  have hback :
      ((cs.dropWhile isMargin).reverse.dropWhile isMargin).reverse <+: cs.dropWhile isMargin := by
    rw [← reverse_suffix, reverse_reverse]
    exact dropWhile_suffix _
  exact hback.isInfix.trans hfront.isInfix

/-- Underscores are taken out behind the first character. -/
theorem dropUnderscores?_cons {prev : Option Char} {c : Char} {cs ds : List Char} (hc : c ≠ '_')
    (h : dropUnderscores? prev (c :: cs) = some ds) :
    ∃ rest, ds = c :: rest ∧ dropUnderscores? (some c) cs = some rest := by
  rw [dropUnderscores?, if_neg (by simpa using hc)] at h
  obtain ⟨rest, hrest, rfl⟩ := Option.map_eq_some_iff.1 h
  exact ⟨rest, rfl, hrest⟩

theorem dropUnderscores?_underscore (cs : List Char) :
    dropUnderscores? none ('_' :: cs) = none := by
  rw [dropUnderscores?, if_pos (by rfl), isDigit?, Option.any_none, Bool.false_and,
    if_neg (by simp)]

/-- Behind a sign there is no numeral, where signs are followed by signs alone. -/
theorem magnitude?_behind_sign {c : Char} {cs rest : List Char} (hc : c ∈ signs)
    (hchain : (c :: cs).IsChain fun a b => a ∈ signs → b ∈ signs)
    (h : dropUnderscores? (some c) cs = some rest) : magnitude? rest = none := by
  cases cs with
  | nil =>
    cases h
    rfl
  | cons d cs =>
    have hd : d ∈ signs := (List.isChain_cons_cons.1 hchain).1 hc
    have hne : d ≠ '_' := by
      rintro rfl
      exact absurd hd (by decide)
    obtain ⟨more, rfl, _⟩ := dropUnderscores?_cons hne h
    exact magnitude?_sign hd more

/-- A word in which signs are followed by signs alone is no negative number. -/
theorem unsigned_of_read? {s : String} (hs : s.toList.IsChain fun a b => a ∈ signs → b ∈ signs)
    {x : Float} (h : read? s = some x) : Unsigned x := by
  have hchain := IsChain.infix hs (infix_stripMargins s.toList)
  obtain ⟨ds, hds, h⟩ := Option.bind_eq_some_iff.1 h
  split at h
  · next r =>
      obtain ⟨y, hy, _⟩ := Option.map_eq_some_iff.1 h
      cases hcs : stripMargins s.toList with
      | nil =>
        rw [hcs] at hds
        cases hds
      | cons c cs =>
        rw [hcs] at hds hchain
        have hc : c ≠ '_' := by
          rintro rfl
          rw [dropUnderscores?_underscore] at hds
          cases hds
        obtain ⟨rest, heq, hrest⟩ := dropUnderscores?_cons hc hds
        cases heq
        rw [magnitude?_behind_sign (by decide) hchain hrest] at hy
        cases hy
  · exact unsigned_of_magnitude? h
  · exact unsigned_of_magnitude? h

end LittleJ.Number
