import LittleJ.Proofs.Separators

/-!
# Partners from either side

The search for the bracket that closes another one runs to the right, the search for the one that
opens it runs to the left, and each counts for itself. Two positions are *matched* if from the first
on the brackets of one kind balance at the second and at none before. Read from the right, matched
positions are matched again, so the two searches find the same pairs.
-/

namespace LittleJ.Bracket

open Token List

variable {left right : String} {ts : List Token} {i j k : Nat}

/-- How many more tokens of a list read `left` than `right`. -/
def surplus (left right : String) (ts : List Token) : Int :=
  ts.countP (·.reads left) - ts.countP (·.reads right)

theorem surplus_append (left right : String) (ts ts' : List Token) :
    surplus left right (ts ++ ts') = surplus left right ts + surplus left right ts' := by
  simp only [surplus, countP_append]
  omega

/-- The surplus of a stretch is the difference of two beginnings. -/
theorem surplus_drop_take (left right : String) (ts : List Token) (h : i ≤ k) :
    surplus left right ((ts.take k).drop i) = surplus left right (ts.take k) - surplus left right
    (ts.take i) := by
  have hpath := surplus_append left right ((ts.take k).take i) ((ts.take k).drop i)
  rw [take_append_drop, take_take, Nat.min_eq_left h] at hpath
  omega

/-- A count ends where the surplus has used it up, unless it starts with a closing bracket at depth
zero. -/
theorem balanceFrom_iff_surplus (hne : left ≠ right) (depth : Nat)
    (hbegin : depth = 0 → ∃ o, ts.head? = some o ∧ o.reads left = true) :
    balanceFrom left right depth ts = some k ↔ k < ts.length ∧
    depth + surplus left right (ts.take (k + 1)) = 0 ∧
      ∀ m < k, depth + surplus left right (ts.take (m + 1)) ≠ 0 := by
  induction ts generalizing depth k with
  | nil => simp [balanceFrom]
  | cons t ts ih =>
    -- the count behind `t`; no closing bracket is met at depth zero, so the subtraction is exact
    obtain ⟨d, hd, hcount⟩ : ∃ d : Nat,
        (if t.reads left then depth + 1 else if t.reads right then depth - 1 else depth) = d ∧
          (depth + surplus left right [t] : Int) = d := by
      refine ⟨_, rfl, ?_⟩
      by_cases hleft : t.reads left = true
      · have hright : ¬t.reads right = true := fun hright => hne (reads_unique hleft hright)
        simp [surplus, hleft, hright]
      · have hpos : depth ≠ 0 := fun hzero => by simp [hleft] at hbegin; exact hbegin hzero
        by_cases hright : t.reads right = true <;> simp [surplus, hleft, hright]
        omega
    have hbehind : ∀ m, (depth + surplus left right ((t :: ts).take (m + 1)) : Int) =
        d + surplus left right (ts.take m) := by
      intro m
      rw [take_succ_cons, ← singleton_append, surplus_append, ← Int.add_assoc, hcount]
    have hzero : surplus left right [] = 0 := rfl
    rw [balanceFrom, hd]
    simp only [hbehind]
    cases d with
    | zero =>
      cases k with
      | zero => simp [hzero]
      | succ k =>
        refine ⟨fun h => by simp at h, fun h => absurd ?_ (h.2.2 0 (Nat.succ_pos k))⟩
        rw [take_zero, hzero, Int.add_zero, Int.natCast_zero]
    | succ d =>
      have hstart : ((d + 1 : Nat) + surplus left right (ts.take 0) : Int) ≠ 0 := by
        rw [take_zero, hzero]
        omega
      rw [if_neg (by simp)]
      cases k with
      | zero => exact ⟨fun h => by simp at h, fun h => absurd h.2.1 hstart⟩
      | succ k =>
        rw [Option.map_eq_some_iff]
        simp only [Nat.add_right_cancel_iff, exists_eq_right, ih (d + 1) (by simp), length_cons,
          Nat.add_lt_add_iff_right, Nat.forall_lt_succ_left]
        exact and_congr_right fun _ => and_congr_right fun _ => (and_iff_right hstart).symm

/-- From the first position on, which has an opening bracket, the brackets balance at the second
one, which has a closing bracket, and at none before. -/
structure Matched (left right : String) (ts : List Token) (i j : Nat) : Prop where
  le : i ≤ j
  opening : ∃ o, ts[i]? = some o ∧ o.reads left = true
  closing : ∃ c, ts[j]? = some c ∧ c.reads right = true
  level : surplus left right ((ts.take (j + 1)).drop i) = 0
  first : ∀ m, i ≤ m → m < j → surplus left right ((ts.take (m + 1)).drop i) ≠ 0

/-- The count that a bracket starts ends at the matched position. -/
theorem balanceFrom_iff_matched (hne : left ≠ right) {o : Token} (ho : ts[i]? = some o)
    (hreads : o.reads left = true) :
    balanceFrom left right 0 (ts.drop i) = some k ↔ Matched left right ts i (i + k) := by
  have hhead : (ts.drop i).head? = some o := by rw [head?_drop, ho]
  have hcount := balanceFrom_iff_surplus (k := k) hne 0 fun _ => ⟨o, hhead, hreads⟩
  simp only [take_drop, length_drop, ← Nat.add_assoc, Int.ofNat_zero, Int.zero_add] at hcount
  constructor
  · intro h
    obtain ⟨_, hend, hfirst⟩ := hcount.1 h
    obtain ⟨hi, rfl⟩ := List.getElem?_eq_some_iff.1 ho
    rw [drop_eq_getElem_cons hi] at h
    obtain ⟨inner, c, rest, hrest, _, hc, rfl⟩ := (balanceFrom_eq_some_iff hreads hne).1 h
    refine ⟨by omega, ⟨_, ho, hreads⟩, ⟨c, ?_, hc⟩, hend, fun m hle hlt => ?_⟩
    · rw [Nat.add_comm inner.length, ← Nat.add_assoc, ← getElem?_drop, hrest]
      simp
    · obtain ⟨m, rfl⟩ := Nat.exists_eq_add_of_le hle
      exact hfirst m (by omega)
  · intro h
    obtain ⟨c, hc, _⟩ := h.closing
    have hlength := (List.getElem?_eq_some_iff.1 hc).1
    exact hcount.2 ⟨by omega, h.level, fun m hm => h.first (i + m) (by omega) (by omega)⟩

/-- Read from the right, matched positions are matched with the brackets exchanged. -/
theorem Matched.mirror (h : Matched left right ts i j) :
    Matched right left ts.reverse (ts.length - 1 - j) (ts.length - 1 - i) := by
  have hle := h.le
  have hbegin : ∀ m ≤ ts.length, surplus right left (ts.reverse.take m) =
      surplus left right (ts.take (ts.length - m)) - surplus left right ts := by
    intro m hm
    have hall := surplus_append left right (ts.take (ts.length - m)) (ts.drop (ts.length - m))
    rw [take_append_drop] at hall
    rw [take_reverse, hall]
    simp only [surplus, countP_reverse]
    omega
  have hlevel := h.level
  rw [surplus_drop_take left right ts (by omega)] at hlevel
  obtain ⟨c, hc, _⟩ := h.closing
  have hj := (List.getElem?_eq_some_iff.1 hc).1
  refine ⟨by omega, ?_, ?_, ?_, fun m hle hlt => ?_⟩
  · rw [getElem?_reverse (by omega), show ts.length - 1 - (ts.length - 1 - j) = j by omega]
    exact h.closing
  · rw [getElem?_reverse (by omega), show ts.length - 1 - (ts.length - 1 - i) = i by omega]
    exact h.opening
  · rw [surplus_drop_take _ _ _ (by omega), hbegin _ (by omega), hbegin _ (by omega)]
    rw [show ts.length - (ts.length - 1 - i + 1) = i by omega,
      show ts.length - (ts.length - 1 - j) = j + 1 by omega]
    omega
  · have hfirst := h.first (ts.length - 2 - m) (by omega) (by omega)
    rw [surplus_drop_take _ _ _ (by omega),
      show ts.length - 2 - m + 1 = ts.length - (m + 1) by omega] at hfirst
    rw [surplus_drop_take _ _ _ (by omega), hbegin _ (by omega), hbegin _ (by omega)]
    rw [show ts.length - (ts.length - 1 - j) = j + 1 by omega]
    omega

theorem pair?_eq_some_iff {partnerOf : String → Option String} {t : Token} :
    pair? partnerOf t = some (left, right) ↔ t.reads left = true ∧ partnerOf left = some right := by
  rw [pair?, Option.bind_eq_some_iff]
  constructor
  · rintro ⟨s, hs, hmap⟩
    obtain ⟨r, hr, heq⟩ := Option.map_eq_some_iff.1 hmap
    cases heq
    exact ⟨reads_of_text? hs, hr⟩
  · rintro ⟨hreads, hr⟩
    exact ⟨left, text?_of_reads hreads, by rw [hr]; rfl⟩

theorem openerOf?_eq_some_iff : openerOf? right = some left ↔ closerOf? left = some right := by
  constructor
  · intro h
    unfold openerOf? at h
    split at h <;> cases h <;> rfl
  · intro h
    unfold closerOf? at h
    split at h <;> cases h <;> rfl

/-- How far behind the bracket at a position its partner by the table `partnerOf` stands. -/
def reach? (partnerOf : String → Option String) (ts : List Token) (i : Nat) : Option Nat :=
  (ts[i]?.bind (pair? partnerOf)).bind fun p => balanceFrom p.1 p.2 0 (ts.drop i)

theorem reach?_eq_some_iff {partnerOf : String → Option String}
    (hne : ∀ l r, partnerOf l = some r → l ≠ r) :
    reach? partnerOf ts i = some k ↔ ∃ left right, partnerOf left = some right ∧
    Matched left right ts i (i + k) := by
  simp only [reach?, Option.bind_eq_some_iff, Prod.exists, pair?_eq_some_iff]
  constructor
  · rintro ⟨left, right, ⟨o, ho, hreads, hpair⟩, hcount⟩
    exact ⟨left, right, hpair, (balanceFrom_iff_matched (hne _ _ hpair) ho hreads).1 hcount⟩
  · rintro ⟨left, right, hpair, hmatched⟩
    obtain ⟨o, ho, hreads⟩ := hmatched.opening
    exact ⟨left, right, ⟨o, ho, hreads, hpair⟩,
      (balanceFrom_iff_matched (hne _ _ hpair) ho hreads).2 hmatched⟩

theorem partner?_drop (ts : List Token) (i : Nat) :
    partner? (ts.drop i) = reach? closerOf? ts i := by
  rw [reach?, ← head?_drop]
  cases ts.drop i with
  | nil => rfl
  | cons t rest => exact partner?_cons t rest

theorem pairAt_cases (partnerOf : String → Option String) (ts : List Token) (i : Nat) :
    (∃ e, pairAt partnerOf ts i = .error e ∧ ts[i]?.bind (pair? partnerOf) = none) ∨
    ∃ p, pairAt partnerOf ts i = .ok (i, p) ∧ ts[i]?.bind (pair? partnerOf) = some p := by
  have hposition : position? ts.length i = if i < ts.length then some i else none := by
    simp [position?]
  rw [pairAt, hposition]
  cases hat : ts[i]? with
  | none => simp [Nat.not_lt.2 (List.getElem?_eq_none_iff.1 hat)]
  | some t =>
    simp only [if_pos (List.getElem?_eq_some_iff.1 hat).1, hat, Option.bind_some, pair?]
    split
    case h_4 u _ _ _ hu =>
      cases hu
      cases t.text? with
      | none => simp
      | some s => cases h : partnerOf s <;> simp [h]
    all_goals simp_all [text?]

theorem closerAt_eq_ok_iff (value : Value → Except Fault String) :
    closerAt value ts i = .ok j ↔ ∃ k, reach? closerOf? ts i = some k ∧ i + k = j := by
  have hview : ¬(i : Int) < 0 := by omega
  rw [closerAt, reach?]
  rcases pairAt_cases closerOf? ts i with ⟨e, hpair, hnone⟩ | ⟨⟨left, right⟩, hpair, hsome⟩
  · simp [hpair, hnone, bind, Except.bind]
  · simp only [hpair, hsome, bind, Except.bind, if_neg hview, Option.bind_some]
    cases balanceFrom left right 0 (ts.drop i) with
    | none => simp [throw, throwThe, MonadExceptOf.throw]
    | some k => simpa [pure, Except.pure] using by omega

/-- The search to the left is the one to the right in the list read backwards. -/
theorem openerAt_eq_ok_iff : openerAt ts j = .ok i ↔
    j < ts.length ∧ ∃ k, reach? openerOf? ts.reverse (ts.length - 1 - j) = some k ∧ i + k = j := by
  have hview : ¬(j : Int) < 0 := by omega
  rw [openerAt, if_neg hview, reach?]
  rcases Nat.lt_or_ge j ts.length with hj | hj
  · rw [getElem?_reverse (by omega), drop_reverse,
      show ts.length - 1 - (ts.length - 1 - j) = j by omega,
      show ts.length - (ts.length - 1 - j) = j + 1 by omega]
    rcases pairAt_cases openerOf? ts j with ⟨e, hpair, hnone⟩ | ⟨⟨right, left⟩, hpair, hsome⟩
    · simp [hpair, hnone, bind, Except.bind]
    · simp only [hpair, hsome, bind, Except.bind, if_neg hview, Option.bind_some]
      cases h : balanceFrom right left 0 (ts.take (j + 1)).reverse with
      | none => simp [throw, throwThe, MonadExceptOf.throw]
      | some k =>
        have hk := balanceFrom_lt h
        rw [length_reverse, length_take] at hk
        simpa [pure, Except.pure, hj] using by omega
  · rcases pairAt_cases openerOf? ts j with ⟨e, hpair, _⟩ | ⟨p, _, hsome⟩
    · simp [hpair, bind, Except.bind, Nat.not_lt.2 hj]
    · rw [getElem?_eq_none hj] at hsome
      cases hsome

theorem closerAt_iff_matched (value : Value → Except Fault String) :
    closerAt value ts i = .ok j ↔ ∃ left right, closerOf? left = some right ∧
    Matched left right ts i j := by
  simp only [closerAt_eq_ok_iff, reach?_eq_some_iff fun _ _ => ne_of_closerOf?]
  constructor
  · rintro ⟨k, h, rfl⟩
    exact h
  · rintro ⟨left, right, hcloser, hmatched⟩
    obtain ⟨k, rfl⟩ := Nat.exists_eq_add_of_le hmatched.le
    exact ⟨k, ⟨left, right, hcloser, hmatched⟩, rfl⟩

theorem openerAt_iff_matched :
    openerAt ts j = .ok i ↔ ∃ left right, closerOf? left = some right ∧
    Matched left right ts i j := by
  have hne : ∀ r l, openerOf? r = some l → r ≠ l :=
    fun _ _ h => (ne_of_closerOf? (openerOf?_eq_some_iff.1 h)).symm
  simp only [openerAt_eq_ok_iff, reach?_eq_some_iff hne, openerOf?_eq_some_iff]
  constructor
  · rintro ⟨hj, k, ⟨right, left, hcloser, hmatched⟩, rfl⟩
    have hback := hmatched.mirror
    rw [reverse_reverse, length_reverse,
      show ts.length - 1 - (ts.length - 1 - (i + k) + k) = i by omega,
      show ts.length - 1 - (ts.length - 1 - (i + k)) = i + k by omega] at hback
    exact ⟨left, right, hcloser, hback⟩
  · rintro ⟨left, right, hcloser, hmatched⟩
    obtain ⟨c, hc, _⟩ := hmatched.closing
    have hj := (List.getElem?_eq_some_iff.1 hc).1
    obtain ⟨k, rfl⟩ := Nat.exists_eq_add_of_le hmatched.le
    refine ⟨hj, k, ⟨right, left, hcloser, ?_⟩, rfl⟩
    rw [show ts.length - 1 - (i + k) + k = ts.length - 1 - i by omega]
    exact hmatched.mirror

/-- **Partners are found from either side.** A search to the right from one position ends at another
exactly if the search to the left from there comes back, and exactly if the two positions are
matched for some kind of bracket. -/
theorem closerAt_iff_openerAt (value : Value → Except Fault String) (ts : List Token) (i j : Nat) :
    (closerAt value ts i = .ok j ↔ openerAt ts j = .ok i) ∧
    (closerAt value ts i = .ok j ↔ ∃ left right, closerOf? left = some right ∧
      Matched left right ts i j) :=
  ⟨(closerAt_iff_matched value).trans openerAt_iff_matched.symm, closerAt_iff_matched value⟩

end LittleJ.Bracket
