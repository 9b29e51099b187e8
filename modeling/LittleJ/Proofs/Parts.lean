import LittleJ.Proofs.Matching

/-!
# The parts of a list and its separators

A list that is split at a separator can be put together again: with the separator between the parts
it is the list, or the list without a separator at its end. No part has a separator outside its
bracket pairs.

The number of parts does not quite tell whether the list has a separator at the top level. One that
stands last opens no new part, so a list with no other one has one part, as if it had none.
-/

namespace LittleJ.TopLevel

open LittleJ.Bracket Token List

variable {p : Token → Bool} {s : Symbol} {ts : List Token} {parts : List (List Token)} {k : Nat}

/-- What a search passes over has the property inside bracket pairs only. -/
theorem Lacks.exists_partner (h : Lacks p ts) (hp : SparesBrackets p) {t : Token} (ht : p t = true)
    (hk : ts[k]? = some t) : ∃ i n, i < k ∧ k < i + n ∧ partner? (ts.drop i) = some n := by
  have hno : ¬isBracket t = true := fun hbracket => by simp [hp t hbracket] at ht
  induction h generalizing k with
  | nil => cases hk
  | @cons u ts _ hu _ ih =>
    cases k with
    | zero =>
      cases hk
      rw [ht] at hu
      cases hu
    | succ k =>
      obtain ⟨i, n, hlt, hgt, hpartner⟩ := ih hk
      exact ⟨i + 1, n, by omega, by omega, hpartner⟩
  | @pair left right inner whole ts hcloser hpair _ ih =>
    have hlen := hpair.length
    have hpartner := hpair.partner? hcloser ts
    by_cases hinside : k < whole.length
    · obtain ⟨o, c, rfl, ho, hc, _⟩ := hpair
      rw [getElem?_append_left hinside] at hk
      -- the first token of a pair is a bracket, and so is the last one
      have hfirst : k ≠ 0 := by
        rintro rfl
        cases hk
        exact hno (by simp [isBracket, opens_of_reads hcloser ho])
      have hlast : k ≠ inner.length + 1 := by
        rintro rfl
        obtain rfl : c = t := by simpa using hk
        exact hno (opens_of_reads_closer hcloser hc).2.2
      exact ⟨0, inner.length + 1, by omega, by omega, hpartner⟩
    · rw [getElem?_append_right (Nat.le_of_not_lt hinside)] at hk
      obtain ⟨i, n, hlt, hgt, hpartner⟩ := ih hk
      refine ⟨whole.length + i, n, by omega, by omega, ?_⟩
      rwa [← drop_drop, drop_left]

theorem Separated.eq_nil_iff (h : Separated p parts ts) : parts = [] ↔ ts = [] := by
  cases h with
  | nil => simp
  | last hne _ => simpa using hne
  | cons _ _ _ => simp

theorem Separated.lacks (h : Separated p parts ts) : ∀ part ∈ parts, Lacks p part := by
  induction h with
  | nil => simp
  | last _ hlacks => simpa using hlacks
  | cons hlacks _ _ ih => exact forall_mem_cons.2 ⟨hlacks, ih⟩

/-- The parts with the separator between them are the list, apart from a separator that stands last.
-/
theorem Separated.rejoin (h : Separated (·.is s) parts ts) :
    ts = [Token.sym s].intercalate parts ∨ ts = [Token.sym s].intercalate parts ++ [.sym s] := by
  induction h with
  | nil => exact .inl rfl
  | last _ _ => simp
  | @cons part t parts ts _ ht hrest ih =>
    obtain rfl := Token.is_iff.1 ht
    cases parts with
    | nil =>
      obtain rfl := hrest.eq_nil_iff.1 rfl
      exact .inr (by simp)
    | cons next parts =>
      rw [intercalate_cons_cons]
      rcases ih with ih | ih
      · exact .inl (by simp [← ih])
      · exact .inr (by simp [ih])

/-- **A list that is split loses nothing but separators at the top level.** In each part every
bracket that a search comes to is closed, no separator is found at the top level, and each that it
has stands between a bracket and the one that closes it. -/
theorem split_rejoins (value : Value → Except Fault String) (hs : isBracket (.sym s) = false)
    (h : split (·.is s) ts = .ok parts) :
    (ts = [Token.sym s].intercalate parts ∨ ts = [Token.sym s].intercalate parts ++ [.sym s]) ∧
    ∀ part ∈ parts, index? (·.is s) part = .ok none ∧ ∀ k, part[k]? = some (.sym s) →
      ∃ i j : Nat, i < k ∧ k < j ∧ closerAt value part i = .ok j := by
  have hspare := sparesBrackets_is hs
  have hparts := (split_eq_ok_iff hspare).1 h
  refine ⟨hparts.rejoin, fun part hpart => ?_⟩
  have hlacks := hparts.lacks part hpart
  refine ⟨(index?_eq_none_iff hspare).2 hlacks, fun k hk => ?_⟩
  obtain ⟨i, n, hlt, hgt, hpartner⟩ := hlacks.exists_partner hspare (by simp [Token.is]) hk
  exact ⟨i, i + n, hlt, hgt, (closerAt_eq_ok_iff value).2 ⟨n, partner?_drop part i ▸ hpartner, rfl⟩⟩

theorem split_rejoins_call : isBracket (.sym .comma) = false ∧
    split (·.is .comma) [.name "a", .sym .comma, .sym .lparen, .sym .comma, .sym .rparen,
      .sym .comma] =
      .ok [[.name "a"], [.sym .lparen, .sym .comma, .sym .rparen]] ∧
    ∃ i j : Nat, i < 1 ∧ 1 < j ∧
      closerAt (fun _ => .ok "") [.sym .lparen, .sym .comma, .sym .rparen] i = .ok j :=
  have hsplit : split (·.is .comma) [.name "a", .sym .comma, .sym .lparen, .sym .comma,
      .sym .rparen, .sym .comma] =
      .ok [[.name "a"], [.sym .lparen, .sym .comma, .sym .rparen]] := rfl
  ⟨by decide, hsplit, ((split_rejoins _ (by decide) hsplit).2 _ (by simp)).2 1 rfl⟩

/-- A search comes to a position of a list: all brackets that it meets before are closed before. -/
def Reached (ts : List Token) (k : Nat) : Prop :=
  Lacks (fun _ => false) (ts.take k)

/-- A separator before the end parts the list, also where others stand before it. -/
theorem Reached.exists_parts (h : Reached ts k) (hp : SparesBrackets p) {t : Token}
    (hk : ts[k]? = some t) (ht : p t = true) :
    ∃ part u rest, ts = part ++ u :: rest ∧ Lacks p part ∧ p u = true ∧
    ts.length ≤ k + 1 + rest.length := by
  obtain ⟨hlt, rfl⟩ := List.getElem?_eq_some_iff.1 hk
  have hts : ts = ts.take k ++ ts[k] :: ts.drop (k + 1) := by simp
  rcases lacks_or_cut p (ts.take k) with hfront | ⟨part, u, rest, heq, hpart, ⟨_, hu⟩ | ⟨ho, hnone⟩⟩
  · exact ⟨_, _, _, hts, hfront, ht, by simp; omega⟩
  · rw [heq, append_assoc] at hts
    exact ⟨part, u, _, hts, hpart, hu, by simp; omega⟩
  · obtain ⟨_, hsplit⟩ := exists_split h hp
    rw [heq, split, hpart.splitFrom hp, splitFrom_unclosed ho hnone] at hsplit
    cases hsplit

/-- **A list is found parted if it has a separator at the top level before its last token.** -/
theorem isParted_iff_reached (hs : isBracket (.sym s) = false) (hne : ts ≠ [])
    (h : split (·.is s) ts = .ok parts) :
    ∃ b, isParted (·.is s) ts = .ok b ∧
      (b = true ↔ ∃ k, k + 1 < ts.length ∧ ts[k]? = some (.sym s) ∧ Reached ts k) := by
  have hspare := sparesBrackets_is hs
  have hparts := (split_eq_ok_iff hspare).1 h
  refine ⟨parts.length != 1, by rw [isParted, h]; rfl, ?_⟩
  rw [bne_iff_ne]
  constructor
  · intro hlength
    cases hparts with
    | nil => exact absurd rfl hne
    | last _ _ => exact absurd rfl hlength
    | @cons part t parts ts hpart ht hrest =>
      obtain rfl := Token.is_iff.1 ht
      have hbehind : ts ≠ [] := fun hnil => hlength (by simp [hrest.eq_nil_iff.2 hnil])
      refine ⟨part.length, by simpa [length_pos_iff] using hbehind, by simp, ?_⟩
      rw [Reached, take_left]
      exact hpart.mono fun _ hfalse => absurd hfalse Bool.false_ne_true
  · rintro ⟨k, hlt, hk, hreached⟩ hone
    obtain ⟨part, u, rest, rfl, hpart, hu, hlength⟩ :=
      hreached.exists_parts hspare hk (by simp [Token.is])
    rw [split_cons hpart hspare hu] at h
    cases hrest : split (·.is s) rest with
    | error r =>
      rw [hrest] at h
      cases h
    | ok more =>
      rw [hrest] at h
      cases h
      have hnil : more = [] := by simpa using hone
      have hbehind := ((split_eq_ok_iff hspare).1 hrest).eq_nil_iff.1 hnil
      simp only [hbehind, length_append, length_cons, length_nil] at hlt hlength
      omega

theorem isParted_iff_reached_sum : split (·.is .assign) [.name "a", .sym .assign, .name "b"] =
      .ok [[.name "a"], [.name "b"]] ∧
    ∃ b, isParted (·.is .assign) [.name "a", .sym .assign, .name "b"] = .ok b ∧
      (b = true ↔ ∃ k, k + 1 < 3 ∧ [.name "a", .sym .assign, .name "b"][k]? =
        some (Token.sym .assign) ∧
        Reached [.name "a", .sym .assign, .name "b"] k) :=
  have hsplit : split (·.is .assign) [.name "a", .sym .assign, .name "b"] =
      .ok [[.name "a"], [.name "b"]] := rfl
  ⟨hsplit, isParted_iff_reached (by decide) (by simp) hsplit⟩

/-- A sign at the end is at the top level, and the list does not count as parted. -/
theorem not_isParted_of_last : [.name "a", .sym .assign][1]? = some (Token.sym .assign) ∧
    Reached [.name "a", .sym .assign] 1 ∧ isParted (·.is .assign) [.name "a", .sym .assign] =
      .ok false :=
  ⟨rfl, .cons rfl rfl .nil, rfl⟩

end LittleJ.TopLevel
