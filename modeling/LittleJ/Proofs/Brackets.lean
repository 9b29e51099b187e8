import LittleJ.Bracket

/-!
# What searches for brackets find

A bracket is closed behind its opening, inside the list, by a token that has the closing text. A
search at the top level finds a token with the property that was asked for, and a list that is split
loses nothing but the tokens it is split at.
-/

namespace LittleJ

open Token List

variable {t : Token} {k skip : Nat} {ts part : List Token} {parts : List (List Token)}

theorem Token.reads_of_text? {s : String} (h : t.text? = some s) : t.reads s = true := by
  unfold text? at h
  unfold reads
  split at h <;> simp_all

theorem Token.text?_of_reads {s : String} (h : t.reads s = true) : t.text? = some s := by
  unfold reads at h
  unfold text?
  split at h <;> simp_all

/-! ## Partners -/

namespace Bracket

theorem balanceFrom_lt {left right : String} {depth : Nat}
    (h : balanceFrom left right depth ts = some k) :
    k < ts.length := by
  induction ts generalizing depth k with
  | nil => simp [balanceFrom] at h
  | cons t ts ih =>
    rw [balanceFrom] at h
    generalize (if t.reads left then depth + 1 else if t.reads right then depth - 1 else depth) = d
      at h
    split at h
    · simp only [Option.some.injEq] at h
      simp [← h]
    · obtain ⟨j, hj, rfl⟩ := Option.map_eq_some_iff.mp h
      simpa using ih hj

/-- What brings the balance back has the closing text. -/
theorem reads_of_balanceFrom {left right : String} {depth : Nat} (hdepth : 0 < depth)
    (h : balanceFrom left right depth ts = some k) :
    ∃ t, ts[k]? = some t ∧ t.reads right = true := by
  induction ts generalizing depth k with
  | nil => simp [balanceFrom] at h
  | cons t ts ih =>
    rw [balanceFrom] at h
    generalize hd : (if t.reads left then depth + 1 else if t.reads right then depth - 1 else depth)
      = d at h
    split at h
    · rename_i hzero
      simp only [Option.some.injEq] at h
      subst h
      refine ⟨t, rfl, ?_⟩
      -- nothing but a closing text lowers the depth
      by_cases hright : t.reads right = true
      · exact hright
      · rw [beq_iff_eq] at hzero
        rw [if_neg hright] at hd
        split at hd <;> omega
    · rename_i hne
      rw [beq_iff_eq] at hne
      obtain ⟨j, hj, rfl⟩ := Option.map_eq_some_iff.mp h
      exact ih (Nat.pos_of_ne_zero hne) hj

/-- The text of a token and of its partner by the table `partnerOf`, if it is a bracket. -/
def pair? (partnerOf : String → Option String) (t : Token) : Option (String × String) :=
  t.text?.bind fun s => (partnerOf s).map fun r => (s, r)

theorem partner?_cons (t : Token) (ts : List Token) :
    partner? (t :: ts) = (pair? closerOf? t).bind fun p => balanceFrom p.1 p.2 0 (t :: ts) := by
  rw [partner?, pair?]
  cases t.text? with
  | none => rfl
  | some s => cases h : closerOf? s <;> simp [h]

theorem opener?_eq (ts : List Token) :
    opener? ts = ((ts.getLast?.bind (pair? openerOf?)).bind fun p =>
      balanceFrom p.1 p.2 0 ts.reverse).map (ts.length - 1 - ·) := by
  rw [opener?]
  cases ts.getLast? with
  | none => rfl
  | some t =>
    cases ht : t.text? with
    | none => simp [pair?, ht]
    | some s => cases h : openerOf? s <;> simp [pair?, ht, h]

/-- A bracket is closed behind its opening and inside the list. -/
theorem partner?_bounds (h : partner? ts = some k) : 0 < k ∧ k < ts.length := by
  unfold partner? at h
  split at h
  · simp at h
  · rename_i t ts
    split at h
    · simp at h
    · rename_i left hleft
      split at h
      · simp at h
      · refine ⟨?_, balanceFrom_lt h⟩
        rw [balanceFrom, if_pos (reads_of_text? hleft)] at h
        obtain ⟨j, _, rfl⟩ := Option.map_eq_some_iff.mp h
        exact Nat.succ_pos j

/-- A bracket is closed by a token that has the closing text. -/
theorem reads_of_partner? (h : partner? (t :: ts) = some k) :
    ∃ left right u, t.text? = some left ∧ closerOf? left = some right ∧ (t :: ts)[k]? = some u ∧
      u.reads right = true := by
  rw [partner?_cons] at h
  obtain ⟨⟨left, right⟩, hpair, h⟩ := Option.bind_eq_some_iff.mp h
  obtain ⟨s, hs, hmap⟩ := Option.bind_eq_some_iff.mp hpair
  obtain ⟨r, hr, he⟩ := Option.map_eq_some_iff.mp hmap
  simp only [Prod.mk.injEq] at he
  obtain ⟨rfl, rfl⟩ := he
  rw [balanceFrom, if_pos (reads_of_text? hs)] at h
  obtain ⟨j, hj, rfl⟩ := Option.map_eq_some_iff.mp h
  obtain ⟨u, hu, hreads⟩ := reads_of_balanceFrom (Nat.succ_pos 0) hj
  exact ⟨s, r, u, hs, hr, hu, hreads⟩

end Bracket

/-! ## Searches at the top level -/

namespace TopLevel

variable {p : Token → Bool}

/-- A search that passes over a token found its position in the rest. -/
theorem eq_succ_of_map {x : Except (List Token) (Option Nat)}
    (h : (do return (← x).map (· + 1) : Except (List Token) (Option Nat)) = .ok (some k)) :
    ∃ j, x = .ok (some j) ∧ k = j + 1 := by
  cases x with
  | error rest => cases h
  | ok i =>
    cases i with
    | none => cases h
    | some i =>
      cases h
      exact ⟨i, rfl, rfl⟩

theorem holds_of_indexFrom (h : indexFrom p skip ts = .ok (some k)) :
    ∃ t, ts[k]? = some t ∧ p t = true := by
  fun_induction indexFrom p skip ts generalizing k with
  | case1 => simp at h
  | case2 skip t ts ih =>
    obtain ⟨j, hj, rfl⟩ := eq_succ_of_map h
    exact ih hj
  | case3 t ts ho hk => simp at h
  | case4 t ts ho i hi ih =>
    obtain ⟨j, hj, rfl⟩ := eq_succ_of_map h
    exact ih hj
  | case5 t ts ho hp =>
    cases h
    exact ⟨t, rfl, hp⟩
  | case6 t ts ho hp ih =>
    obtain ⟨j, hj, rfl⟩ := eq_succ_of_map h
    exact ih hj

/-- A list that is split loses nothing but tokens it is split at, and keeps the order of the others.
-/
theorem flatten_splitFrom (h : splitFrom p part skip ts = .ok parts) :
    parts.flatten <+ part.reverse ++ ts ∧
    parts.flatten.filter (!p ·) = (part.reverse ++ ts).filter (!p ·) := by
  fun_induction splitFrom p part skip ts generalizing parts with
  | case1 part skip =>
    cases h
    cases part <;> simp
  | case2 part skip t ts ih => simpa using ih h
  | case3 part t ts ho hk => simp at h
  | case4 part t ts ho k hk ih => simpa using ih h
  | case5 part t ts ho hp ih =>
    cases hr : splitFrom p [] 0 ts with
    | error rest => rw [hr] at h; cases h
    | ok rest =>
      rw [hr] at h
      cases h
      obtain ⟨hsub, hfilter⟩ := ih hr
      exact ⟨by simpa using hsub.cons t, by simpa [hp] using hfilter⟩
  | case6 part t ts ho hp ih => simpa using ih h

theorem length_le_of_mem_split (h : split p ts = .ok parts) :
    ∀ q ∈ parts, q.length ≤ ts.length := by
  intro q hq
  simpa using ((sublist_flatten_of_mem hq).trans (flatten_splitFrom h).1).length_le

/-- The parts of a list have no tokens that the list does not have. -/
theorem mem_of_mem_split (h : split p ts = .ok parts) {q : List Token} (hq : q ∈ parts) {x : Token}
    (hx : x ∈ q) :
    x ∈ ts := by
  simpa using (flatten_splitFrom h).1.subset (mem_flatten_of_mem hq hx)

end TopLevel

end LittleJ
