import LittleJ.Proofs.Nesting

/-!
# What a search at the top level passes over

A search at the top level goes from bracket to partner. Partners are found by counting brackets of
one kind, so what lies between them need not be properly nested; it only has to leave the count
level. A list *lacks* a property if the search for it passes over the whole list: every bracket it
comes to is closed, and no token it comes to has the property.

With this the searches can be said without positions. A search stops behind what lacks the property,
and a list is split into parts that lack the property of the separators. A separator that stands
last closes the last part and opens no new one.
-/

namespace LittleJ

open Token List Except TopLevel

variable {t o : Token} {k : Nat} {rest : List Token}

theorem Token.reads_unique {s s' : String} (h : t.reads s = true) (h' : t.reads s' = true) :
    s = s' := by
  have hs := text?_of_reads h
  rw [text?_of_reads h'] at hs
  exact (Option.some.inj hs).symm

theorem Token.is_iff {y : Symbol} : t.is y = true ↔ t = .sym y := by
  cases t <;> simp [is]

namespace Bracket

/-- The list `whole` is `inner` between two brackets that are each other's partners. -/
def Enclosed (left right : String) (inner whole : List Token) : Prop :=
  ∃ o c, whole = o :: (inner ++ [c]) ∧ o.reads left = true ∧ c.reads right = true ∧
  Level left right inner

variable {left right : String} {inner whole ts : List Token}

theorem closerOf?_cases (h : closerOf? left = some right) :
    left = "(" ∧ right = ")" ∨ left = "[" ∧ right = "]" ∨ left = "\x7b" ∧ right = "\x7d" := by
  unfold closerOf? at h
  split at h <;> simp_all

/-- What closes a bracket opens none. -/
theorem opens_of_reads_closer (h : closerOf? left = some right) (ht : t.reads right = true) :
    opens t = false ∧ t.reads left = false ∧ isBracket t = true := by
  have hother : ∀ s, s ≠ right → t.reads s = false := by
    intro s hne
    rw [Bool.eq_false_iff]
    intro hs
    exact hne (reads_unique hs ht)
  rcases closerOf?_cases h with ⟨rfl, rfl⟩ | ⟨rfl, rfl⟩ | ⟨rfl, rfl⟩ <;>
    simp [opens, isBracket, hother, ht]

theorem Enclosed.length (h : Enclosed left right inner whole) :
    whole.length = inner.length + 2 := by
  obtain ⟨o, c, rfl, _, _, _⟩ := h
  simp

theorem Enclosed.isInfix (h : Enclosed left right inner whole) : inner <:+: whole := by
  obtain ⟨o, c, rfl, _, _, _⟩ := h
  exact ⟨[o], [c], rfl⟩

/-- The count that a bracket starts comes to an end at the first bracket of the other kind behind a
list that leaves it level. -/
theorem balanceFrom_eq_some_iff (ho : o.reads left = true) (hne : left ≠ right) :
    balanceFrom left right 0 (o :: ts) = some k ↔
      ∃ inner c rest, ts = inner ++ c :: rest ∧ Level left right inner ∧ c.reads right = true ∧
        k = inner.length + 1 := by
  have hstart :
      balanceFrom left right 0 (o :: ts) = (balanceFrom left right (0 + 1) ts).map (· + 1) := by
    rw [balanceFrom, if_pos ho]
    rfl
  rw [hstart]
  constructor
  · intro h
    obtain ⟨j, hj, rfl⟩ := Option.map_eq_some_iff.1 h
    obtain ⟨c, hat, hc⟩ := reads_of_balanceFrom (Nat.succ_pos 0) hj
    obtain ⟨hlt, rfl⟩ := List.getElem?_eq_some_iff.1 hat
    have hlength : (ts.take j).length = j := length_take_of_le (Nat.le_of_lt hlt)
    refine ⟨ts.take j, ts[j], ts.drop (j + 1), ?_, ?_, hc, by rw [hlength]⟩
    · rw [getElem_cons_drop, take_append_drop]
    · intro depth rest
      have hlevel := level_of_balanceFrom hj depth rest
      rw [Nat.zero_add, Nat.add_comm 1] at hlevel
      rw [hlevel, hlength]
  · rintro ⟨inner, c, rest, rfl, hlevel, hc, rfl⟩
    have hother : c.reads left = false := by
      rw [Bool.eq_false_iff]
      intro hleft
      exact hne (reads_unique hleft hc)
    have hclose : balanceFrom left right (0 + 1) (c :: rest) = some 0 := by
      rw [balanceFrom, hother, hc]
      rfl
    rw [hlevel 0, hclose]
    simp

theorem ne_of_closerOf? (h : closerOf? left = some right) : left ≠ right := by
  rcases closerOf?_cases h with ⟨rfl, rfl⟩ | ⟨rfl, rfl⟩ | ⟨rfl, rfl⟩ <;> decide

theorem partner?_of_reads (ho : o.reads left = true) (hcloser : closerOf? left = some right) :
    partner? (o :: ts) = balanceFrom left right 0 (o :: ts) := by
  rw [partner?_cons, pair?, text?_of_reads ho, Option.bind_some, hcloser, Option.map_some,
    Option.bind_some]

/-- The bracket before an enclosed list is closed by the one behind it. -/
theorem Enclosed.partner? (h : Enclosed left right inner whole)
    (hcloser : closerOf? left = some right) (rest : List Token) :
    partner? (whole ++ rest) = some (inner.length + 1) := by
  obtain ⟨o, c, rfl, ho, hc, hlevel⟩ := h
  rw [cons_append, append_assoc, singleton_append, partner?_of_reads ho hcloser,
    balanceFrom_eq_some_iff ho (ne_of_closerOf? hcloser)]
  exact ⟨inner, c, rest, rfl, hlevel, hc, rfl⟩

/-- A bracket and its partner enclose what stands between them. -/
theorem enclosed_of_partner? (ho : o.reads left = true) (hcloser : closerOf? left = some right)
    (h : partner? (o :: ts) = some k) :
    Enclosed left right (((o :: ts).take k).drop 1) ((o :: ts).take (k + 1)) := by
  rw [partner?_of_reads ho hcloser, balanceFrom_eq_some_iff ho (ne_of_closerOf? hcloser)] at h
  obtain ⟨inner, c, rest, rfl, hlevel, hc, rfl⟩ := h
  have hinner : ((o :: (inner ++ c :: rest)).take (inner.length + 1)).drop 1 = inner := by simp
  have hwhole : (o :: (inner ++ c :: rest)).take (inner.length + 1 + 1) = o :: (inner ++ [c]) := by
    rw [take_succ_cons, append_cons, take_left' (by simp)]
  rw [hinner, hwhole]
  exact ⟨o, c, rfl, ho, hc, hlevel⟩

/-- From the right, a closing bracket is opened before a list that leaves the count level. -/
theorem opener?_eq_some_iff {y : Token} (hy : y.reads right = true)
    (hopener : openerOf? right = some left) (hne : right ≠ left) {front : List Token} :
    opener? (front ++ [y]) = some k ↔
      ∃ before o inner, front = before ++ o :: inner ∧ o.reads left = true ∧
      Level right left inner.reverse ∧
        before.length = k := by
  have hcount : opener? (front ++ [y]) = (balanceFrom right left 0 (y :: front.reverse)).map
      (front.length - ·) := by
    rw [opener?_eq, getLast?_concat, Option.bind_some, pair?, text?_of_reads hy,
      Option.bind_some, hopener, Option.map_some, Option.bind_some, reverse_append]
    simp
  rw [hcount, Option.map_eq_some_iff]
  constructor
  · rintro ⟨j, hj, rfl⟩
    obtain ⟨inner, o, before, hfront, hlevel, ho, rfl⟩ := (balanceFrom_eq_some_iff hy hne).1 hj
    have hfront' : front = before.reverse ++ o :: inner.reverse := by
      rw [← reverse_reverse front, hfront]
      simp
    refine ⟨before.reverse, o, inner.reverse, hfront', ho, by rwa [reverse_reverse], ?_⟩
    rw [hfront']
    simp only [length_reverse, length_append, length_cons]
    omega
  · rintro ⟨before, o, inner, rfl, ho, hlevel, rfl⟩
    refine ⟨inner.length + 1, (balanceFrom_eq_some_iff hy hne).2
      ⟨inner.reverse, o, before.reverse, ?_, hlevel, ho, ?_⟩, ?_⟩
    · simp
    · rw [length_reverse]
    · simp only [length_append, length_cons]
      omega

/-- A token that opens a bracket has the text of one. -/
theorem closerOf?_of_opens (h : opens t = true) :
    ∃ l r, t.reads l = true ∧ closerOf? l = some r := by
  simp only [opens, Bool.or_eq_true] at h
  rcases h with (h | h) | h
  · exact ⟨_, _, h, rfl⟩
  · exact ⟨_, _, h, rfl⟩
  · exact ⟨_, _, h, rfl⟩

theorem opens_of_reads (hcloser : closerOf? left = some right) (ht : t.reads left = true) :
    opens t = true := by
  rcases closerOf?_cases hcloser with ⟨rfl, rfl⟩ | ⟨rfl, rfl⟩ | ⟨rfl, rfl⟩ <;> simp [opens, ht]

end Bracket

namespace TopLevel

open LittleJ.Bracket

/-- No bracket has the property. -/
def SparesBrackets (p : Token → Bool) : Prop :=
  ∀ t, isBracket t = true → p t = false

theorem sparesBrackets_is {y : Symbol} (h : isBracket (.sym y) = false) :
    SparesBrackets (·.is y) := by
  intro t ht
  rw [Bool.eq_false_iff]
  intro hy
  rw [Token.is_iff.1 hy, h] at ht
  cases ht

theorem SparesBrackets.opens {p : Token → Bool} (hp : SparesBrackets p) (hpt : p t = true) :
    opens t = false := by
  rw [Bool.eq_false_iff]
  intro ho
  have hfree := hp t (by simp [isBracket, ho])
  rw [hpt] at hfree
  cases hfree

/-- A search for property `p` passes over the list. -/
inductive Lacks (p : Token → Bool) : List Token → Prop where
  | nil : Lacks p []
  | cons {t : Token} {ts : List Token} : opens t = false → p t = false → Lacks p ts →
      Lacks p (t :: ts)
  | pair {left right : String} {inner whole ts : List Token} : closerOf? left = some right →
      Enclosed left right inner whole → Lacks p ts → Lacks p (whole ++ ts)

variable {p q : Token → Bool} {ts ts' : List Token}

theorem Lacks.append (h : Lacks p ts) (h' : Lacks p ts') : Lacks p (ts ++ ts') := by
  induction h with
  | nil => exact h'
  | cons ht hp _ ih => exact .cons ht hp ih
  | pair hcloser hpair _ ih =>
    rw [append_assoc]
    exact .pair hcloser hpair ih

/-- What lacks a property lacks every rarer one. -/
theorem Lacks.mono (h : Lacks p ts) (hpq : ∀ t, q t = true → p t = true) : Lacks q ts := by
  induction h with
  | nil => exact .nil
  | cons ht hp _ ih =>
    refine .cons ht ?_ ih
    rw [Bool.eq_false_iff] at hp ⊢
    exact mt (hpq _) hp
  | pair hcloser hpair _ ih => exact .pair hcloser hpair ih

/-- Where brackets are properly nested, a search passes over whatever is clear of the property. -/
theorem lacks_of_clear (h : Clear p ts) : Lacks p ts := by
  induction h with
  | nil => exact .nil
  | cons ht hp _ ih => exact .cons (opens_of_not_bracket ht) hp ih
  | @pair p left right inner ts hpair hinner _ _ ih =>
    have hwrapped :
        Enclosed left.text right.text inner (.sym left :: (inner ++ [Token.sym right])) :=
      ⟨_, _, rfl, reads_text left, reads_text right, hinner.level hpair⟩
    have hlacks := Lacks.pair (closerOf?_of_pair hpair) hwrapped ih
    rwa [cons_append, append_assoc, singleton_append] at hlacks

/-- Every list lacks the property, or falls apart before the first token that has it, or before the
first bracket that is not closed. -/
theorem lacks_or_cut (p : Token → Bool) (ts : List Token) :
    Lacks p ts ∨ ∃ front t rest, ts = front ++ t :: rest ∧ Lacks p front ∧
      (opens t = false ∧ p t = true ∨ opens t = true ∧ partner? (t :: rest) = none) := by
  -- behind a pair of brackets the search goes on, so the induction is on a bound of the length
  obtain ⟨n, hn⟩ : ∃ n, ts.length ≤ n := ⟨_, Nat.le_refl _⟩
  induction n generalizing ts with
  | zero =>
    obtain rfl := eq_nil_of_length_eq_zero (by omega : ts.length = 0)
    exact .inl .nil
  | succ n ih =>
    cases ts with
    | nil => exact .inl .nil
    | cons t ts =>
      rw [length_cons] at hn
      by_cases ho : opens t = true
      · cases hk : partner? (t :: ts) with
        | none => exact .inr ⟨[], t, ts, rfl, .nil, .inr ⟨ho, hk⟩⟩
        | some k =>
          obtain ⟨l, r, hl, hcloser⟩ := closerOf?_of_opens ho
          have hpair := enclosed_of_partner? hl hcloser hk
          have hsplit : t :: ts = (t :: ts).take (k + 1) ++ (t :: ts).drop (k + 1) :=
            (take_append_drop _ _).symm
          have hrest : ((t :: ts).drop (k + 1)).length ≤ n := by
            rw [length_drop, length_cons]
            omega
          rw [hsplit]
          rcases ih _ hrest with hlacks | ⟨front, u, rest, heq, hfront, hu⟩
          · exact .inl (.pair hcloser hpair hlacks)
          · refine .inr ⟨_ ++ front, u, rest, ?_, .pair hcloser hpair hfront, hu⟩
            rw [heq, append_assoc]
      · have hclosed : opens t = false := Bool.eq_false_iff.mpr ho
        by_cases hp : p t = true
        · exact .inr ⟨[], t, ts, rfl, .nil, .inl ⟨hclosed, hp⟩⟩
        · have hfree : p t = false := Bool.eq_false_iff.mpr hp
          rcases ih ts (by omega) with hlacks | ⟨front, u, rest, rfl, hfront, hu⟩
          · exact .inl (.cons hclosed hfree hlacks)
          · exact .inr ⟨t :: front, u, rest, rfl, .cons hclosed hfree hfront, hu⟩

/-! ## Searches -/

/-- The result of a search that starts `n` tokens further to the left. -/
def moved (n : Nat) (x : Except (List Token) (Option Nat)) : Except (List Token) (Option Nat) :=
  x.map (Option.map (· + n))

theorem bind_eq_moved (x : Except (List Token) (Option Nat)) :
    (do return (← x).map (· + 1)) = moved 1 x := by
  cases x <;> rfl

theorem moved_zero (x : Except (List Token) (Option Nat)) : moved 0 x = x := by
  cases x with
  | error e => rfl
  | ok k => simp [moved, Except.map]

theorem moved_moved (m n : Nat) (x : Except (List Token) (Option Nat)) :
    moved m (moved n x) = moved (n + m) x := by
  cases x with
  | error e => rfl
  | ok k =>
    simp only [moved, Except.map, Option.map_map]
    congr 2
    funext i
    exact Nat.add_assoc i n m

theorem indexFrom_skip (front rest : List Token) :
    indexFrom p front.length (front ++ rest) = moved front.length (indexFrom p 0 rest) := by
  induction front with
  | nil => exact (moved_zero _).symm
  | cons t front ih =>
    rw [length_cons, cons_append, indexFrom, bind_eq_moved, ih, moved_moved]

theorem indexFrom_cons (ht : opens t = false) (hpt : p t = false) (rest : List Token) :
    indexFrom p 0 (t :: rest) = moved 1 (indexFrom p 0 rest) := by
  rw [indexFrom, ht, hpt]
  exact bind_eq_moved _

theorem Lacks.indexFrom (h : Lacks p ts) (hp : SparesBrackets p) (rest : List Token) :
    indexFrom p 0 (ts ++ rest) = moved ts.length (indexFrom p 0 rest) := by
  induction h with
  | nil => exact (moved_zero _).symm
  | cons ht hpt _ ih =>
    rw [List.cons_append, indexFrom_cons ht hpt, ih, moved_moved, List.length_cons]
  | @pair left right inner whole ts hcloser hpair _ ih =>
    have hpartner := hpair.partner? hcloser (ts ++ rest)
    have hlen := hpair.length
    obtain ⟨o, c, rfl, ho, hc, _⟩ := hpair
    obtain ⟨hclosed, _, hbracket⟩ := opens_of_reads_closer hcloser hc
    rw [List.append_assoc, List.cons_append, List.append_assoc, List.singleton_append]
    rw [List.cons_append, List.append_assoc, List.singleton_append] at hpartner
    rw [TopLevel.indexFrom, opens_of_reads hcloser ho, if_pos rfl, hpartner]
    dsimp only
    -- the search jumps to the closing bracket, which is looked at and passed
    rw [bind_eq_moved, Nat.add_sub_cancel, indexFrom_skip, indexFrom_cons hclosed (hp c hbracket),
      ih, moved_moved, moved_moved, moved_moved, List.length_append, hlen]
    congr 1
    omega

theorem indexFrom_unclosed (ho : opens t = true) (hnone : partner? (t :: rest) = none) :
    indexFrom p 0 (t :: rest) = .error (t :: rest) := by
  rw [indexFrom, ho, if_pos rfl, hnone]

theorem eq_none_of_moved {n : Nat} {x : Except (List Token) (Option Nat)}
    (h : moved n x = .ok none) :
    x = .ok none := by
  cases x with
  | error r => cases h
  | ok k =>
    cases k with
    | none => rfl
    | some k => cases h

/-- **A search finds nothing in what lacks the property.** -/
theorem index?_eq_none_iff (hp : SparesBrackets p) : index? p ts = .ok none ↔ Lacks p ts := by
  constructor
  · intro h
    rcases lacks_or_cut p ts with hlacks | ⟨front, t, rest, rfl, hfront, hcut⟩
    · exact hlacks
    · rw [index?, hfront.indexFrom hp] at h
      have hbehind := eq_none_of_moved h
      rcases hcut with ⟨ho, hpt⟩ | ⟨ho, hpartner⟩
      · rw [indexFrom, ho, hpt] at hbehind
        cases hbehind
      · rw [indexFrom_unclosed ho hpartner] at hbehind
        cases hbehind
  · intro h
    have hall := h.indexFrom hp []
    rw [append_nil] at hall
    rw [index?, hall]
    rfl

/-- **A search stops at the first token behind what lacks the property.** -/
theorem index?_eq_some_iff (hp : SparesBrackets p) : index? p ts = .ok (some k) ↔
      ∃ front t rest, ts = front ++ t :: rest ∧ Lacks p front ∧ p t = true ∧ front.length = k := by
  constructor
  · intro h
    rcases lacks_or_cut p ts with hlacks | ⟨front, t, rest, rfl, hfront, ⟨ho, hpt⟩ | ⟨ho, hnone⟩⟩
    · rw [(index?_eq_none_iff hp).2 hlacks] at h
      cases h
    · have hfound : indexFrom p 0 (t :: rest) = .ok (some 0) := by
        rw [indexFrom, ho, hpt]
        rfl
      rw [index?, hfront.indexFrom hp, hfound] at h
      refine ⟨front, t, rest, rfl, hfront, hpt, ?_⟩
      simpa [moved, Except.map] using h
    · rw [index?, hfront.indexFrom hp, indexFrom_unclosed ho hnone] at h
      cases h
  · rintro ⟨front, t, rest, rfl, hfront, hpt, rfl⟩
    rw [index?, hfront.indexFrom hp, indexFrom, hp.opens hpt, hpt]
    simp [moved, Except.map]

/-- A search that fails gives what is left of the list at a bracket. -/
theorem suffix_of_index? (hp : SparesBrackets p) (h : index? p ts = .error rest) : rest <:+ ts := by
  rcases lacks_or_cut p ts with hlacks | ⟨front, t, more, rfl, hfront, ⟨_, hpt⟩ | ⟨ho, hnone⟩⟩
  · rw [(index?_eq_none_iff hp).2 hlacks] at h
    cases h
  · rw [(index?_eq_some_iff hp).2 ⟨front, t, more, rfl, hfront, hpt, rfl⟩] at h
    cases h
  · rw [index?, hfront.indexFrom hp, indexFrom_unclosed ho hnone] at h
    cases h
    exact suffix_append front (t :: more)

/-! ## Splitting -/

/-- The parts of a list between separators with property `p`. Each part but the last one is followed
by a separator, and the last one may be. -/
inductive Separated (p : Token → Bool) : List (List Token) → List Token → Prop where
  | nil : Separated p [] []
  | last {part : List Token} : part ≠ [] → Lacks p part → Separated p [part] part
  | cons {part : List Token} {t : Token} {parts : List (List Token)} {ts : List Token} :
      Lacks p part →
      p t = true → Separated p parts ts → Separated p (part :: parts) (part ++ t :: ts)

theorem Separated.isInfix {parts : List (List Token)} (h : Separated p parts ts) :
    ∀ part ∈ parts, part <:+: ts := by
  induction h with
  | nil => simp
  | last _ _ => simp
  | @cons part t parts ts _ _ _ ih =>
    rw [forall_mem_cons]
    refine ⟨⟨[], t :: ts, rfl⟩, fun other hother => ?_⟩
    have hrest : ts <:+: part ++ t :: ts := ⟨part ++ [t], [], by simp⟩
    exact (ih other hother).trans hrest

theorem splitFrom_skip (front part rest : List Token) :
    splitFrom p part front.length (front ++ rest) = splitFrom p (front.reverse ++ part) 0 rest := by
  induction front generalizing part with
  | nil => rfl
  | cons t front ih =>
    rw [length_cons, cons_append, splitFrom, ih]
    simp

theorem Lacks.splitFrom (h : Lacks p ts) (hp : SparesBrackets p) (part rest : List Token) :
    splitFrom p part 0 (ts ++ rest) = splitFrom p (ts.reverse ++ part) 0 rest := by
  induction h generalizing part with
  | nil => rfl
  | cons ht hpt _ ih =>
    rw [List.cons_append, TopLevel.splitFrom, ht, hpt]
    simp [ih]
  | @pair left right inner whole ts hcloser hpair _ ih =>
    have hpartner := hpair.partner? hcloser (ts ++ rest)
    obtain ⟨o, c, rfl, ho, hc, _⟩ := hpair
    obtain ⟨hclosed, _, hbracket⟩ := opens_of_reads_closer hcloser hc
    rw [List.append_assoc, List.cons_append, List.append_assoc, List.singleton_append]
    rw [List.cons_append, List.append_assoc, List.singleton_append] at hpartner
    rw [TopLevel.splitFrom, opens_of_reads hcloser ho, if_pos rfl, hpartner]
    dsimp only
    rw [Nat.add_sub_cancel, splitFrom_skip, TopLevel.splitFrom, hclosed, hp c hbracket]
    simp [ih]

theorem split_of_lacks (h : Lacks p ts) (hp : SparesBrackets p) :
    split p ts = .ok (if ts.isEmpty then [] else [ts]) := by
  have hsplit := h.splitFrom hp [] []
  rw [append_nil, append_nil] at hsplit
  rw [split, hsplit, splitFrom, isEmpty_reverse, reverse_reverse]

theorem split_cons (h : Lacks p ts) (hp : SparesBrackets p) (hpt : p t = true) (rest : List Token) :
    split p (ts ++ t :: rest) = (split p rest).map (ts :: ·) := by
  rw [split, h.splitFrom hp, TopLevel.splitFrom, hp.opens hpt, hpt, split]
  cases TopLevel.splitFrom p [] 0 rest <;> simp [Except.map, bind, Except.bind, pure, Except.pure]

theorem splitFrom_unclosed (ho : opens t = true) (hnone : partner? (t :: rest) = none)
    (part : List Token) :
    splitFrom p part 0 (t :: rest) = .error (t :: rest) := by
  rw [splitFrom, ho, if_pos rfl, hnone]

/-- **A list is split into its separated parts.** -/
theorem split_eq_ok_iff (hp : SparesBrackets p) {parts : List (List Token)} :
    split p ts = .ok parts ↔ Separated p parts ts := by
  constructor
  · intro h
    obtain ⟨n, hn⟩ : ∃ n, ts.length ≤ n := ⟨_, Nat.le_refl _⟩
    induction n generalizing ts parts with
    | zero =>
      obtain rfl := eq_nil_of_length_eq_zero (by omega : ts.length = 0)
      cases h
      exact .nil
    | succ n ih =>
      rcases lacks_or_cut p ts with hlacks | ⟨front, t, rest, rfl, hfront, ⟨_, hpt⟩ | ⟨ho, hnone⟩⟩
      · rw [split_of_lacks hlacks hp] at h
        cases ts with
        | nil =>
          cases h
          exact .nil
        | cons t ts =>
          cases h
          exact .last (cons_ne_nil _ _) hlacks
      · rw [split_cons hfront hp hpt] at h
        cases hrest : split p rest with
        | error r =>
          rw [hrest] at h
          cases h
        | ok more =>
          rw [hrest] at h
          cases h
          rw [length_append, length_cons] at hn
          exact .cons hfront hpt (ih hrest (by omega))
      · rw [split, hfront.splitFrom hp, splitFrom_unclosed ho hnone] at h
        cases h
  · intro h
    induction h with
    | nil => rfl
    | @last part hne hlacks =>
      rw [split_of_lacks hlacks hp, if_neg (by simpa using hne)]
    | cons hlacks hpt _ ih =>
      rw [split_cons hlacks hp hpt, ih]
      rfl

theorem suffix_of_split (hp : SparesBrackets p) (h : split p ts = .error rest) : rest <:+ ts := by
  obtain ⟨n, hn⟩ : ∃ n, ts.length ≤ n := ⟨_, Nat.le_refl _⟩
  induction n generalizing ts with
  | zero =>
    obtain rfl := eq_nil_of_length_eq_zero (by omega : ts.length = 0)
    cases h
  | succ n ih =>
    rcases lacks_or_cut p ts with hlacks | ⟨front, t, more, rfl, hfront, ⟨_, hpt⟩ | ⟨ho, hnone⟩⟩
    · rw [split_of_lacks hlacks hp] at h
      cases h
    · rw [split_cons hfront hp hpt] at h
      cases hmore : split p more with
      | ok parts =>
        rw [hmore] at h
        cases h
      | error r =>
        rw [hmore] at h
        cases h
        rw [length_append, length_cons] at hn
        have hsuffix := ih hmore (by omega)
        exact hsuffix.trans ((suffix_cons t more).trans (suffix_append front _))
    · rw [split, hfront.splitFrom hp, splitFrom_unclosed ho hnone] at h
      cases h
      exact suffix_append front (t :: more)

/-- A list that is parted: it has not one part alone. -/
def Parted (p : Token → Bool) (ts : List Token) : Prop :=
  ∃ parts, Separated p parts ts ∧ parts.length ≠ 1

theorem isParted_eq_true_iff (hp : SparesBrackets p) : isParted p ts = .ok true ↔ Parted p ts := by
  constructor
  · intro h
    cases hsplit : split p ts with
    | error r =>
      rw [isParted, hsplit] at h
      cases h
    | ok parts =>
      rw [isParted, hsplit] at h
      refine ⟨parts, (split_eq_ok_iff hp).1 hsplit, ?_⟩
      simpa [bind, Except.bind, pure, Except.pure] using h
  · rintro ⟨parts, hparts, hlength⟩
    rw [isParted, (split_eq_ok_iff hp).2 hparts]
    simpa [bind, Except.bind, pure, Except.pure] using hlength

theorem suffix_of_isParted (hp : SparesBrackets p) (h : isParted p ts = .error rest) :
    rest <:+ ts := by
  cases hsplit : split p ts with
  | ok parts =>
    rw [isParted, hsplit] at h
    cases h
  | error r =>
    rw [isParted, hsplit] at h
    cases h
    exact suffix_of_split hp hsplit

/-- What is parted has a token that parts it, unless it is empty. -/
theorem Parted.exists_mem (h : Parted p ts) (hne : ts ≠ []) : ∃ t ∈ ts, p t = true := by
  obtain ⟨parts, hparts, hlength⟩ := h
  cases hparts with
  | nil => exact absurd rfl hne
  | last _ _ => exact absurd rfl hlength
  | @cons part t parts ts _ hpt _ => exact ⟨t, by simp, hpt⟩

theorem not_parted (hp : SparesBrackets p) (h : isParted p ts = .ok false) : ¬Parted p ts := by
  intro hparted
  rw [(isParted_eq_true_iff hp).2 hparted] at h
  cases h

theorem Lacks.not_parted (h : Lacks p ts) (hp : SparesBrackets p) (hne : ts ≠ []) :
    ¬Parted p ts := by
  have hone : isParted p ts = .ok false := by
    rw [isParted, split_of_lacks h hp, if_neg (by simpa using hne)]
    rfl
  exact TopLevel.not_parted hp hone

/-- A list whose brackets are closed can be split at whatever tokens are asked for. -/
theorem exists_split (h : Lacks q ts) (hp : SparesBrackets p) :
    ∃ parts, split p ts = .ok parts := by
  -- what matters of the list is that its brackets are closed
  have hclosed : Lacks (fun _ => false) ts := h.mono fun _ hfalse => nomatch hfalse
  have hspare : SparesBrackets fun _ => false := fun _ _ => rfl
  clear h
  obtain ⟨n, hn⟩ : ∃ n, ts.length ≤ n := ⟨_, Nat.le_refl _⟩
  induction n generalizing ts with
  | zero =>
    obtain rfl := eq_nil_of_length_eq_zero (by omega : ts.length = 0)
    exact ⟨_, rfl⟩
  | succ n ih =>
    rcases lacks_or_cut p ts with hlacks | ⟨front, t, rest, rfl, hfront, hcut⟩
    · exact ⟨_, split_of_lacks hlacks hp⟩
    · have hfront' : Lacks (fun _ => false) front := hfront.mono fun _ hfalse => nomatch hfalse
      have hnone := (index?_eq_none_iff hspare).2 hclosed
      rw [index?, hfront'.indexFrom hspare] at hnone
      have hbehind := eq_none_of_moved hnone
      rcases hcut with ⟨ho, hpt⟩ | ⟨ho, hpartner⟩
      · rw [indexFrom_cons ho rfl] at hbehind
        have hrest := (index?_eq_none_iff hspare).1 (eq_none_of_moved hbehind)
        rw [length_append, length_cons] at hn
        obtain ⟨parts, hparts⟩ := ih hrest (by omega)
        exact ⟨front :: parts, by rw [split_cons hfront hp hpt, hparts]; rfl⟩
      · rw [indexFrom_unclosed ho hpartner] at hbehind
        cases hbehind

/-- Whether such a list is parted can be told. -/
theorem exists_isParted (h : Lacks q ts) (hp : SparesBrackets p) : ∃ b, isParted p ts = .ok b := by
  obtain ⟨parts, hparts⟩ := exists_split h hp
  rw [isParted, hparts]
  exact ⟨_, rfl⟩

theorem isParted_of_not_parted (h : Lacks q ts) (hp : SparesBrackets p) (hnot : ¬Parted p ts) :
    isParted p ts = .ok false := by
  obtain ⟨b, hb⟩ := exists_isParted h hp
  cases b with
  | false => exact hb
  | true => exact absurd ((isParted_eq_true_iff hp).1 hb) hnot

end TopLevel

end LittleJ
