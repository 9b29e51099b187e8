import LittleJ.Proofs.Brackets

/-!
# Properly nested brackets

Brackets are matched one kind at a time and by counting, so a search from `(` runs through whatever
stands between. Where brackets are properly nested that makes no difference: the partner of a
bracket is the one it is paired with, and a search at the top level passes over every pair as a
whole.

A list is *clear* of a property if its brackets are properly nested and no token outside all
brackets has the property. There is a check for this. Counting one kind of bracket over such a list
ends where it started.
-/

namespace LittleJ.Bracket

open List Token

/-! ## Clear lists -/

/-- An opening bracket and the one that closes it. -/
inductive Pair : Symbol → Symbol → Prop where
  | round : Pair .lparen .rparen
  | square : Pair .lbracket .rbracket
  | curly : Pair .lbrace .rbrace

/-- Whether a token has the text of a bracket. -/
def isBracket (t : Token) : Bool :=
  opens t || t.reads ")" || t.reads "\x7d" || t.reads "]"

/-- The brackets of a list are properly nested, and no token outside all of them has property `p`.
-/
inductive Clear : (Token → Bool) → List Token → Prop where
  | nil {p : Token → Bool} : Clear p []
  | cons {p : Token → Bool} {t : Token} {ts : List Token} :
      isBracket t = false → p t = false → Clear p ts → Clear p (t :: ts)
  | pair {p : Token → Bool} {left right : Symbol} {inner ts : List Token} :
      Pair left right → Clear (fun _ => false) inner → Clear p ts →
      Clear p (.sym left :: (inner ++ .sym right :: ts))

/-- The brackets of a list are properly nested. -/
abbrev Nested (ts : List Token) : Prop :=
  Clear (fun _ => false) ts

variable {p q : Token → Bool} {left right : Symbol} {ts ts' inner : List Token}

theorem Clear.append (h : Clear p ts) (h' : Clear p ts') : Clear p (ts ++ ts') := by
  induction h with
  | nil => exact h'
  | cons ht hp _ ih => exact .cons ht hp (ih h')
  | pair hpair hinner _ _ ih =>
    rw [cons_append, append_assoc, cons_append]
    exact .pair hpair hinner (ih h')

/-- A nested list is clear of what none of its tokens has. -/
theorem Clear.of_forall (h : Clear q ts) (hp : ∀ t ∈ ts, p t = false) : Clear p ts := by
  induction h with
  | nil => exact .nil
  | cons ht _ _ ih =>
    exact .cons ht (hp _ (by simp)) (ih fun t ht => hp t (mem_cons_of_mem _ ht))
  | pair hpair hinner _ _ ih => exact .pair hpair hinner (ih fun t ht => hp t (by simp [ht]))

theorem Clear.nested (h : Clear p ts) : Nested ts :=
  h.of_forall fun _ _ => rfl

theorem Clear.wrap (hpair : Pair left right) (h : Nested inner) :
    Clear p (.sym left :: (inner ++ [Token.sym right])) :=
  .pair hpair h .nil

/-! ## Checking -/

/-- The symbol that closes a token, if the token is an opening bracket. -/
def closing? : Token → Option Symbol
  | .sym .lparen => some .rparen
  | .sym .lbracket => some .rbracket
  | .sym .lbrace => some .rbrace
  | _ => none

/-- Whether the brackets of a list are properly nested and no token outside all of them has property
`p`. The closing brackets in `owed` are still to come. -/
def clears (p : Token → Bool) : List Symbol → List Token → Bool
  | owed, [] => owed.isEmpty
  | owed, t :: ts =>
    match closing? t with
    | some y => clears p (y :: owed) ts
    | none =>
      if isBracket t then owed.head?.any t.is && clears p owed.tail ts
      else (!owed.isEmpty || !p t) && clears p owed ts

theorem closing?_of_pair (h : Pair left right) : closing? (.sym left) = some right := by
  cases h <;> rfl

theorem closing?_right_of_pair (h : Pair left right) : closing? (.sym right) = none := by
  cases h <;> rfl

theorem isBracket_right_of_pair (h : Pair left right) : isBracket (.sym right) = true := by
  cases h <;> decide

theorem pair_of_closing? {t : Token} {y : Symbol} (h : closing? t = some y) :
    ∃ x, t = .sym x ∧ Pair x y := by
  unfold closing? at h
  split at h <;> cases h
  · exact ⟨_, rfl, .round⟩
  · exact ⟨_, rfl, .square⟩
  · exact ⟨_, rfl, .curly⟩

theorem closing?_of_not_bracket {t : Token} (h : isBracket t = false) : closing? t = none := by
  cases ht : closing? t with
  | none => rfl
  | some y =>
    obtain ⟨x, rfl, hpair⟩ := pair_of_closing? ht
    cases hpair <;> revert h <;> decide

/-- What a check that owes `y` has passed is a nested list, `y`, and the rest. -/
theorem exists_of_clears {y : Symbol} {owed : List Symbol} (h : clears p (y :: owed) ts = true) :
    ∃ inner rest, ts = inner ++ .sym y :: rest ∧ Nested inner ∧ clears p owed rest = true := by
  -- the induction is on a bound of the length: behind an inner pair the rest is checked with the
  -- same debt
  obtain ⟨n, hn⟩ : ∃ n, ts.length ≤ n := ⟨_, Nat.le_refl _⟩
  induction n generalizing ts y owed with
  | zero =>
    obtain rfl := eq_nil_of_length_eq_zero (by omega : ts.length = 0)
    simp [clears] at h
  | succ n ih =>
    cases ts with
    | nil => simp [clears] at h
    | cons t ts =>
      have hlen : ts.length ≤ n := by simpa using hn
      rw [clears] at h
      split at h
      · rename_i z hz
        obtain ⟨x, rfl, hpair⟩ := pair_of_closing? hz
        obtain ⟨first, rest, rfl, hfirst, hrest⟩ := ih h hlen
        simp only [length_append, length_cons] at hlen
        obtain ⟨second, rest', rfl, hsecond, hrest'⟩ := ih hrest (by omega)
        exact ⟨.sym x :: (first ++ .sym z :: second),
          rest', by simp, .pair hpair hfirst hsecond, hrest'⟩
      · split at h
        · simp only [Bool.and_eq_true] at h
          obtain ⟨his, hrest⟩ := h
          have ht : t = .sym y := by
            cases t with
            | sym z => simpa [is] using his
            | _ => simp [is] at his
          exact ⟨[], ts, by rw [ht]; rfl, .nil, hrest⟩
        · rename_i hbracket
          simp only [Bool.and_eq_true] at h
          obtain ⟨inner, rest, rfl, hinner, hrest⟩ := ih h.2 hlen
          exact ⟨t :: inner, rest, rfl, .cons (by simpa using hbracket) rfl hinner, hrest⟩

theorem clear_of_clears (h : clears p [] ts = true) : Clear p ts := by
  obtain ⟨n, hn⟩ : ∃ n, ts.length ≤ n := ⟨_, Nat.le_refl _⟩
  induction n generalizing ts with
  | zero =>
    obtain rfl := eq_nil_of_length_eq_zero (by omega : ts.length = 0)
    exact .nil
  | succ n ih =>
    cases ts with
    | nil => exact .nil
    | cons t ts =>
      have hlen : ts.length ≤ n := by simpa using hn
      rw [clears] at h
      split at h
      · rename_i z hz
        obtain ⟨x, rfl, hpair⟩ := pair_of_closing? hz
        obtain ⟨inner, rest, rfl, hinner, hrest⟩ := exists_of_clears h
        simp only [length_append, length_cons] at hlen
        exact .pair hpair hinner (ih hrest (by omega))
      · split at h
        · simp at h
        · rename_i hbracket
          simp only [isEmpty_nil, Bool.not_true, Bool.false_or, Bool.and_eq_true,
            Bool.not_eq_true'] at h
          exact .cons (by simpa using hbracket) h.1 (ih h.2 hlen)

/-- A check passes over a clear list. -/
theorem Clear.clears_append (h : Clear q ts) {owed : List Symbol} (hq : owed = [] → q = p)
    (rest : List Token) : clears p owed (ts ++ rest) = clears p owed rest := by
  induction h generalizing p owed rest with
  | nil => rfl
  | @cons q t ts ht hqt _ ih =>
    have hpass : (!owed.isEmpty || !p t) = true := by
      cases owed with
      | nil => rw [← hq rfl, hqt]; rfl
      | cons y owed => rfl
    rw [cons_append, clears, closing?_of_not_bracket ht, ht]
    dsimp only
    rw [if_neg (by simp), hpass, Bool.true_and, ih hq]
  | @pair q left right inner ts hpair _ _ ihinner ih =>
    rw [cons_append, append_assoc, cons_append, clears, closing?_of_pair hpair]
    dsimp only
    rw [ihinner (by simp), clears, closing?_right_of_pair hpair, isBracket_right_of_pair hpair]
    dsimp only
    rw [if_pos rfl, tail_cons, ih hq]
    simp [is]

theorem clears_iff : clears p [] ts = true ↔ Clear p ts := by
  refine ⟨clear_of_clears, fun h => ?_⟩
  have hpass := @Clear.clears_append p p ts h [] (fun _ => rfl) []
  rw [append_nil] at hpass
  rw [hpass]
  rfl

instance : Decidable (Clear p ts) :=
  decidable_of_iff _ clears_iff

/-! ## Counting -/

theorem closerOf?_of_pair (h : Pair left right) : closerOf? left.text = some right.text := by
  cases h <;> rfl

theorem opens_of_not_bracket {t : Token} (ht : isBracket t = false) : opens t = false := by
  simp only [isBracket, Bool.or_eq_false_iff] at ht
  exact ht.1.1.1

/-- A list that leaves the count of open brackets as it was and never brings it to zero. -/
def Level (left right : String) (ts : List Token) : Prop :=
  ∀ depth rest, balanceFrom left right (depth + 1) (ts ++ rest) =
    (balanceFrom left right (depth + 1) rest).map (· + ts.length)

section Level

variable {l r : String}

theorem level_nil : Level l r [] := by
  intro depth rest
  simp

theorem Level.append (h : Level l r ts) (h' : Level l r ts') : Level l r (ts ++ ts') := by
  intro depth rest
  rw [append_assoc, h, h', Option.map_map, length_append]
  congr 1
  funext k
  simp only [Function.comp_apply]
  omega

theorem level_single {t : Token} (hl : t.reads l = false) (hr : t.reads r = false) :
    Level l r [t] := by
  intro depth rest
  rw [singleton_append, balanceFrom, hl, hr]
  simp

/-- A bracket, a list that does not count, and the other bracket do not count together. -/
theorem Level.wrap {x y : Token} (h : Level l r ts) (hx : x.reads l = true) (hy : y.reads l = false)
    (hy' : y.reads r = true) : Level l r (x :: (ts ++ [y])) := by
  intro depth rest
  have hclose : balanceFrom l r (depth + 1 + 1) (y :: rest) =
      (balanceFrom l r (depth + 1) rest).map (· + 1) := by
    rw [balanceFrom, hy, hy']
    simp
  rw [cons_append, balanceFrom, hx, append_assoc, singleton_append]
  simp only [if_true, h (depth + 1), hclose, Option.map_map]
  rw [if_neg (by simp)]
  congr 1
  funext k
  simp only [Function.comp_apply, length_cons, length_append, length_nil]
  omega

end Level

/-- The tokens of two pairs are the same or have no text in common. -/
theorem Pair.reads_of_ne {left' right' : Symbol} (h : Pair left right) (h' : Pair left' right')
    (hne : left ≠ left') : (Token.sym left').reads left.text = false ∧
    (Token.sym left').reads right.text = false ∧
      (Token.sym right').reads left.text = false ∧ (Token.sym right').reads right.text = false := by
  cases h <;> cases h' <;> simp [reads, Symbol.text] at hne ⊢

theorem Pair.right_eq {right' : Symbol} (h : Pair left right) (h' : Pair left right') :
    right = right' := by
  cases h <;> cases h' <;> rfl

theorem Pair.reads_not_bracket (h : Pair left right) {t : Token} (ht : isBracket t = false) :
    t.reads left.text = false ∧ t.reads right.text = false := by
  simp only [isBracket, opens, Bool.or_eq_false_iff] at ht
  obtain ⟨⟨⟨⟨⟨hround, hcurly⟩, hsquare⟩, hround'⟩, hcurly'⟩, hsquare'⟩ := ht
  cases h with
  | round => exact ⟨hround, hround'⟩
  | square => exact ⟨hsquare, hsquare'⟩
  | curly => exact ⟨hcurly, hcurly'⟩

theorem Pair.reads_cross (h : Pair left right) :
    (Token.sym right).reads left.text = false ∧ (Token.sym left).reads right.text = false := by
  cases h <;> decide

theorem reads_text (y : Symbol) : (Token.sym y).reads y.text = true := by
  simp [reads]

/-- A nested list does not count, whichever kind of bracket is counted. -/
theorem Clear.level (h : Clear p ts) (hpair : Pair left right) : Level left.text right.text ts := by
  induction h with
  | nil => exact level_nil
  | cons ht _ _ ih =>
    obtain ⟨hl, hr⟩ := hpair.reads_not_bracket ht
    exact (level_single hl hr).append ih
  | @pair _ left' right' inner ts hpair' _ _ ihinner ih =>
    have hsplit : Token.sym left' :: (inner ++ Token.sym right' :: ts) =
        (.sym left' :: (inner ++ [Token.sym right'])) ++ ts := by simp
    rw [hsplit]
    refine Level.append ?_ ih
    -- a pair of the kind that is counted counts up and down again; any other pair is not counted
    by_cases hsame : left = left'
    · subst hsame
      obtain rfl := hpair.right_eq hpair'
      exact ihinner.wrap (reads_text _) hpair.reads_cross.1 (reads_text _)
    · obtain ⟨h₁, h₂, h₃, h₄⟩ := hpair.reads_of_ne hpair' hsame
      exact (level_single h₁ h₂).append (ihinner.append (level_single h₃ h₄))

/-- A nested list does not count from the right either. -/
theorem Clear.level_reverse (h : Clear p ts) (hpair : Pair left right) :
    Level right.text left.text ts.reverse := by
  induction h with
  | nil => exact level_nil
  | cons ht _ _ ih =>
    obtain ⟨hl, hr⟩ := hpair.reads_not_bracket ht
    rw [reverse_cons]
    exact ih.append (level_single hr hl)
  | @pair _ left' right' inner ts hpair' _ _ ihinner ih =>
    have hsplit : (Token.sym left' :: (inner ++ Token.sym right' :: ts)).reverse =
        ts.reverse ++ (Token.sym right' :: (inner.reverse ++ [Token.sym left'])) := by simp
    rw [hsplit]
    refine ih.append ?_
    by_cases hsame : left = left'
    · subst hsame
      obtain rfl := hpair.right_eq hpair'
      exact ihinner.wrap (reads_text _) hpair.reads_cross.2 (reads_text _)
    · obtain ⟨h₁, h₂, h₃, h₄⟩ := hpair.reads_of_ne hpair' hsame
      exact (level_single h₄ h₃).append (ihinner.append (level_single h₂ h₁))

/-! ## Partners -/

/-- The partner of a bracket in front of a list that does not count is the one behind it. -/
theorem partner?_of_level (hpair : Pair left right) (h : Level left.text right.text inner)
    (rest : List Token) : partner? (.sym left :: (inner ++ .sym right :: rest)) =
      some (inner.length + 1) := by
  have hright : balanceFrom left.text right.text (0 + 1) (.sym right :: rest) = some 0 := by
    rw [balanceFrom, hpair.reads_cross.1, reads_text]
    rfl
  have hinner := h 0 (.sym right :: rest)
  rw [hright] at hinner
  simp only [partner?, text?, closerOf?_of_pair hpair]
  rw [balanceFrom, reads_text, if_pos rfl, if_neg (by simp), hinner]
  simp

/-- What stands before the token that brings the count to zero leaves any higher count as it was. -/
theorem level_of_balanceFrom {l r : String} {depth k : Nat}
    (h : balanceFrom l r (depth + 1) ts = some k) (more : Nat) (rest : List Token) :
    balanceFrom l r (depth + 1 + more) (ts.take k ++ rest) =
      (balanceFrom l r (more + 1) rest).map (· + k) := by
  induction ts generalizing depth k with
  | nil => simp [balanceFrom] at h
  | cons t ts ih =>
    -- the counts after `t`, here and where `more` brackets are open around it
    obtain ⟨d, hd, hd'⟩ : ∃ d,
        (if t.reads l then depth + 1 + 1 else if t.reads r then depth + 1 - 1 else depth + 1) = d ∧
        (if t.reads l then depth + 1 + more + 1
          else if t.reads r then depth + 1 + more - 1 else depth + 1 + more) = d + more := by
      refine ⟨_, rfl, ?_⟩
      split
      · omega
      · split <;> omega
    rw [balanceFrom, hd] at h
    cases d with
    | zero =>
      obtain rfl : 0 = k := by simpa using h
      have hdepth : depth = 0 := by
        split at hd
        · omega
        · split at hd <;> omega
      rw [hdepth, take_zero, nil_append, Nat.zero_add, Nat.add_comm 1]
      simp
    | succ d =>
      rw [if_neg (by simp)] at h
      obtain ⟨j, hj, rfl⟩ := Option.map_eq_some_iff.mp h
      rw [take_succ_cons, cons_append, balanceFrom, hd']
      rw [if_neg (by simp), ih hj, Option.map_map]
      rfl

/-- The partner of a bracket in front of a nested list is the one behind it. -/
theorem partner?_of_pair (hpair : Pair left right) (h : Clear p inner) (rest : List Token) :
    partner? (.sym left :: (inner ++ .sym right :: rest)) = some (inner.length + 1) :=
  partner?_of_level hpair (h.level hpair) rest

end LittleJ.Bracket
