import LittleJ.Proofs.Grammar

/-!
# What readers report

A reader that fails reports an error about the text, with two exceptions. A `break` with nothing
behind it makes it look past the end of a list, and an infinite number cannot be shown in the
excerpt of a report. There is one lemma for each reader, on lists of tokens for which it is known
whether a `break` is the last token of a block, and whether there is an infinite number among them.

The fuel never runs out, for blocks are shorter than the lists around them. And a reader that looks
for a sign is only asked to where one stands.
-/

namespace LittleJ

open LittleJ.Bracket LittleJ.TopLevel LittleJ.Grammar

variable {t : Token} {all : List Token} {parts : List (List Token)} {skip : Nat}

/-! ## Excerpts -/

/-- A token that can be shown, unless there is an infinite number. -/
def Token.Shows (infinite : Prop) (t : Token) : Prop :=
  ∀ f, t.print Value.printPlain = .error f → f = .overflow ∧ infinite

theorem Token.shows_of_ok {infinite : Prop} {s : String} (h : t.print Value.printPlain = .ok s) :
    t.Shows infinite := by
  intro f hf
  rw [h] at hf
  cases hf

theorem Token.shows_sym {infinite : Prop} (y : Symbol) : (Token.sym y).Shows infinite :=
  Token.shows_of_ok (by rw [Token.print])

theorem Token.error_of_printAll {value : Value → Except Fault String} {ts : List Token} {f : Fault}
    (h : Token.printAll value ts = .error f) : ∃ t ∈ ts, t.print value = .error f := by
  induction ts with
  | nil => simp [Token.printAll] at h
  | cons t ts ih =>
    rw [Token.printAll] at h
    cases ht : t.print value with
    | error f' =>
      rw [ht] at h
      cases h
      exact ⟨t, List.mem_cons_self, ht⟩
    | ok s =>
      rw [ht] at h
      cases hts : Token.printAll value ts with
      | error f' =>
        rw [hts] at h
        cases h
        obtain ⟨u, hu, hprint⟩ := ih hts
        exact ⟨u, List.mem_cons_of_mem _ hu, hprint⟩
      | ok shown =>
        rw [hts] at h
        cases h

/-- A function is shown by the tokens it was read from. -/
theorem Token.shows_func {infinite : Prop} {params : List String} {body : Program}
    {source : List Token} (h : ∀ t ∈ source, t.Shows infinite) :
    (Token.func (.mk params body source)).Shows infinite := by
  intro f hf
  rw [Token.print] at hf
  cases hall : Token.printAll Value.printPlain source with
  | error f' =>
    rw [hall] at hf
    cases hf
    obtain ⟨t, ht, hprint⟩ := Token.error_of_printAll hall
    exact h t ht _ hprint
  | ok shown =>
    rw [hall] at hf
    cases hf

theorem error_of_mapM {ε α β : Type} {g : α → Except ε β} {xs : List α} {f : ε}
    (h : xs.mapM g = .error f) : ∃ x ∈ xs, g x = .error f := by
  induction xs with
  | nil => simp [pure, Except.pure] at h
  | cons x xs ih =>
    rw [List.mapM_cons] at h
    cases hx : g x with
    | error f' =>
      rw [hx] at h
      cases h
      exact ⟨x, List.mem_cons_self, hx⟩
    | ok y =>
      rw [hx] at h
      cases hxs : xs.mapM g with
      | error f' =>
        rw [hxs] at h
        cases h
        obtain ⟨u, hu, hg⟩ := ih hxs
        exact ⟨u, List.mem_cons_of_mem _ hu, hg⟩
      | ok ys =>
        rw [hxs] at h
        cases h

theorem overflow_of_excerpt {infinite : Prop} {ts : List Token} (hts : ∀ t ∈ ts, t.Shows infinite)
    {f : Fault} (h : excerpt Value.printPlain ts = .error f) : f = .overflow ∧ infinite := by
  unfold excerpt at h
  cases hshown : (ts.take 20).mapM (Token.printInExcerpt Value.printPlain) with
  | error f' =>
    rw [hshown] at h
    cases h
    obtain ⟨t, ht, hprint⟩ := error_of_mapM hshown
    unfold Token.printInExcerpt at hprint
    split at hprint
    · cases hprint
    · exact hts t (List.mem_of_mem_take ht) _ hprint
  | ok shown =>
    rw [hshown] at h
    cases h

namespace Parser

variable {α β : Type} {loose infinite : Prop}

/-! ## Reports -/

/-- What may be reported: an error about the text, a position outside a list if a `break` may stand
last in a block, and an overflow if there may be an infinite number. -/
inductive Reported (loose infinite : Prop) : Failure → Prop where
  | error {e : Error} : e.kind = .malformed ∨ e.kind = .type → Reported loose infinite (.error e)
  | position : loose → Reported loose infinite (.fault .position)
  | overflow : infinite → Reported loose infinite (.fault .overflow)

/-- A reading that succeeds or reports one of these. -/
def Reports (loose infinite : Prop) (x : Parse α) : Prop :=
  ∀ y, x = .error y → Reported loose infinite y

theorem Reports.ok {a : α} : Reports loose infinite (.ok a : Parse α) := by
  intro y hy
  cases hy

theorem Reports.bind {x : Parse α} {k : α → Parse β} (h : Reports loose infinite x)
    (hk : ∀ a, x = .ok a → Reports loose infinite (k a)) : Reports loose infinite (x >>= k) := by
  intro y hy
  cases x with
  | error z =>
    cases hy
    exact h _ rfl
  | ok a => exact hk a rfl y hy

theorem Reports.ite {p : Prop} [Decidable p] {x x' : Parse α} (h : p → Reports loose infinite x)
    (h' : ¬p → Reports loose infinite x') : Reports loose infinite (if p then x else x') := by
  by_cases hp : p
  · rw [if_pos hp]
    exact h hp
  · rw [if_neg hp]
    exact h' hp

theorem reports_fail {e : Error} (he : e.kind = .malformed ∨ e.kind = .type) :
    Reports loose infinite (fail e : Parse α) := by
  intro y hy
  cases hy
  exact .error he

theorem reports_check {p : Prop} [Decidable p] {e : Error} {k : Unit → Parse β}
    (he : e.kind = .malformed ∨ e.kind = .type) (h : ¬p → Reports loose infinite (k ())) :
    Reports loose infinite (if p then fail e >>= k else k ()) :=
  .ite (fun _ => .bind (reports_fail he) fun _ hfail => nomatch hfail) h

theorem reports_failAt {e : String → Error} {ts : List Token}
    (he : ∀ s, (e s).kind = .malformed ∨ (e s).kind = .type) (hts : ∀ t ∈ ts, t.Shows infinite) :
    Reports loose infinite (failAt e ts : Parse α) := by
  intro y hy
  unfold failAt at hy
  cases hexcerpt : excerpt Value.printPlain ts with
  | ok s =>
    rw [hexcerpt] at hy
    cases hy
    exact .error (he s)
  | error f =>
    rw [hexcerpt] at hy
    cases hy
    obtain ⟨rfl, hinfinite⟩ := overflow_of_excerpt hts hexcerpt
    exact .overflow hinfinite

/-! ## Lists of tokens -/

/-- Tokens that can be shown, none of them a `break` right before the end of a block, as far as this
is known. -/
structure Fit (loose infinite : Prop) (ts : List Token) : Prop where
  shows : ∀ t ∈ ts, t.Shows infinite
  chain : ¬loose → ts.IsChain fun t u => t = .sym .kwBreak → u.reads "\x7d" = false

/-- The same for the tokens of a block. -/
structure FitBlock (loose infinite : Prop) (ts : List Token) :
    Prop extends Fit loose infinite ts where
  last : ¬loose → ts.getLast? ≠ some (.sym .kwBreak)

variable {ts us : List Token}

theorem Fit.of_isInfix (h : Fit loose infinite ts) (hus : us <:+: ts) : Fit loose infinite us :=
  ⟨fun t ht => h.shows t (hus.subset ht), fun hloose => List.IsChain.infix (h.chain hloose) hus⟩

theorem Fit.take (h : Fit loose infinite ts) (n : Nat) : Fit loose infinite (ts.take n) :=
  h.of_isInfix (List.take_prefix n ts).isInfix

theorem Fit.drop (h : Fit loose infinite ts) (n : Nat) : Fit loose infinite (ts.drop n) :=
  h.of_isInfix (List.drop_suffix n ts).isInfix

theorem Fit.replace {left right : List Token} (h : Fit loose infinite (left ++ t :: right)) :
    Fit loose infinite (left ++ Token.sym .assign :: right) := by
  refine ⟨?_, fun hloose => isChain_replace (h.chain hloose) (fun _ _ => by decide) (by simp)⟩
  have hshows := h.shows
  rw [List.forall_mem_append, List.forall_mem_cons] at hshows ⊢
  exact ⟨hshows.1, Token.shows_sym _, hshows.2.2⟩

/-- A block ends before the brace that closes it. -/
theorem Fit.enclosed {code braces : List Token} (h : Fit loose infinite braces)
    (hbraces : Enclosed "\x7b" "\x7d" code braces) : FitBlock loose infinite code := by
  refine ⟨h.of_isInfix hbraces.isInfix, fun hloose hlast => ?_⟩
  have hchain := h.chain hloose
  obtain ⟨o, c, rfl, _, hc, _⟩ := hbraces
  obtain ⟨front, rfl⟩ := List.getLast?_eq_some_iff.1 hlast
  rw [List.append_assoc, ← List.cons_append] at hchain
  have hfree := (List.isChain_cons_cons.1 hchain.right_of_append).1 rfl
  rw [hc] at hfree
  cases hfree

theorem Fit.framed {rp rc : Nat} (h : Fit loose infinite ts) (hframe : Frame ts rp rc) :
    Fit loose infinite (inside rp ts) ∧ FitBlock loose infinite (inside rc (ts.drop (rp + 1))) :=
  ⟨h.of_isInfix (hframe.framed.isInfix.1.trans (List.take_prefix _ ts).isInfix),
    ((h.drop (rp + 1)).take (rc + 1)).enclosed
    (enclosed_of_startsWith rfl hframe.opensBrace hframe.brace)⟩

/-- The body of a function has a mark before it. -/
theorem FitBlock.scope (h : FitBlock loose infinite ts) :
    FitBlock loose infinite (.sym .varMark :: ts) := by
  refine ⟨⟨List.forall_mem_cons.2 ⟨Token.shows_sym _, h.shows⟩, fun hloose => ?_⟩, fun hloose => ?_⟩
  · exact List.isChain_cons.2 ⟨fun _ _ hmark => (nomatch hmark), h.chain hloose⟩
  · rw [List.getLast?_cons]
    intro hlast
    cases hend : ts.getLast? with
    | none =>
      rw [hend] at hlast
      cases hlast
    | some t =>
      rw [hend] at hlast
      exact h.last hloose (hend.trans hlast)

/-! ## Searches -/

theorem reports_partner (hts : Fit loose infinite ts) : Reports loose infinite (partner ts) := by
  unfold partner
  cases partner? ts with
  | some k => exact .ok
  | none => exact reports_failAt (fun _ => .inl rfl) hts.shows

/-- A search that fails shows a part of the list that it goes through. -/
theorem reports_searched {x : Except (List Token) α} (hts : Fit loose infinite ts)
    (h : ∀ rest, x = .error rest → rest <:+ ts) : Reports loose infinite (searched x) := by
  cases x with
  | ok a => exact .ok
  | error rest =>
    exact reports_failAt (fun _ => .inl rfl) (hts.of_isInfix (h rest rfl).isInfix).shows

theorem reports_upToSemicolon (hall : ∀ t ∈ all, t.Shows infinite) (hts : Fit loose infinite ts) :
    Reports loose infinite (upToSemicolon all ts) := by
  refine .bind (reports_searched hts fun rest => suffix_of_index? (sparesBrackets_is (by decide)))
    fun found _ => ?_
  cases found with
  | none => exact reports_failAt (fun _ => .inl rfl) hall
  | some k => exact .ok

theorem fit_of_upToSemicolon {inner : List Token} {k : Nat}
    (h : upToSemicolon all ts = .ok (inner, k)) (hts : Fit loose infinite ts) :
    Fit loose infinite inner := by
  obtain ⟨rfl, _⟩ := upToSemicolon_inv h
  exact hts.take k

theorem reports_split {y : Symbol} (hy : isBracket (.sym y) = false) (hts : Fit loose infinite ts) :
    Reports loose infinite (searched (split (·.is y) ts)) :=
  reports_searched hts fun _ => suffix_of_split (sparesBrackets_is hy)

theorem reports_isParted {y : Symbol} (hy : isBracket (.sym y) = false)
    (hts : Fit loose infinite ts) :
    Reports loose infinite (searched (isParted (·.is y) ts)) :=
  reports_searched hts fun _ => suffix_of_isParted (sparesBrackets_is hy)

theorem fit_of_split (h : split (·.is .comma) ts = .ok parts) (hts : Fit loose infinite ts) :
    ∀ part ∈ parts, Fit loose infinite part := by
  intro part hpart
  exact hts.of_isInfix (((split_eq_ok_iff (sparesBrackets_is (by decide))).1 h).isInfix part hpart)

/-! ## Expressions -/

section

variable {block : List Token → Parse Program} {bound : Nat}
  (hblock : ∀ us : List Token, us.length < bound → FitBlock loose infinite us →
    Reports loose infinite (block us))

include hblock

theorem reports_functionLiteral (hlen : ts.length ≤ bound) (hts : Fit loose infinite ts) :
    Reports loose infinite (functionLiteral block ts) := by
  unfold functionLiteral
  refine reports_check (.inl rfl) fun hopen => .bind (reports_partner hts) fun rp hrp => ?_
  refine reports_check (.inl rfl) fun hbrace => .bind (reports_partner (hts.drop _)) fun rc hrc =>
    ?_
  refine reports_check (.inl rfl) fun _ => ?_
  have hframe : Frame ts rp rc :=
    ⟨by simpa using hopen, partner?_of_partner hrp, by simpa using hbrace, partner?_of_partner hrc⟩
  have hsource := length_inside hrc
  rw [List.length_drop] at hsource
  cases params? (inside rp ts) with
  | none => exact reports_fail (.inl rfl)
  | some params =>
    refine .bind (hblock _ ?_ (hts.framed hframe).2.scope) fun body _ => .ok
    rw [List.length_cons]
    omega

theorem reports_expressionFrom (hlen : ts.length ≤ bound) (hts : Fit loose infinite ts) :
    Reports loose infinite (expressionFrom block skip ts) := by
  induction ts generalizing skip with
  | nil =>
    rw [expressionFrom]
    exact .ok
  | cons t ts ih =>
    have hlen' : ts.length ≤ bound := Nat.le_of_succ_le hlen
    have hrest : Fit loose infinite ts := hts.of_isInfix (List.suffix_cons t ts).isInfix
    cases skip with
    | succ skip =>
      rw [expressionFrom]
      exact ih hlen' hrest
    | zero =>
      rw [expressionFrom]
      refine .ite (fun _ => ?_) fun _ => ?_
      · refine .bind (reports_functionLiteral hblock hlen' hrest) fun _ _ => ?_
        exact .bind (ih hlen' hrest) fun _ _ => .ok
      · exact .bind (ih hlen' hrest) fun _ _ => .ok

theorem reports_expression (hlen : ts.length ≤ bound) (hts : Fit loose infinite ts) :
    Reports loose infinite (expression block ts) :=
  reports_expressionFrom hblock hlen hts

omit hblock in
/-- What is read of an expression can be shown if its tokens can. -/
theorem shows_expressionFrom {e : Expr} (h : expressionFrom block skip ts = .ok e)
    (hts : ∀ t ∈ ts, t.Shows infinite) :
    ∀ t ∈ e, t.Shows infinite := by
  induction ts generalizing skip e with
  | nil =>
    rw [expressionFrom] at h
    cases h
    simp
  | cons t ts ih =>
    obtain ⟨ht, hrest⟩ := List.forall_mem_cons.1 hts
    cases skip with
    | succ skip =>
      rw [expressionFrom] at h
      exact ih h hrest
    | zero =>
      rw [expressionFrom] at h
      split at h
      · obtain ⟨⟨f, used⟩, hf, h⟩ := ok_of_bind h
        obtain ⟨rest, htail, h⟩ := ok_of_bind h
        cases h
        obtain ⟨rp, rc, names, body, hframe, _, _, _, rfl, _⟩ := functionLiteral_inv hf
        refine List.forall_mem_cons.2 ⟨Token.shows_func fun u hu => hrest u ?_, ih htail hrest⟩
        exact List.mem_of_mem_drop (List.mem_of_mem_take (List.mem_of_mem_drop hu))
      · obtain ⟨rest, htail, h⟩ := ok_of_bind h
        cases h
        exact List.forall_mem_cons.2 ⟨ht, ih htail hrest⟩

/-! ## Assignments -/

omit hblock in
theorem reports_isTarget (fuel : Nat) (ts : List Token) :
    Reports loose infinite (isTarget fuel ts) := by
  induction fuel generalizing ts with
  | zero => exact .ok
  | succ fuel ih =>
    match ts with
    | [] => exact .ok
    | [t] => exact .ok
    | t :: t' :: more =>
      rw [isTarget_cons_cons]
      refine .ite (fun _ => .ok) fun _ => .ite (fun _ => ?_) fun _ => .ok
      cases opener? (t :: t' :: more) with
      | none => exact reports_fail (.inl rfl)
      | some k => exact .ite (fun _ => .ok) fun _ => .ite (fun _ => ih _) fun _ => .ok

omit hblock in
theorem exists_findIdx? {p : Token → Bool} (h : ∃ t ∈ ts, p t = true) :
    ∃ k, ts.findIdx? p = some k := by
  obtain ⟨t, ht, hp⟩ := h
  cases hk : ts.findIdx? p with
  | some k => exact ⟨k, rfl⟩
  | none =>
    rw [List.findIdx?_eq_none_iff] at hk
    rw [hk t ht] at hp
    cases hp

theorem reports_assignment (hsign : ∃ t ∈ ts, t.reads "=" = true) (hlen : ts.length ≤ bound)
    (hts : Fit loose infinite ts) : Reports loose infinite (assignment block ts) := by
  unfold assignment
  refine .ite (fun _ => .bind (reports_failAt (fun _ => .inr rfl) hts.shows) fun _ h =>
    absurd h failAt_ne_ok) fun _ => ?_
  obtain ⟨k, hk⟩ := exists_findIdx? hsign
  rw [hk]
  have hleft : (ts.take k).length ≤ bound := Nat.le_trans (List.length_take_le' k ts) hlen
  have hright : (ts.drop (k + 1)).length ≤ bound := by
    rw [List.length_drop]
    omega
  refine .bind (reports_expression hblock hleft (hts.take k)) fun target htarget => ?_
  refine .bind (reports_expression hblock hright (hts.drop (k + 1))) fun value _ => ?_
  refine .bind (reports_isTarget _ _) fun b _ => .ite (fun _ => .ok) fun _ => ?_
  exact reports_failAt (fun _ => .inr rfl) (shows_expressionFrom htarget (hts.take k).shows)

theorem reports_shorthand (hsign : ∃ t ∈ ts, t.reads "+=" = true ∨ t.reads "-=" = true)
    (hlen : ts.length ≤ bound) (hts : Fit loose infinite ts) :
    Reports loose infinite (shorthand block ts) := by
  unfold shorthand
  generalize hword : (if ts.any (·.reads "+=") then ("+=", Symbol.plus) else ("-=", Symbol.minus)) =
    p
  obtain ⟨word, op⟩ := p
  dsimp only
  have hfound : ∃ t ∈ ts, t.reads word = true := by
    split at hword
    · rename_i hplus
      cases hword
      exact List.any_eq_true.1 hplus
    · rename_i hplus
      cases hword
      obtain ⟨t, ht, hreads | hreads⟩ := hsign
      · exact absurd (List.any_eq_true.2 ⟨t, ht, hreads⟩) hplus
      · exact ⟨t, ht, hreads⟩
  obtain ⟨k, hk⟩ := exists_findIdx? hfound
  obtain ⟨t, _, hsplit⟩ := eq_of_findIdx? hk
  rw [hk]
  have hjoined : (ts.take k ++ Token.sym .assign :: ts.drop (k + 1)).length = ts.length := by
    have hlength := congrArg List.length hsplit
    rw [List.length_append, List.length_cons] at hlength
    rw [List.length_append, List.length_cons]
    exact hlength.symm
  have hfit : Fit loose infinite (ts.take k ++ Token.sym .assign :: ts.drop (k + 1)) := by
    rw [hsplit] at hts
    exact hts.replace
  have hassign : ∃ u ∈ ts.take k ++ Token.sym .assign :: ts.drop (k + 1), u.reads "=" = true :=
    ⟨.sym .assign, by simp, by decide⟩
  exact .bind (reports_assignment hblock hassign (by omega) hfit) fun sides _ => .ok

theorem reports_clauseAssignments (hlen : ∀ part ∈ parts, part.length ≤ bound)
    (hparts : ∀ part ∈ parts, Fit loose infinite part) :
    Reports loose infinite (clauseAssignments block parts) := by
  induction parts with
  | nil => exact .ok
  | cons part parts ih =>
    rw [List.forall_mem_cons] at hlen hparts
    have hrest := ih hlen.2 hparts.2
    rw [clauseAssignments]
    refine .ite (fun hassign => ?_) fun _ => .ite (fun hshort => ?_) fun _ => ?_
    · refine .bind (reports_assignment hblock (List.any_eq_true.1 hassign) hlen.1 hparts.1)
        fun sides _ => ?_
      exact .bind hrest fun _ _ => .ok
    · have hsign : ∃ t ∈ part, t.reads "+=" = true ∨ t.reads "-=" = true := by
        simp only [Bool.or_eq_true, List.any_eq_true] at hshort
        rcases hshort with ⟨t, ht, hreads⟩ | ⟨t, ht, hreads⟩
        · exact ⟨t, ht, .inl hreads⟩
        · exact ⟨t, ht, .inr hreads⟩
      refine .bind (reports_shorthand hblock hsign hlen.1 hparts.1) fun sides _ => ?_
      exact .bind hrest fun _ _ => .ok
    · exact .bind (reports_fail (.inl rfl)) fun sides hfail => by cases hfail

theorem reports_clause (hlen : ts.length ≤ bound) (hts : Fit loose infinite ts) :
    Reports loose infinite (clause block ts) := by
  refine .bind (reports_split (by decide) hts) fun parts hparts => ?_
  have hparts := ok_of_searched hparts
  refine reports_clauseAssignments hblock (fun part hpart => ?_) (fit_of_split hparts hts)
  exact Nat.le_trans (length_le_of_mem_split hparts part hpart) hlen

/-! ## Statements -/

theorem reports_guarded (word : String) (hlen : ts.length ≤ bound) (hts : Fit loose infinite ts) :
    Reports loose infinite (guarded block word ts) := by
  unfold guarded
  refine reports_check (.inl rfl) fun hopen => .bind (reports_partner hts) fun rp hrp => ?_
  refine reports_check (.inl rfl) fun _ => reports_check (.inl rfl) fun hbrace => ?_
  refine .bind (reports_partner (hts.drop _)) fun rc hrc => reports_check (.inl rfl) fun _ => ?_
  have hframe : Frame ts rp rc :=
    ⟨by simpa using hopen, partner?_of_partner hrp, by simpa using hbrace, partner?_of_partner hrc⟩
  obtain ⟨hinner, hcode⟩ := hts.framed hframe
  have hinnerLength := length_inside hrp
  have hcodeLength := length_inside hrc
  rw [List.length_drop] at hcodeLength
  refine .bind (reports_expression hblock (by omega) hinner) fun condition _ => ?_
  exact .bind (hblock _ (by omega) hcode) fun code _ => .ok

omit hblock in
theorem reports_threeClauses (ts : List Token) : Reports loose infinite (threeClauses ts) := by
  unfold threeClauses
  cases ts.findIdx? (·.reads ";") with
  | none => exact reports_fail (.inl rfl)
  | some k =>
    dsimp only
    cases (ts.drop (k + 1)).findIdx? (·.reads ";") with
    | none => exact reports_fail (.inl rfl)
    | some k' => exact .ite (fun _ => reports_fail (.inl rfl)) fun _ => .ok

theorem reports_forStatement (hlen : ts.length ≤ bound) (hts : Fit loose infinite ts) :
    Reports loose infinite (forStatement block ts) := by
  unfold forStatement
  refine reports_check (.inl rfl) fun hopen => .bind (reports_partner hts) fun rp hrp => ?_
  refine reports_check (.inl rfl) fun _ => reports_check (.inl rfl) fun hbrace => ?_
  refine .bind (reports_partner (hts.drop _)) fun rc hrc => reports_check (.inl rfl) fun _ => ?_
  refine .bind (reports_threeClauses _) fun clauses hclauses => ?_
  obtain ⟨first, middle, last⟩ := clauses
  have hframe : Frame ts rp rc :=
    ⟨by simpa using hopen, partner?_of_partner hrp, by simpa using hbrace, partner?_of_partner hrc⟩
  obtain ⟨hinner, hcode⟩ := hts.framed hframe
  have hinnerLength := length_inside hrp
  have hcodeLength := length_inside hrc
  obtain ⟨s₁, s₂, _, _, hsplit, _, _⟩ := threeClauses_inv hclauses
  rw [hsplit] at hinner hinnerLength
  simp only [List.length_append, List.length_cons] at hinnerLength
  rw [List.length_drop] at hcodeLength
  have hfirst := hinner.of_isInfix (List.prefix_append first _).isInfix
  have hmiddle : Fit loose infinite middle := hinner.of_isInfix ⟨first ++ [s₁], s₂ :: last, by simp⟩
  have hlast : Fit loose infinite last :=
    hinner.of_isInfix ⟨first ++ s₁ :: (middle ++ [s₂]), [], by simp⟩
  refine .bind (reports_clause hblock (by omega) hfirst) fun before _ => ?_
  refine .bind (reports_expression hblock (by omega) hmiddle) fun condition _ => ?_
  refine .bind (reports_clause hblock (by omega) hlast) fun after _ => ?_
  exact .bind (hblock _ (by omega) hcode) fun code _ => .ok

theorem reports_declarations (hlen : ∀ part ∈ parts, part.length ≤ bound)
    (hparts : ∀ part ∈ parts, Fit loose infinite part) :
    Reports loose infinite (declarations block parts) := by
  induction parts with
  | nil => exact .ok
  | cons part parts ih =>
    rw [List.forall_mem_cons] at hlen hparts
    by_cases hform : ∃ s t ts, part = .name s :: .sym .assign :: t :: ts
    · obtain ⟨s, t, ts, rfl⟩ := hform
      obtain ⟨hlength, hlen⟩ := hlen
      simp only [List.length_cons] at hlength
      have hvalue : Fit loose infinite (t :: ts) :=
        hparts.1.of_isInfix ⟨[.name s, .sym .assign], [], by simp⟩
      rw [declarations]
      refine .bind (reports_expression hblock (by rw [List.length_cons]; omega) hvalue)
        fun value _ => ?_
      exact .bind (ih hlen hparts.2) fun _ _ => .ok
    · rw [declarations_eq_fail parts fun s t ts he => hform ⟨s, t, ts, he⟩]
      exact reports_fail (.inl rfl)

theorem reports_varStatement {prev : Option Token} (hall : ∀ t ∈ all, t.Shows infinite)
    (hlen : ts.length ≤ bound) (hts : Fit loose infinite ts) :
    Reports loose infinite (varStatement block all prev ts) := by
  unfold varStatement
  refine reports_check (.inl rfl) fun _ => .bind (reports_upToSemicolon hall hts) fun r hinner => ?_
  obtain ⟨inner, k⟩ := r
  have hfit := fit_of_upToSemicolon hinner hts
  refine .bind (reports_split (by decide) hfit) fun parts hparts => ?_
  have hparts := ok_of_searched hparts
  refine .bind (reports_declarations hblock (fun part hpart => ?_) (fit_of_split hparts hfit))
    fun _ _ => .ok
  have hpart := length_le_of_mem_split hparts part hpart
  have := length_upToSemicolon hinner
  omega

theorem reports_elseArm (hlen : ts.length ≤ bound) (hts : Fit loose infinite ts) :
    Reports loose infinite (elseArm block ts) := by
  unfold elseArm
  cases ts with
  | nil => exact reports_fail (.inl rfl)
  | cons t rest =>
    refine .ite (fun _ => ?_) fun _ => .ite (fun hbrace => ?_) fun _ => reports_fail (.inl rfl)
    · have hrest : Fit loose infinite rest := hts.of_isInfix (List.suffix_cons t rest).isInfix
      exact .bind (reports_guarded hblock "else if" (Nat.le_of_succ_le hlen) hrest) fun g _ => .ok
    · refine .bind (reports_partner hts) fun rc hrc => ?_
      have hcode :=
        (hts.take (rc + 1)).enclosed (enclosed_of_startsWith rfl hbrace (partner?_of_partner hrc))
      have hlength := length_inside hrc
      exact .bind (hblock _ (by omega) hcode) fun code _ => .ok

theorem reports_plainStatement (hne : ts ≠ []) (hlen : ts.length ≤ bound)
    (hts : Fit loose infinite ts) :
    Reports loose infinite (plainStatement block ts) := by
  have hsign : ∀ {y : Symbol}, isBracket (.sym y) = false →
      searched (isParted (·.is y) ts) = .ok true →
      ∃ t ∈ ts, t.reads y.text = true := by
    intro y hy hparted
    obtain ⟨t, ht, hsym⟩ :=
      ((isParted_eq_true_iff (sparesBrackets_is hy)).1 (ok_of_searched hparted)).exists_mem hne
    refine ⟨t, ht, ?_⟩
    rw [Token.is_iff.1 hsym]
    simp [Token.reads]
  unfold plainStatement
  refine .bind (reports_isParted (by decide) hts) fun assigns hassigns =>
    .ite (fun htrue => ?_) fun _ => ?_
  · subst htrue
    exact .bind (reports_assignment hblock (hsign (by decide) hassigns) hlen hts) fun sides _ => .ok
  · refine .bind (reports_isParted (by decide) hts) fun adds hadds => ?_
    refine .bind (reports_isParted (by decide) hts) fun subtracts hsubtracts =>
      .ite (fun hsome => ?_) fun _ => ?_
    · have hshort : ∃ t ∈ ts, t.reads "+=" = true ∨ t.reads "-=" = true := by
        rw [Bool.or_eq_true] at hsome
        rcases hsome with rfl | rfl
        · obtain ⟨t, ht, hreads⟩ := hsign (by decide) hadds
          exact ⟨t, ht, .inl hreads⟩
        · obtain ⟨t, ht, hreads⟩ := hsign (by decide) hsubtracts
          exact ⟨t, ht, .inr hreads⟩
      exact .bind (reports_shorthand hblock hshort hlen hts) fun sides _ => .ok
    · refine .ite (fun _ => reports_fail (.inl rfl)) fun _ => ?_
      exact .bind (reports_expression hblock hlen hts) fun e _ => .ok

theorem reports_unmarked {done : Done} (hall : ∀ t ∈ all, t.Shows infinite)
    (hlen : ts.length ≤ bound) (hts : Fit loose infinite ts) :
    Reports loose infinite (unmarked block all done ts) := by
  refine .bind (reports_upToSemicolon hall hts) fun r hinner => ?_
  obtain ⟨inner, k⟩ := r
  have hfit := fit_of_upToSemicolon hinner hts
  have hlength := length_upToSemicolon hinner
  refine reports_check (.inl rfl) fun hne => ?_
  exact .bind (reports_plainStatement hblock (by simpa using hne) (by omega) hfit) fun s _ => .ok

theorem reports_statement {prev : Option Token} {done : Done} (hall : ∀ u ∈ all, u.Shows infinite)
    (hlen : (t :: ts).length ≤ bound) (hts : FitBlock loose infinite (t :: ts)) :
    Reports loose infinite (statement block all prev done t ts) := by
  have hrest : ts.length ≤ bound := Nat.le_of_succ_le hlen
  have hfit : Fit loose infinite ts := hts.toFit.of_isInfix (List.suffix_cons t ts).isInfix
  cases t with
  | sym y =>
    cases y with
    | varMark => exact .ok
    | kwVar => exact .bind (reports_varStatement hblock hall hrest hfit) fun r _ => .ok
    | kwIf => exact .bind (reports_guarded hblock "if" hrest hfit) fun g _ => .ok
    | kwElse =>
      cases done with
      | nil => exact reports_fail (.inl rfl)
      | cons s before =>
        cases s with
        | ladder arms => exact .bind (reports_elseArm hblock hrest hfit) fun r _ => .ok
        | _ => exact reports_fail (.inl rfl)
    | kwWhile => exact .bind (reports_guarded hblock "while" hrest hfit) fun g _ => .ok
    | kwReturn =>
      refine .bind (reports_upToSemicolon hall hfit) fun r hinner => ?_
      have hlength := length_upToSemicolon hinner
      exact .bind (reports_expression hblock (by omega) (fit_of_upToSemicolon hinner hfit))
        fun e _ => .ok
    | kwBreak =>
      cases ts with
      | nil =>
        -- the `break` is the last token of the block
        intro failure h
        cases h
        exact .position (Classical.byContradiction fun hloose => hts.last hloose rfl)
      | cons s rest => exact .ite (fun _ => .ok) fun _ => reports_fail (.inl rfl)
    | kwFor => exact .bind (reports_forStatement hblock hrest hfit) fun r _ => .ok
    | _ => exact reports_unmarked hblock hall hlen hts.toFit
  | _ => exact reports_unmarked hblock hall hlen hts.toFit

theorem reports_statements {done : Done} {prev : Option Token} (hall : ∀ t ∈ all, t.Shows infinite)
    (hlen : ts.length ≤ bound) (hts : FitBlock loose infinite ts) :
    Reports loose infinite (statements block all done prev skip ts) := by
  induction ts generalizing done prev skip with
  | nil =>
    rw [statements]
    exact .ok
  | cons t ts ih =>
    have hrest : FitBlock loose infinite ts := by
      refine ⟨hts.toFit.of_isInfix (List.suffix_cons t ts).isInfix, fun hloose hlast =>
        hts.last hloose ?_⟩
      rw [List.getLast?_cons, hlast]
      rfl
    cases skip with
    | succ skip =>
      rw [statements]
      exact ih (Nat.le_of_succ_le hlen) hrest
    | zero =>
      rw [statements]
      exact .bind (reports_statement hblock hall hlen hts) fun r _ =>
        ih (Nat.le_of_succ_le hlen) hrest

end

/-- **Reading a block with enough fuel succeeds or reports what may be reported.** -/
theorem reports_block {n : Nat} (hlen : ts.length < n) (hts : FitBlock loose infinite ts) :
    Reports loose infinite (block n ts) := by
  induction n generalizing ts with
  | zero => omega
  | succ n ih =>
    rw [block]
    exact reports_statements (fun us hus => ih (by omega)) hts.shows (Nat.le_refl _) hts

end Parser

end LittleJ
