import LittleJ.Proofs.Continuation
import LittleJ.Proofs.Shorthand

/-!
# Passes over the beginning of an expression

Names, literals, and what is refined, called and grouped come to the same at the beginning of an
expression as they do alone. A pass that succeeds on some tokens does the same if more tokens
follow, and then goes on with these: all it has looked for is found before the end, and the tokens
behind are not looked at.

For names this needs the braces to be balanced, for between braces names are not read.
-/

namespace LittleJ

open LittleJ.Bracket Eval List Token

variable {t : Token} {done out us : List Token} {skip : Nat} {depth : Int}

/-! ## Brackets -/

namespace Eval

variable {α : Type} {ts : List Token} {σ τ : Store} {a : α} {k : Nat}

theorem bind_congr_of_eq {β : Type} {m m' : Eval α} (h : m σ = m' τ) (f : α → Eval β) :
    (m >>= f) σ = (m' >>= f) τ := by
  simp only [bind, EStateM.bind, h]

theorem partner_bind_eq_ok {f : Nat → Eval α} (h : (partner ts >>= f) σ = .ok a τ) :
    ∃ k, partner? ts = some k ∧ f k σ = .ok a τ := by
  cases hk : partner? ts with
  | none =>
    rw [partner, hk] at h
    obtain ⟨k, ρ, hraise, -⟩ := Eval.bind_eq_ok.1 h
    exact absurd hraise raiseAt_ne_ok
  | some k =>
    rw [partner, hk] at h
    exact ⟨k, rfl, h⟩

/-- What is done with the brackets at the start of `ts` and the tokens between them does not depend
on what follows them. -/
theorem partner_bind_before (h : partner? ts = some k) (g : Nat → List Token → Eval α)
    (rest : List Token) : (partner (ts ++ rest) >>= fun k => g k (inside k (ts ++ rest))) =
      g k (inside k ts) := by
  have hinside : inside k (ts ++ rest) = inside k ts := by
    rw [inside, inside, take_append_of_le_length (Nat.le_of_lt (partner?_bounds h).2)]
  rw [partner, partner?_append h, pure_bind, hinside]

end Eval

namespace Expression

variable {eval : Expr → Eval Value} {call : Nat → List Value → Eval Value} {σ τ : Store}
    {ts : List Token}

theorem arrayValues_before {p : List Value × Nat} (h : arrayValues eval ts σ = .ok p τ) :
    partner? ts = some p.2 ∧ ∀ rest, arrayValues eval (ts ++ rest) σ = .ok p τ := by
  obtain ⟨k, hk, hrun⟩ := partner_bind_eq_ok h
  have hmore (rest : List Token) : arrayValues eval (ts ++ rest) σ = .ok p τ :=
    (congrFun (partner_bind_before hk (fun k inner => do
      let parts ← commaParts inner
      return (← elements eval parts, k)) rest) σ).trans hrun
  obtain ⟨parts, ρ, -, hrun⟩ := Eval.bind_eq_ok.1 hrun
  obtain ⟨vs, ρ', -, hrun⟩ := Eval.bind_eq_ok.1 hrun
  cases hrun
  exact ⟨hk, hmore⟩

theorem selected_before {base : Value} {p : Value × Nat} (h : selected eval base ts σ = .ok p τ) :
    partner? ts = some p.2 ∧ ∀ rest, selected eval base (ts ++ rest) σ = .ok p τ := by
  unfold selected at h ⊢
  cases hb : base.isIndexable with
  | false =>
    rw [hb] at h
    cases h
  | true =>
    rw [hb] at h
    obtain ⟨k, hk, hrun⟩ := partner_bind_eq_ok h
    refine ⟨?_, fun rest => (congrFun (partner_bind_before hk (fun k inner => do
      if k == 1 then raise .emptyRefinement
      let key ← eval inner
      return (← refine base key, k)) rest) σ).trans hrun⟩
    split at hrun
    · cases hrun
    · obtain ⟨key, ρ, -, hrun⟩ := Eval.bind_eq_ok.1 hrun
      obtain ⟨v, ρ', -, hrun⟩ := Eval.bind_eq_ok.1 hrun
      cases hrun
      exact hk

theorem grouped_before {p : Value × Nat} (h : grouped eval ts σ = .ok p τ) :
    partner? ts = some p.2 ∧ ∀ rest, grouped eval (ts ++ rest) σ = .ok p τ := by
  obtain ⟨k, hk, hrun⟩ := partner_bind_eq_ok h
  have hmore (rest : List Token) : grouped eval (ts ++ rest) σ = .ok p τ :=
    (congrFun (partner_bind_before hk (fun k inner => do return (← eval inner, k)) rest) σ).trans
    hrun
  obtain ⟨v, ρ, -, hrun⟩ := Eval.bind_eq_ok.1 hrun
  cases hrun
  exact ⟨hk, hmore⟩

theorem argumentsOf_before {p : List Value × Nat} (h : argumentsOf eval ts σ = .ok p τ) :
    partner? ts = some p.2 ∧ ∀ rest, argumentsOf eval (ts ++ rest) σ = .ok p τ := by
  obtain ⟨k, hk, hrun⟩ := partner_bind_eq_ok h
  let run (k : Nat) (inner : List Token) : Eval (List Value × Nat) :=
    arrayValues eval (.sym .lbracket :: inner ++ [.sym .rbracket]) >>= fun values =>
    pure (values.1, k)
  have hmore (rest : List Token) : argumentsOf eval (ts ++ rest) σ = .ok p τ :=
    (congrFun (partner_bind_before hk run rest) σ).trans hrun
  obtain ⟨q, ρ, -, hrun⟩ := Eval.bind_eq_ok.1 hrun
  cases hrun
  exact ⟨hk, hmore⟩

theorem le_length_of_partner? {k : Nat} (h : partner? (t :: ts) = some k) : k ≤ ts.length :=
  Nat.le_of_lt_succ (partner?_bounds h).2

/-! ## Literals -/

theorem literalsFrom_before (hskip : skip ≤ ts.length)
    (h : literalsFrom eval done skip ts σ = .ok out τ) (rest : List Token) :
    literalsFrom eval done skip (ts ++ rest) σ = literalsFrom eval out.reverse 0 rest τ := by
  induction ts generalizing done skip σ with
  | nil =>
    obtain rfl : skip = 0 := by simpa using hskip
    rw [literalsFrom] at h
    cases h
    rw [reverse_reverse]
    rfl
  | cons t ts ih =>
    cases skip with
    | succ skip => exact ih (Nat.le_of_succ_le_succ hskip) h
    | zero =>
      rw [literalsFrom] at h
      rw [cons_append, literalsFrom]
      by_cases hbrace : t.is .lbrace = true
      · rw [if_pos hbrace] at h ⊢
        obtain ⟨k, hk, h⟩ := partner_bind_eq_ok h
        obtain ⟨parts, ρ₁, hparts, h⟩ := Eval.bind_eq_ok.1 h
        obtain ⟨table, ρ₂, htable, h⟩ := Eval.bind_eq_ok.1 h
        obtain ⟨r, ρ₃, hr, h⟩ := Eval.bind_eq_ok.1 h
        have hmore := partner_bind_before hk (fun k inner => do
          let parts ← commaParts inner
          let table ← entries eval (done.reverse ++ t :: (ts ++ rest)) parts []
          let r ← make (·.newObject table)
          literalsFrom eval (.val (.obj r) :: done) k (ts ++ rest)) rest
        rw [← cons_append]
        refine (congrFun hmore σ).trans ?_
        rw [bind_of_ok hparts, bind_of_ok (entries_within htable), bind_of_ok hr]
        exact ih (le_length_of_partner? hk) h
      · rw [if_neg hbrace] at h ⊢
        by_cases harray : (t.is .lbracket && !selects done.head?) = true
        · rw [if_pos harray] at h ⊢
          obtain ⟨⟨vs, k⟩, ρ₁, hvs, h⟩ := Eval.bind_eq_ok.1 h
          obtain ⟨r, ρ₂, hr, h⟩ := Eval.bind_eq_ok.1 h
          obtain ⟨hk, hmore⟩ := arrayValues_before hvs
          rw [← cons_append, bind_of_ok (hmore rest)]
          exact (bind_of_ok hr _).trans (ih (le_length_of_partner? hk) h)
        · rw [if_neg harray] at h ⊢
          exact ih (Nat.zero_le _) h

/-! ## Refinements, calls and groups -/

theorem applyFrom_before (hskip : skip ≤ ts.length)
    (h : applyFrom eval call done skip ts σ = .ok out τ) (rest : List Token) :
    applyFrom eval call done skip (ts ++ rest) σ = applyFrom eval call out.reverse 0 rest τ := by
  induction ts generalizing done skip σ with
  | nil =>
    obtain rfl : skip = 0 := by simpa using hskip
    rw [applyFrom] at h
    cases h
    rw [reverse_reverse]
    rfl
  | cons t ts ih =>
    cases skip with
    | succ skip => exact ih (Nat.le_of_succ_le_succ hskip) h
    | zero =>
      rw [cons_append]
      rcases applyFrom_cases h with ⟨base, before, p, ρ, rfl, rfl, hp, h⟩ |
        ⟨f, before, p, w, ρ, ρ', rfl, rfl, hf, hp, hw, h⟩ | ⟨p, ρ, rfl, hnone, hp, h⟩ |
        ⟨hbracket, hparen, h⟩
      · obtain ⟨hk, hmore⟩ := selected_before hp
        rw [applyFrom_selected, ← cons_append, bind_of_ok (hmore rest)]
        exact ih (le_length_of_partner? hk) h
      · obtain ⟨hk, hmore⟩ := argumentsOf_before hp
        rw [applyFrom_call hf, ← cons_append, bind_of_ok (hmore rest), bind_of_ok hw]
        exact ih (le_length_of_partner? hk) h
      · obtain ⟨hk, hmore⟩ := grouped_before hp
        rw [applyFrom_grouped hnone, ← cons_append, bind_of_ok (hmore rest)]
        exact ih (le_length_of_partner? hk) h
      · rw [applyFrom_other hbracket hparen]
        exact ih (Nat.zero_le _) h

theorem selects_of_reads {t : Token} {s : String} (h : t.reads s = true) (hs : s = "]" ∨ s = ")") :
    selects (some t) = true := by
  have hread : t.reads "]" = true ∨ t.reads ")" = true := by
    rcases hs with rfl | rfl
    · exact .inl h
    · exact .inr h
  cases t with
  | val v =>
    cases v with
    | str x => rfl
    | _ => cases h
  | _ => simpa [selects] using hread

/-- A bracket that is closed by the last token. -/
theorem selects_getLast_of_partner? {y : Symbol} (hy : y = .lbracket ∨ y = .lparen)
    (h : partner? (.sym y :: ts) = some ts.length) :
    selects (Token.sym y :: ts).getLast? = true := by
  obtain ⟨left, right, u, hleft, hright, hu, hreads⟩ := reads_of_partner? h
  rw [getLast?_eq_getElem?, length_cons, Nat.add_sub_cancel, hu]
  refine selects_of_reads hreads ?_
  rcases hy with rfl | rfl
  · cases hleft
    cases hright
    exact .inl rfl
  · cases hleft
    cases hright
    exact .inr rfl

/-- Tokens that come to one are that one token, or brackets behind them select a part of what they
come to. -/
theorem selects_getLast_of_applyFrom (hskip : skip < ts.length)
    (h : applyFrom eval call done skip ts σ = .ok out τ) (hone : out.length = 1) :
    selects ts.getLast? = true ∨ done = [] ∧ ts.drop skip = out := by
  induction ts generalizing done skip σ with
  | nil => cases hskip
  | cons t ts ih =>
    have hlast (hts : 0 < ts.length) : (t :: ts).getLast? = ts.getLast? := by
      rw [getLast?_cons, getLast?_eq_some_getLast (List.length_pos_iff.1 hts)]
      rfl
    -- behind brackets something is done already
    have hbrackets {y : Symbol} (hy : y = .lbracket ∨ y = .lparen) (ht : t = .sym y)
        {v : Value} {k : Nat} {before : List Token} {ρ : Store} (hk : partner? (t :: ts) = some k)
        (hrun : applyFrom eval call (.val v :: before) k ts ρ = .ok out τ) :
        selects (t :: ts).getLast? = true := by
      subst ht
      have hle := le_length_of_partner? hk
      rcases Nat.lt_or_eq_of_le hle with hlt | rfl
      · rw [hlast (Nat.zero_lt_of_lt hlt)]
        exact (ih hlt hrun).resolve_right fun hnil => cons_ne_nil _ _ hnil.1
      · exact selects_getLast_of_partner? hy hk
    cases skip with
    | succ skip =>
      have hlt : skip < ts.length := Nat.lt_of_succ_lt_succ hskip
      rw [hlast (Nat.zero_lt_of_lt hlt)]
      exact ih hlt h
    | zero =>
      rcases applyFrom_cases h with ⟨base, before, p, ρ, ht, rfl, hp, h⟩ |
        ⟨f, before, p, w, ρ, ρ', ht, rfl, hf, hp, hw, h⟩ | ⟨p, ρ, ht, hnone, hp, h⟩ |
        ⟨hbracket, hparen, h⟩
      · exact .inl (hbrackets (.inl rfl) ht (selected_before hp).1 h)
      · exact .inl (hbrackets (.inr rfl) ht (argumentsOf_before hp).1 h)
      · exact .inl (hbrackets (.inr rfl) ht (grouped_before hp).1 h)
      · cases ts with
        | nil =>
          rw [applyFrom] at h
          cases h
          obtain rfl : done = [] := by simpa using hone
          exact .inr ⟨rfl, rfl⟩
        | cons t' ts =>
          rw [hlast (Nat.succ_pos _)]
          exact .inl ((ih (Nat.succ_pos _) h).resolve_right fun hnil => cons_ne_nil _ _ hnil.1)

/-- Literals make arrays and objects. Any other value that is alone behind the pass was alone before
it. -/
theorem eq_of_literalsFrom {b : Value} (hb : b.isIndexable = false)
    (h : literalsFrom eval done skip ts σ = .ok [.val b] τ) :
    done.reverse ++ ts.drop skip = [.val b] := by
  have hmade {v : Value} (hv : v.isIndexable = true) {done rest : List Token} :
      (val v :: done).reverse ++ rest ≠ [.val b] := by
    intro heq
    have hmem : val v ∈ [val b] := by simp [← heq]
    simp only [mem_singleton, val.injEq] at hmem
    rw [← hmem, hv] at hb
    cases hb
  induction ts generalizing done skip σ with
  | nil =>
    rw [literalsFrom] at h
    obtain ⟨hout, -⟩ := EStateM.Result.ok.inj h
    rw [drop_nil, append_nil, hout]
  | cons t ts ih =>
    cases skip with
    | succ skip => exact ih h
    | zero =>
      rw [literalsFrom] at h
      split at h
      · obtain ⟨k, ρ₁, -, h⟩ := Eval.bind_eq_ok.1 h
        obtain ⟨parts, ρ₂, -, h⟩ := Eval.bind_eq_ok.1 h
        obtain ⟨table, ρ₃, -, h⟩ := Eval.bind_eq_ok.1 h
        obtain ⟨r, ρ₄, -, h⟩ := Eval.bind_eq_ok.1 h
        exact absurd (ih h) (hmade rfl)
      · split at h
        · obtain ⟨⟨vs, k⟩, ρ₁, -, h⟩ := Eval.bind_eq_ok.1 h
          obtain ⟨r, ρ₂, -, h⟩ := Eval.bind_eq_ok.1 h
          exact absurd (ih h) (hmade rfl)
        · simpa using ih h

/-! ## Names -/

/-- How many braces are open behind tokens. -/
def braceDepth (ts : List Token) : Int :=
  ts.countP (·.is .lbrace) - ts.countP (·.is .rbrace)

variable {value : String → Except Error Value}

/-- A token, and what reading names makes of it. -/
inductive Read (value : String → Except Error Value) : Token → Token → Prop where
  | same (t : Token) : Read value t t
  | name {s : String} {v : Value} : value s = .ok v → Read value (.name s) (.val v)

theorem substitute_step (h : substitute value depth (t :: ts) = (us, none)) :
    ∃ u vs, us = u :: vs ∧ Read value t u ∧ substitute value (depth + braceDepth [t]) ts =
      (vs, none) ∧
      ∀ more, substitute value depth (t :: more) =
        (u :: (substitute value (depth + braceDepth [t]) more).1,
          (substitute value (depth + braceDepth [t]) more).2) := by
  -- a token that is kept, with `d` braces open behind it
  have hkept {d : Int} (hd : d = depth + braceDepth [t])
      (hsub : ∀ more, substitute value depth (t :: more) =
      (t :: (substitute value d more).1, (substitute value d more).2)) :
      ∃ u vs, us = u :: vs ∧ Read value t u ∧ substitute value (depth + braceDepth [t]) ts =
        (vs, none) ∧
        ∀ more, substitute value depth (t :: more) =
          (u :: (substitute value (depth + braceDepth [t]) more).1,
            (substitute value (depth + braceDepth [t]) more).2) := by
    subst hd
    rw [hsub ts] at h
    obtain ⟨rfl, hnone⟩ := Prod.mk.inj h
    exact ⟨t, _, rfl, .same t, Prod.ext rfl hnone, hsub⟩
  cases t with
  | name s =>
    have hzero : depth = depth + braceDepth [.name s] := by simp [braceDepth, is]
    by_cases hdepth : (depth == 0) = true
    · cases hs : value s with
      | error e =>
        rw [substitute, if_pos hdepth, hs] at h
        cases h
      | ok v =>
        have hsub (more : List Token) : substitute value depth (.name s :: more) =
            (.val v :: (substitute value depth more).1, (substitute value depth more).2) := by
          rw [substitute, if_pos hdepth, hs]
        rw [hsub ts] at h
        obtain ⟨rfl, hnone⟩ := Prod.mk.inj h
        rw [← hzero]
        exact ⟨_, _, rfl, .name hs, Prod.ext rfl hnone, hsub⟩
    · refine hkept hzero fun more => ?_
      rw [substitute, if_neg hdepth]
  | sym y =>
    by_cases hleft : y = .lbrace
    · subst hleft
      exact hkept rfl fun more => rfl
    by_cases hright : y = .rbrace
    · subst hright
      exact hkept rfl fun more => rfl
    · exact hkept (d := depth) (by simp [braceDepth, is, hleft, hright])
        (substitute_symbol hleft hright value depth)
  | _ => exact hkept (d := depth) (by simp [braceDepth, is]) fun more => rfl

theorem braceDepth_cons (t : Token) (ts : List Token) :
    braceDepth (t :: ts) = braceDepth [t] + braceDepth ts := by
  simp only [braceDepth, countP_cons, countP_nil]
  omega

/-- Each token is read for itself. -/
theorem read_of_substitute (h : substitute value depth ts = (us, none)) :
    Forall₂ (Read value) ts us := by
  induction ts generalizing depth us with
  | nil =>
    cases h
    exact .nil
  | cons t ts ih =>
    obtain ⟨u, vs, rfl, hread, hrest, -⟩ := substitute_step h
    exact .cons hread (ih hrest)

theorem substitute_before (h : substitute value depth ts = (us, none)) (rest : List Token) :
    substitute value depth (ts ++ rest) =
      (us ++ (substitute value (depth + braceDepth ts) rest).1,
        (substitute value (depth + braceDepth ts) rest).2) := by
  induction ts generalizing depth us with
  | nil =>
    cases h
    simp [braceDepth]
  | cons t ts ih =>
    obtain ⟨u, vs, rfl, -, hrest, hmore⟩ := substitute_step h
    rw [cons_append, hmore, ih hrest, braceDepth_cons t ts, Int.add_assoc]
    rfl

theorem resolve_eq_ok_iff {scope : Nat} : resolve scope ts σ = .ok us τ ↔
    substitute (σ.lookup scope) 0 ts = (us, none) ∧ τ = adoptAll scope ts σ := by
  have hlookup : (adoptAll scope ts σ).lookup scope = σ.lookup scope :=
    Store.lookup_of_scopes (scopes_adoptAll scope ts σ) scope
  rw [resolve, resolveWith, modify_bind, get_bind, hlookup]
  obtain ⟨vs, e⟩ := substitute (σ.lookup scope) 0 ts
  cases e with
  | none =>
    constructor
    · rintro ⟨⟩
      exact ⟨rfl, rfl⟩
    · rintro ⟨⟨⟩, rfl⟩
      rfl
  | some e =>
    constructor
    · intro h
      cases h
    · rintro ⟨⟨⟩, _⟩

theorem adoptAll_append (scope : Nat) (ts us : List Token) (σ : Store) :
    adoptAll scope (ts ++ us) σ = adoptAll scope us (adoptAll scope ts σ) :=
  foldl_append

/-- The tokens that select a part of something: a base, and behind it a key in square brackets. -/
def selection (base key : Expr) : Expr :=
  base ++ .sym .lbracket :: (key ++ [.sym .rbracket])

/-- The names of a selection are those of its base and those of its key. -/
theorem resolve_selection {scope : Nat} {base key base' key' : List Token} {ρ : Store}
    (hbraces : braceDepth base = 0) (hbase : resolve scope base σ = .ok base' ρ)
    (hkey : resolve scope key ρ = .ok key' τ) :
    resolve scope (selection base key) σ = .ok (selection base' key') τ := by
  obtain ⟨hbase', rfl⟩ := resolve_eq_ok_iff.1 hbase
  obtain ⟨hkey', rfl⟩ := resolve_eq_ok_iff.1 hkey
  rw [Store.lookup_of_scopes (scopes_adoptAll scope base σ) scope] at hkey'
  refine resolve_eq_ok_iff.2 ⟨?_, ?_⟩
  · rw [selection, substitute_before hbase', hbraces, Int.add_zero, substitute_symbol
      (by decide) (by decide), substitute_before hkey', substitute_symbol (by decide) (by decide)]
    rfl
  · rw [selection, adoptAll_append]
    show _ = adoptAll scope (key ++ [.sym .rbracket]) (adoptAll scope base σ)
    rw [adoptAll_append]
    rfl

/-- Reading names keeps brackets nested, if no name stands for a bracket. -/
theorem clear_of_read {p : Token → Bool} (hp : ∀ v, p (.val v) = false) (h : Clear p ts)
    (hread : Forall₂ (Read value) ts us)
    (hname : ∀ s v, .name s ∈ ts → value s = .ok v → isBracket (.val v) = false) : Clear p us := by
  -- the check for nested brackets goes through both lists alike
  have hclears (owed : List Symbol) (hts : clears p owed ts = true) : clears p owed us = true := by
    clear h
    induction hread generalizing owed with
    | nil => exact hts
    | @cons t u ts us htu _ ih =>
      have hrest := ih fun s v hs => hname s v (mem_cons_of_mem _ hs)
      cases htu with
      | same =>
        rw [clears] at hts ⊢
        split
        · next y hy =>
            rw [hy] at hts
            exact hrest _ hts
        · next hy =>
            rw [hy] at hts
            dsimp only at hts
            split
            · next hb =>
                rw [if_pos hb, Bool.and_eq_true] at hts
                rw [hts.1, hrest _ hts.2]
                rfl
            · next hb =>
                rw [if_neg hb, Bool.and_eq_true] at hts
                rw [hts.1, hrest _ hts.2]
                rfl
      | @name s v hv =>
        have hval : isBracket (.val v) = false := hname s v mem_cons_self hv
        rw [clears, closing?_of_not_bracket hval]
        rw [clears, show closing? (.name s) = none from rfl] at hts
        dsimp only at hts ⊢
        rw [if_neg (by simp [hval]), hp v]
        split at hts
        · -- a name is never the symbol that closes a bracket
          cases owed <;> simp [is] at hts
        · rw [Bool.and_eq_true] at hts
          rw [Bool.not_false, Bool.or_true, Bool.true_and]
          exact hrest _ hts.2
  exact clear_of_clears (hclears [] (clears_iff.2 h))

end Expression

end LittleJ
