import LittleJ.Proofs.Accepted
import LittleJ.Proofs.Canonical
import LittleJ.Proofs.FunctionsRead
import LittleJ.Proofs.LineByLine

/-!
# Variables come first

A `var` statement has to stand right behind a mark. Marks are put at the start of a program and of
each body, so a scope has one `var` statement at most, it is the first statement, and blocks have
none. But a mark has a text, and where this text is written in a program there is one more mark. So
the rule holds for programs in which no mark is written right before `var`.

The proof is by induction on the derivation. What is read from shorter lists keeps the condition,
since no tokens come next to each other that were not; only the sign of a shorthand assignment is
put in the place of another.
-/

namespace LittleJ

open LittleJ.Bracket LittleJ.TopLevel LittleJ.Grammar List Declarator Program Stmt

/-! ## Neighbours -/

/-- No mark stands right before `var`. -/
def Unmarked (ts : List Token) : Prop :=
  ts.IsChain fun t u => t = .sym .varMark → u ≠ .sym .kwVar

/-- Tokens of a text, without a mark right before `var`. -/
structure Bare (ts : List Token) : Prop where
  unmarked : Unmarked ts
  noFunction : ∀ f, .func f ∉ ts

/-- The same for a scope or a block, where the first token may be a mark that was put there. -/
structure BareScope (ts : List Token) : Prop where
  unmarked : Unmarked ts.tail
  noFunction : ∀ f, .func f ∉ ts

namespace Bare

variable {ts us : List Token}

theorem of_isInfix (h : Bare ts) (hus : us <:+: ts) : Bare us :=
  ⟨ IsChain.infix h.unmarked hus, fun f hf => h.noFunction f (hus.subset hf)⟩

theorem replace {left right : List Token} {t : Token} (h : Bare (left ++ t :: right)) :
    Bare (left ++ Token.sym .assign :: right) := by
  refine ⟨isChain_replace h.unmarked (by simp) (by simp), fun f hf => h.noFunction f ?_⟩
  have hsides : .func f ∈ left ∨ .func f ∈ right := by simpa using hf
  rw [mem_append, mem_cons]
  exact hsides.imp_right .inr

theorem framed {inner code frame : List Token} (h : Bare frame)
    (hframed : Framed inner code frame) :
    Bare inner ∧ Bare code :=
  ⟨h.of_isInfix hframed.isInfix.1, h.of_isInfix hframed.isInfix.2⟩

theorem scope (h : Bare ts) : BareScope ts :=
  ⟨h.unmarked.tail, h.noFunction⟩

theorem body (h : Bare ts) : BareScope (.sym .varMark :: ts) :=
  ⟨h.unmarked, by simpa using h.noFunction⟩

end Bare

namespace BareScope

variable {ts us : List Token}

/-- The block before a statement, and what stands behind the first token of the statement. -/
theorem behind {t : Token} (h : BareScope (ts ++ t :: us)) : BareScope ts ∧ Bare us := by
  obtain ⟨hun, hno⟩ := h
  have hfront : ∀ f, .func f ∉ ts := fun f hf => hno f (mem_append_left _ hf)
  have hback : ∀ f, .func f ∉ us := fun f hf => hno f (mem_append_right _ (mem_cons_of_mem _ hf))
  cases ts with
  | nil => exact ⟨⟨.nil, hfront⟩, ⟨hun, hback⟩⟩
  | cons u ts =>
    rw [cons_append, tail_cons] at hun
    exact ⟨⟨hun.left_of_append, hfront⟩, ⟨hun.right_of_append.tail, hback⟩⟩

/-- A statement that no keyword starts does not start with a mark either. -/
theorem sentence {inner : List Token} (h : BareScope (ts ++ (inner ++ [Token.sym .semi])))
    (hinner : Sentence inner) :
    BareScope ts ∧ Bare inner := by
  obtain ⟨⟨t, rest, rfl, ht⟩, _⟩ := hinner
  obtain ⟨hts, hrest⟩ := h.behind
  have hmark : t ≠ .sym .varMark := by
    rintro rfl
    cases ht
  refine ⟨hts, ⟨List.isChain_cons.2 ⟨fun u _ he => absurd he hmark, ?_⟩, ?_⟩⟩
  · exact IsChain.left_of_append hrest.unmarked
  · exact fun f hf => h.noFunction f (mem_append_right _ (mem_append_left _ hf))

/-- In such a list only the first token can be a mark with `var` behind it. -/
theorem eq_of_getLast? (h : BareScope (ts ++ Token.sym .kwVar :: us))
    (hlast : ts.getLast? = some (.sym .varMark)) :
    ts = [.sym .varMark] := by
  obtain ⟨front, rfl⟩ := List.getLast?_eq_some_iff.1 hlast
  cases front with
  | nil => rfl
  | cons t front =>
    have hun := h.unmarked
    rw [append_assoc, cons_append, tail_cons] at hun
    exact absurd rfl ((List.isChain_cons_cons.1 hun.right_of_append).1 rfl)

end BareScope

/-! ## Scopes -/

/-- The variables of a scope, from its tokens and statements: it has none, or they are those of one
`var` statement, which stands first. -/
inductive VarFirst : List Token → Program → Prop where
  | none {ts : List Token} {p : Program} : (∀ s ∈ p, s.isInit = false) → VarFirst ts p
  | one {inner rest : List Token} {ds : List Declarator} {others : Program} :
      Lacks (·.is .semi) inner →
      Separated (·.is .comma) (ds.map tokens) inner →
      (∀ d ∈ ds, Derives (.expression d.written d.value)) → (∀ s ∈ others, s.isInit = false) →
      VarFirst (.sym .kwVar :: (inner ++ Token.sym .semi :: rest)) (ds.map stmt ++ others)

namespace VarFirst

variable {ts : List Token} {p made : Program}

theorem append (h : VarFirst ts p) (hmade : ∀ s ∈ made, s.isInit = false) (us : List Token) :
    VarFirst (ts ++ us) (p ++ made) := by
  cases h with
  | none hp => exact .none (List.forall_mem_append.2 ⟨hp, hmade⟩)
  | one hlacks hparts hds hothers =>
    rw [cons_append, append_assoc, cons_append, append_assoc]
    exact .one hlacks hparts hds (List.forall_mem_append.2 ⟨hothers, hmade⟩)

/-- A last statement that makes no variable can be taken off. -/
theorem dropLast {s : Stmt} (h : VarFirst ts (p ++ [s])) (hs : s.isInit = false) :
    VarFirst ts p := by
  generalize hq : p ++ [s] = q at h
  cases h with
  | none hall =>
    subst hq
    exact .none (List.forall_mem_append.1 hall).1
  | @one inner rest ds others hlacks hparts hds hothers =>
    rcases eq_nil_or_concat others with rfl | ⟨front, u, rfl⟩
    · rw [append_nil] at hq
      have hmem : s ∈ ds.map stmt := by
        rw [← hq]
        simp
      obtain ⟨d, _, rfl⟩ := List.mem_map.1 hmem
      cases hs
    · rw [concat_eq_append, ← append_assoc] at hq
      obtain ⟨rfl, _⟩ := append_inj' hq rfl
      rw [concat_eq_append, forall_mem_append] at hothers
      exact .one hlacks hparts hds hothers.1

end VarFirst

/-- The variables of a block: it has none, or it starts with a mark and they come first behind it.
-/
def Opens (ts : List Token) (p : Program) : Prop :=
  (∀ s ∈ p, s.isInit = false) ∨ ∃ us, ts = .sym .varMark :: us ∧ VarFirst us p

namespace Opens

variable {ts : List Token} {p made : Program}

theorem append (h : Opens ts p) (hmade : ∀ s ∈ made, s.isInit = false) (us : List Token) :
    Opens (ts ++ us) (p ++ made) := by
  rcases h with hp | ⟨vs, rfl, h⟩
  · exact .inl (List.forall_mem_append.2 ⟨hp, hmade⟩)
  · exact .inr ⟨vs ++ us, rfl, h.append hmade us⟩

theorem dropLast {s : Stmt} (h : Opens ts (p ++ [s])) (hs : s.isInit = false) : Opens ts p := by
  rcases h with hp | ⟨vs, rfl, h⟩
  · exact .inl (List.forall_mem_append.1 hp).1
  · exact .inr ⟨vs, rfl, h.dropLast hs⟩

theorem varFirst (h : Opens (.sym .varMark :: ts) p) : VarFirst ts p := by
  rcases h with hp | ⟨us, hus, h⟩
  · exact .none hp
  · cases hus
    exact h

theorem noInits (h : Opens ts p) (hts : Unmarked ts) : ∀ s ∈ p, s.isInit = false := by
  rcases h with hp | ⟨us, rfl, h⟩
  · exact hp
  · cases h with
    | none hp => exact hp
    | one _ _ _ _ => exact absurd rfl ((List.isChain_cons_cons.1 hts).1 rfl)

end Opens

/-! ## Code -/

/-- Every function in a program has its variables first, and no block in it makes any. -/
structure Program.Tidy (p : Program) : Prop where
  functions : ∀ f, p.Holds f → VarFirst f.source f.body
  blocks : ∀ s, p.Writes s → ∀ b ∈ s.blocks, ∀ u ∈ b, u.isInit = false

/-- The same for the functions in an expression. -/
def Expr.Tidy (e : Expr) : Prop :=
  ∀ f, .func f ∈ e → VarFirst f.source f.body ∧ Program.Tidy f.body

namespace Program

theorem tidy_nil : Tidy [] := by
  refine ⟨?_, ?_⟩
  · rintro f ⟨s, hs, _⟩
    cases hs
  · rintro s (⟨u, hu, _⟩ | ⟨f, ⟨u, hu, _⟩, _⟩)
    · cases hu
    · cases hu

theorem tidy_append {p q : Program} : Tidy (p ++ q) ↔ p.Tidy ∧ q.Tidy := by
  have hholds : ∀ f, Program.Holds (p ++ q) f ↔ p.Holds f ∨ q.Holds f := by
    intro f
    simp only [Program.Holds, mem_append, or_and_right, exists_or]
  have hwrites : ∀ s, Writes (p ++ q) s ↔ p.Writes s ∨ q.Writes s := by
    intro s
    simp only [Writes, hholds, mem_append, or_and_right, exists_or]
    exact or_or_or_comm
  constructor
  · intro h
    refine ⟨⟨?_, ?_⟩, ⟨?_, ?_⟩⟩
    · exact fun f hf => h.functions f ((hholds f).2 (.inl hf))
    · exact fun s hs => h.blocks s ((hwrites s).2 (.inl hs))
    · exact fun f hf => h.functions f ((hholds f).2 (.inr hf))
    · exact fun s hs => h.blocks s ((hwrites s).2 (.inr hs))
  · rintro ⟨hp, hq⟩
    refine ⟨?_, ?_⟩
    · intro f hf
      exact ((hholds f).1 hf).elim (hp.functions f) (hq.functions f)
    · intro s hs
      exact ((hwrites s).1 hs).elim (hp.blocks s) (hq.blocks s)

/-- A statement is tidy if its expressions and blocks are, and its blocks make no variables. -/
theorem tidy_singleton {s : Stmt} : Program.Tidy [s] ↔ (∀ e ∈ s.exprs, Expr.Tidy e) ∧
    ∀ b ∈ s.blocks, (∀ u ∈ b, u.isInit = false) ∧ Program.Tidy b := by
  have hself : s ∈ [s] := List.mem_singleton_self s
  constructor
  · intro h
    refine ⟨fun e he f hf => ⟨h.functions f ⟨s, hself, .here he hf⟩, ⟨?_, ?_⟩⟩,
      fun b hb => ⟨h.blocks s (writes_of_mem hself) b hb, ⟨?_, ?_⟩⟩⟩
    · rintro g ⟨t, ht, hg⟩
      exact h.functions g ⟨s, hself, .inBody he hf ht hg⟩
    · rintro u (⟨t, ht, hu⟩ | ⟨g, ⟨t, ht, hg⟩, v, hv, hu⟩)
      · exact h.blocks u (.inr ⟨f, ⟨s, hself, .here he hf⟩, t, ht, hu⟩)
      · exact h.blocks u (.inr ⟨g, ⟨s, hself, .inBody he hf ht hg⟩, v, hv, hu⟩)
    · rintro g ⟨t, ht, hg⟩
      exact h.functions g ⟨s, hself, .inBlock hb ht hg⟩
    · rintro u (⟨t, ht, hu⟩ | ⟨g, ⟨t, ht, hg⟩, v, hv, hu⟩)
      · exact h.blocks u (.inl ⟨s, hself, .inBlock hb ht hu⟩)
      · exact h.blocks u (.inr ⟨g, ⟨s, hself, .inBlock hb ht hg⟩, v, hv, hu⟩)
  · rintro ⟨hexprs, hblocks⟩
    refine ⟨?_, ?_⟩
    · rintro f ⟨t, ht, hf⟩
      obtain rfl := List.mem_singleton.1 ht
      cases hf with
      | here he hf => exact (hexprs _ he f hf).1
      | inBlock hb hs hf => exact (hblocks _ hb).2.functions f ⟨_, hs, hf⟩
      | inBody he hg hs hf => exact (hexprs _ he _ hg).2.functions f ⟨_, hs, hf⟩
    · rintro u (⟨t, ht, hu⟩ | ⟨f, ⟨t, ht, hf⟩, v, hv, hu⟩)
      · obtain rfl := List.mem_singleton.1 ht
        cases hu with
        | self => exact fun b hb => (hblocks b hb).1
        | inBlock hb hs hu => exact (hblocks _ hb).2.blocks u (.inl ⟨_, hs, hu⟩)
      · obtain rfl := List.mem_singleton.1 ht
        cases hf with
        | here he hf => exact (hexprs _ he f hf).2.blocks u (.inl ⟨v, hv, hu⟩)
        | inBlock hb hs hf => exact (hblocks _ hb).2.blocks u (.inr ⟨f, ⟨_, hs, hf⟩, v, hv, hu⟩)
        | inBody he hg hs hf =>
          exact (hexprs _ he _ hg).2.blocks u (.inr ⟨f, ⟨_, hs, hf⟩, v, hv, hu⟩)

theorem tidy_assign {target value : Expr} (htarget : Expr.Tidy target) (hvalue : Expr.Tidy value) :
    Tidy [.assign target value] :=
  tidy_singleton.2 ⟨by simpa [exprs] using ⟨htarget, hvalue⟩, by simp [blocks]⟩

theorem tidy_loop {condition : Expr} {code : Program} (hcondition : Expr.Tidy condition)
    (hinits : ∀ s ∈ code, s.isInit = false) (hcode : Tidy code) : Tidy [.loop condition code] :=
  tidy_singleton.2 ⟨by simpa [exprs] using hcondition, by simpa [blocks] using ⟨hinits, hcode⟩⟩

theorem tidy_ladder {arms : List (Expr × Program)} : Tidy [.ladder arms] ↔
    ∀ arm ∈ arms, Expr.Tidy arm.1 ∧ (∀ s ∈ arm.2, s.isInit = false) ∧ Tidy arm.2 := by
  rw [tidy_singleton]
  simp only [exprs, blocks, forall_mem_map]
  exact ⟨fun h arm harm => ⟨h.1 arm harm, h.2 arm harm⟩, fun h =>
    ⟨fun arm harm => (h arm harm).1, fun arm harm => (h arm harm).2⟩⟩

theorem tidy_map {α : Type} {xs : List α} {f : α → Stmt} (h : ∀ x ∈ xs, Tidy [f x]) :
    Tidy (xs.map f) := by
  induction xs with
  | nil => exact tidy_nil
  | cons x xs ih =>
    obtain ⟨hx, hxs⟩ := List.forall_mem_cons.1 h
    exact tidy_append.2 ⟨hx, ih hxs⟩

end Program

theorem Expr.tidy_append {e e' : Expr} (h : Expr.Tidy e) (h' : Expr.Tidy e') :
    Expr.Tidy (e ++ e') := by
  intro f hf
  exact (List.mem_append.1 hf).elim (h f) (h' f)

theorem Expr.tidy_cons {t : Token} {e : Expr} (ht : ∀ f, t ≠ .func f) (h : Expr.Tidy e) :
    Expr.Tidy (t :: e) := by
  intro f hf
  rcases List.mem_cons.1 hf with rfl | hf
  · exact absurd rfl (ht f)
  · exact h f hf

/-! ## Derivations -/

/-- What is made of a phrase in which no mark is written before `var`. -/
def Grammar.Phrase.Tidy : Phrase → Prop
  | .expression ts e => Bare ts → Expr.Tidy e
  | .assignment ts target value => Bare ts → Expr.Tidy target ∧ Expr.Tidy value
  | .shorthand ts target value => Bare ts → Expr.Tidy target ∧ Expr.Tidy value
  | .step ts target value => Bare ts → Expr.Tidy target ∧ Expr.Tidy value
  | .block ts p => BareScope ts → Opens ts p ∧ Program.Tidy p

theorem eq_nil_of_mark {p : Program} (h : Derives (.block [.sym .varMark] p)) : p = [] := by
  have hread : Parser.block 2 [.sym .varMark] = .ok p := read_of_derives h 2 (by simp)
  have hempty : Parser.block 2 [.sym .varMark] = .ok [] := rfl
  rw [hempty] at hread
  exact (Except.ok.inj hread).symm

/-- A tidy statement that makes no variable, behind a tidy block. -/
theorem tidy_behind {ts us : List Token} {p made : Program} (h : Opens ts p ∧ Tidy p)
    (hinits : ∀ s ∈ made, s.isInit = false) (hmade : Tidy made) :
    Opens (ts ++ us) (p ++ made) ∧ Tidy (p ++ made) :=
  ⟨h.1.append hinits us, Program.tidy_append.2 ⟨h.2, hmade⟩⟩

/-- One more arm for the ladder that stands last. -/
theorem tidy_arm {ts us : List Token} {p : Program} {arms : List (Expr × Program)}
    {arm : Expr × Program} (h : Opens ts (p ++ [ladder arms]) ∧ Tidy (p ++ [ladder arms]))
    (hcondition : Expr.Tidy arm.1) (hinits : ∀ s ∈ arm.2, s.isInit = false) (hcode : Tidy arm.2) :
    Opens (ts ++ us) (p ++ [ladder (arms ++ [arm])]) ∧ Tidy (p ++ [ladder (arms ++ [arm])]) := by
  obtain ⟨hopens, htidy⟩ := h
  obtain ⟨hp, harms⟩ := Program.tidy_append.1 htidy
  refine tidy_behind ⟨hopens.dropLast rfl, hp⟩ (by simp [isInit]) (Program.tidy_ladder.2 ?_)
  rw [forall_mem_append, forall_mem_singleton]
  exact ⟨Program.tidy_ladder.1 harms, hcondition, hinits, hcode⟩

/-- The block of an `if`, `else`, `while` or `for` makes no variables. -/
theorem tidy_code {code : List Token} {body : Program} (h : (Phrase.block code body).Tidy)
    (hcode : Bare code) : (∀ s ∈ body, s.isInit = false) ∧ Program.Tidy body :=
  ⟨(h hcode.scope).1.noInits hcode.unmarked, (h hcode.scope).2⟩

theorem tidy_of_derives {phrase : Phrase} (h : Derives phrase) : phrase.Tidy := by
  induction h with
  | nil =>
    intro _ f hf
    cases hf
  | token _ _ ih =>
    intro hbare
    have hrest := hbare.of_isInfix (List.suffix_cons _ _).isInfix
    exact Expr.tidy_cons (fun f hf => hbare.noFunction f (by simp [hf])) (ih hrest)
  | @function params code frame ts names body e hframed _ _ _ _ ihbody ihrest =>
    intro hbare
    have hframe : Bare frame := hbare.of_isInfix ⟨[.sym .kwFunction], ts, by simp⟩
    have hrest : Bare ts := hbare.of_isInfix ⟨.sym .kwFunction :: frame, [], by simp⟩
    obtain ⟨hopens, hbody⟩ := ihbody (hframe.framed hframed).2.body
    intro f hf
    rcases List.mem_cons.1 hf with hf | hf
    · cases hf
      exact ⟨hopens.varFirst, hbody⟩
    · exact ihrest hrest f hf
  | @assignment t left right target value _ _ _ _ _ ihleft ihright =>
    intro hbare
    exact ⟨ihleft (hbare.of_isInfix (List.prefix_append left _).isInfix),
      ihright (hbare.of_isInfix ⟨left ++ [t], [], by simp⟩)⟩
  | plus _ _ _ ih =>
    intro hbare
    obtain ⟨htarget, hvalue⟩ := ih hbare.replace
    exact ⟨htarget, Expr.tidy_append htarget (Expr.tidy_cons (by simp) hvalue)⟩
  | minus _ _ _ _ ih =>
    intro hbare
    obtain ⟨htarget, hvalue⟩ := ih hbare.replace
    exact ⟨htarget, Expr.tidy_append htarget (Expr.tidy_cons (by simp) hvalue)⟩
  | set _ ih => exact ih
  | change _ _ ih => exact ih
  | empty => exact fun _ => ⟨.inl (by simp), Program.tidy_nil⟩
  | mark _ ih =>
    intro hbare
    obtain ⟨hopens, htidy⟩ := ih hbare.behind.1
    have hlonger := hopens.append (List.forall_mem_nil _) [.sym .varMark]
    rw [List.append_nil] at hlonger
    exact ⟨hlonger, htidy⟩
  | @declared ts inner p ds hblock hlast hlacks hparts _ hds _ ihds =>
    intro hbare
    obtain rfl := hbare.eq_of_getLast? hlast
    obtain rfl := eq_nil_of_mark hblock
    have hinner : Bare inner := hbare.behind.2.of_isInfix (List.prefix_append _ _).isInfix
    refine ⟨.inr ⟨_, rfl, ?_⟩, Program.tidy_map fun d hd => ?_⟩
    · have hone :
        VarFirst (.sym .kwVar :: (inner ++ [Token.sym .semi])) (ds.map Declarator.stmt ++ []) :=
        .one hlacks hparts hds (by simp)
      rwa [List.append_nil] at hone
    · have htokens := hinner.of_isInfix (hparts.isInfix d.tokens (List.mem_map_of_mem hd))
      have hwritten : Bare d.written :=
        htokens.of_isInfix ⟨[.name d.name, .sym .assign], [], by simp [Declarator.tokens]⟩
      exact Program.tidy_singleton.2
        ⟨by simpa [Declarator.stmt, Stmt.exprs] using ihds d hd hwritten, by simp [Declarator.stmt,
          Stmt.blocks]⟩
  | ladder _ hframed _ _ _ _ ih ihcondition ihbody =>
    intro hbare
    obtain ⟨hts, hframe⟩ := hbare.behind
    obtain ⟨hinner, hcode⟩ := hframe.framed hframed
    refine tidy_behind (ih hts) (by simp [Stmt.isInit]) (Program.tidy_ladder.2 ?_)
    exact List.forall_mem_singleton.2 ⟨ihcondition hinner, tidy_code ihbody hcode⟩
  | @elseIf t ts inner code frame p body condition arms _ _ hframed _ _ _ _ ih ihcondition ihbody =>
    intro hbare
    obtain ⟨hts, hbehind⟩ := hbare.behind
    obtain ⟨hinner, hcode⟩ := (hbehind.of_isInfix (List.suffix_cons t frame).isInfix).framed hframed
    obtain ⟨hinits, hbody⟩ := tidy_code ihbody hcode
    exact tidy_arm (ih hts) (ihcondition hinner) hinits hbody
  | otherwise _ hbraces _ ih ihbody =>
    intro hbare
    obtain ⟨hts, hbehind⟩ := hbare.behind
    obtain ⟨hinits, hbody⟩ := tidy_code ihbody (hbehind.of_isInfix hbraces.isInfix)
    refine tidy_arm (ih hts) ?_ hinits hbody
    exact Expr.tidy_cons (by simp) (fun f hf => by cases hf)
  | loop _ hframed _ _ _ _ ih ihcondition ihbody =>
    intro hbare
    obtain ⟨hts, hframe⟩ := hbare.behind
    obtain ⟨hinner, hcode⟩ := hframe.framed hframed
    obtain ⟨hinits, hbody⟩ := tidy_code ihbody hcode
    exact tidy_behind (ih hts) (by simp [Stmt.isInit])
      (Program.tidy_loop (ihcondition hinner) hinits hbody)
  | @counted s₁ s₂ ts first middle last code frame p body condition before after _ hframed _ _ _ _ _
      hbefore hafter
      _ _ _ ih ihsteps ihcondition ihbody =>
      intro hbare
      obtain ⟨hts, hframe⟩ := hbare.behind
      obtain ⟨hinner, hcode⟩ := hframe.framed hframed
      obtain ⟨hinits, hbody⟩ := tidy_code ihbody hcode
      have hfirst : Bare first := hinner.of_isInfix (List.prefix_append _ _).isInfix
      have hmiddle : Bare middle := hinner.of_isInfix ⟨first ++ [s₁], s₂ :: last, by simp⟩
      have hlast : Bare last := hinner.of_isInfix ⟨first ++ s₁ :: (middle ++ [s₂]), [], by simp⟩
      have hsteps : ∀ {clause : List Token} {steps : List Step}, Bare clause →
          Separated (·.is .comma) (steps.map Step.written) clause →
          (∀ s ∈ steps, (Phrase.step s.written s.target s.value).Tidy) →
          Program.Tidy (steps.map Step.stmt) := by
        intro clause steps hclause hparts hsteps
        refine Program.tidy_map fun s hs => ?_
        obtain ⟨htarget, hvalue⟩ :=
          hsteps s hs (hclause.of_isInfix (hparts.isInfix _ (List.mem_map_of_mem hs)))
        exact Program.tidy_assign htarget hvalue
      have hassigns : ∀ steps : List Step, ∀ s ∈ steps.map Step.stmt, s.isInit = false := by
        intro steps
        simp [Step.stmt, Stmt.isInit]
      rw [List.forall_mem_append] at ihsteps
      have hloop := Program.tidy_loop (ihcondition hmiddle)
        (List.forall_mem_append.2 ⟨hinits, hassigns after⟩)
        (Program.tidy_append.2 ⟨hbody, hsteps hlast hafter ihsteps.2⟩)
      refine tidy_behind (ih hts) ?_
        (Program.tidy_append.2 ⟨hsteps hfirst hbefore ihsteps.1, hloop⟩)
      rw [List.forall_mem_append, List.forall_mem_singleton]
      exact ⟨hassigns before, rfl⟩
  | returned _ _ _ ih ihe =>
    intro hbare
    obtain ⟨hts, hbehind⟩ := hbare.behind
    have he := ihe (hbehind.of_isInfix (List.prefix_append _ _).isInfix)
    refine tidy_behind (ih hts) (by simp [Stmt.isInit])
      (Program.tidy_singleton.2 ⟨?_, by simp [Stmt.blocks]⟩)
    simpa [Stmt.exprs] using he
  | broken _ ih =>
    intro hbare
    exact tidy_behind (ih hbare.behind.1) (by simp [Stmt.isInit])
      (Program.tidy_singleton.2 ⟨by simp [Stmt.exprs], by simp [Stmt.blocks]⟩)
  | assign _ hinner _ _ ih ihsides =>
    intro hbare
    obtain ⟨hts, hsentence⟩ := hbare.sentence hinner
    obtain ⟨htarget, hvalue⟩ := ihsides hsentence
    exact tidy_behind (ih hts) (by simp [Stmt.isInit]) (Program.tidy_assign htarget hvalue)
  | assignShort _ hinner _ _ _ ih ihsides =>
    intro hbare
    obtain ⟨hts, hsentence⟩ := hbare.sentence hinner
    obtain ⟨htarget, hvalue⟩ := ihsides hsentence
    exact tidy_behind (ih hts) (by simp [Stmt.isInit]) (Program.tidy_assign htarget hvalue)
  | exp _ hinner _ _ _ _ _ ih ihe =>
    intro hbare
    obtain ⟨hts, hsentence⟩ := hbare.sentence hinner
    refine tidy_behind (ih hts) (by simp [Stmt.isInit])
      (Program.tidy_singleton.2 ⟨?_, by simp [Stmt.blocks]⟩)
    simpa [Stmt.exprs] using ihe hsentence

/-! ## Texts -/

theorem bareScope_of_lex {source : String} {ts : List Token} (hlex : lex source = .ok ts)
    (hmarks : Unmarked ts.tail) : BareScope ts := by
  refine ⟨hmarks, fun f hf => ?_⟩
  cases Lexer.lexed_lex hlex _ hf

/-- **One `var` statement in a scope, and first.** In a program where no mark is written right
before `var`, the variables of the program and of each function in it are those of one `var`
statement, which stands first in its scope, or there are none; and no block of a ladder or a loop
makes any. -/
theorem var_statement_first {source : String} {ts : List Token} {p : Program}
    (hlex : lex source = .ok ts) (hparse : parse ts = .ok p) (hmarks : Unmarked ts.tail) :
    VarFirst ts.tail p ∧ (∀ f, p.Holds f → VarFirst f.source f.body) ∧
      ∀ s, p.Writes s → ∀ b ∈ s.blocks, ∀ u ∈ b, u.isInit = false := by
  have hbare := bareScope_of_lex hlex hmarks
  obtain ⟨hopens, htidy⟩ := tidy_of_derives (Parser.derives_block hparse) hbare
  obtain ⟨_, done, _, _, rfl⟩ := Lexer.lex_eq_ok.1 hlex
  exact ⟨hopens.varFirst, htidy.functions, htidy.blocks⟩

/-- A program with two scopes, a block, and a mark that is written before something else than `var`.
-/
def scopedText : String :=
  "var a = b, f = function () \x7b var c = a; c; \x7d; while (a) \x7b a = f; \x7d var? f;"

def scopedBody : List Token :=
  [.sym .kwVar, .name "c", .sym .assign, .name "a", .sym .semi, .name "c", .sym .semi]

def scopedTokens : List Token :=
  [.sym .varMark, .sym .kwVar, .name "a", .sym .assign, .name "b", .sym .comma,
    .name "f", .sym .assign,
    .sym .kwFunction, .sym .lparen, .sym .rparen, .sym .lbrace, .sym .kwVar, .name "c",
    .sym .assign, .name "a",
    .sym .semi, .name "c", .sym .semi, .sym .rbrace, .sym .semi, .sym .kwWhile,
    .sym .lparen, .name "a",
    .sym .rparen, .sym .lbrace, .name "a", .sym .assign, .name "f", .sym .semi, .sym .rbrace,
    .sym .varMark, .name "f", .sym .semi]

def scopedProgram : Program :=
  [.init "a" [.name "b"],
    .init "f" [.func (.mk [] [.init "c" [.name "a"], .exp [.name "c"]] scopedBody)],
    .loop [.name "a"] [.assign [.name "a"] [.name "f"]], .exp [.name "f"]]

theorem var_statement_first_scoped :
    lex scopedText = .ok scopedTokens ∧ parse scopedTokens = .ok scopedProgram ∧
    Unmarked scopedTokens.tail ∧
      VarFirst scopedTokens.tail scopedProgram ∧
      (∀ f, Program.Holds scopedProgram f → VarFirst f.source f.body) ∧
      ∀ s, Writes scopedProgram s → ∀ b ∈ s.blocks, ∀ u ∈ b, u.isInit = false := by
  have hlex : lex scopedText = .ok scopedTokens := rfl
  have hparse : parse scopedTokens = .ok scopedProgram := rfl
  have hmarks : Unmarked scopedTokens.tail := by simp [Unmarked, scopedTokens]
  exact ⟨hlex, hparse, hmarks, var_statement_first hlex hparse hmarks⟩

/-- Where a mark is written, a scope has a second `var` statement, and a block has one. -/
theorem written_mark_allows_var :
    parseText "var a = null; var? var b = null;" =
      .ok [.init "a" [.val .null], .init "b" [.val .null]] ∧
    parseText "a = null; var? var b = null;" =
      .ok [.assign [.name "a"] [.val .null], .init "b" [.val .null]] ∧
    parseText "while (a) \x7b var? var b = null; \x7d" =
      .ok [.loop [.name "a"] [.init "b" [.val .null]]] :=
  ⟨rfl, rfl, rfl⟩

end LittleJ
