import LittleJ.Proofs.Accepted
import LittleJ.Proofs.CoupledStatement
import LittleJ.Proofs.Lexed

/-!
# The functions of a program

A function keeps the tokens that its body was read from. Every function written in a program, in a
block of it or in the body of another function, is what these tokens make: its body is the program
they are read as, their braces are level, and they are tokens as the lexer makes them.

More generally, whatever holds of the tokens of a text and of functions that were read holds of all
tokens in code, by induction on the derivation of the program.
-/

namespace LittleJ

open Lexer List Stmt TopLevel

variable {ts : List Token} {used : Nat} {parts : List (List Token)}

/-- The function `f` is written in a statement: in one of its expressions, in one of its blocks, or
in the body of a function in one of its expressions. -/
inductive Stmt.Holds (f : Function) : Stmt → Prop where
  | here {s : Stmt} {e : Expr} : e ∈ s.exprs → .func f ∈ e → Holds f s
  | inBlock {s s' : Stmt} {b : Program} : b ∈ s.blocks → s' ∈ b → Holds f s' → Holds f s
  | inBody {s s' : Stmt} {e : Expr} {g : Function} : e ∈ s.exprs → .func g ∈ e → s' ∈ g.body →
      Holds f s' → Holds f s

/-- The function `f` is written in a program, at any depth. -/
def Program.Holds (p : Program) (f : Function) : Prop :=
  ∃ s ∈ p, s.Holds f

/-- A statement stands in another one: it is that statement, or it stands in one of its blocks.
Bodies of functions do not count. -/
inductive Stmt.StandsIn (s : Stmt) : Stmt → Prop where
  | self : StandsIn s s
  | inBlock {s' u : Stmt} {b : Program} : b ∈ u.blocks → s' ∈ b → StandsIn s s' → StandsIn s u

/-! ## Code inside code -/

theorem Stmt.StandsIn.block {s t u : Stmt} {b : Program} (h : s.StandsIn u) (hb : b ∈ s.blocks)
    (ht : t ∈ b) : t.StandsIn u := by
  induction h with
  | self => exact .inBlock hb ht .self
  | inBlock hb' hs' _ ih => exact .inBlock hb' hs' ih

theorem Stmt.StandsIn.trans {s t u : Stmt} (h : s.StandsIn t) (h' : t.StandsIn u) :
    s.StandsIn u := by
  induction h' with
  | self => exact h
  | inBlock hb hs' _ ih => exact .inBlock hb hs' ih

theorem Stmt.StandsIn.holds {s u : Stmt} {f : Function} (h : s.StandsIn u) (hf : s.Holds f) :
    u.Holds f := by
  induction h with
  | self => exact hf
  | inBlock hb hs' _ ih => exact .inBlock hb hs' ih

/-- A function in the body of a function that is written in a statement is written there too. -/
theorem Stmt.Holds.body {f g : Function} {s t : Stmt} (h : s.Holds g) (ht : t ∈ g.body)
    (hf : t.Holds f) :
    s.Holds f := by
  induction h with
  | here he hg => exact .inBody he hg ht hf
  | inBlock hb hs' _ ih => exact .inBlock hb hs' ih
  | inBody he hg hs' _ ih => exact .inBody he hg hs' ih

/-- A statement is written in a program, at any depth: in a block, or in the body of a function. -/
def Program.Writes (p : Program) (s : Stmt) : Prop :=
  (∃ u ∈ p, s.StandsIn u) ∨ ∃ f, p.Holds f ∧ ∃ u ∈ f.body, s.StandsIn u

namespace Program

variable {p : Program} {s t : Stmt} {f : Function}

theorem writes_of_mem (h : s ∈ p) : p.Writes s :=
  Or.inl ⟨s, h, .self⟩

theorem writes_of_mem_body (hf : p.Holds f) (h : s ∈ f.body) : p.Writes s :=
  Or.inr ⟨f, hf, s, h, .self⟩

theorem Writes.block (h : p.Writes s) {b : Program} (hb : b ∈ s.blocks) (ht : t ∈ b) :
    p.Writes t := by
  rcases h with ⟨u, hu, hs⟩ | ⟨f, hf, u, hu, hs⟩
  · exact Or.inl ⟨u, hu, hs.block hb ht⟩
  · exact Or.inr ⟨f, hf, u, hu, hs.block hb ht⟩

theorem Writes.standsIn (h : p.Writes s) (ht : t.StandsIn s) : p.Writes t := by
  rcases h with ⟨u, hu, hs⟩ | ⟨f, hf, u, hu, hs⟩
  · exact Or.inl ⟨u, hu, ht.trans hs⟩
  · exact Or.inr ⟨f, hf, u, hu, ht.trans hs⟩

theorem Writes.holds (h : p.Writes s) {e : Expr} (he : e ∈ s.exprs) (hf : .func f ∈ e) :
    p.Holds f := by
  rcases h with ⟨u, hu, hs⟩ | ⟨g, ⟨w, hw, hg⟩, u, hu, hs⟩
  · exact ⟨u, hu, hs.holds (.here he hf)⟩
  · exact ⟨w, hw, hg.body hu (hs.holds (.here he hf))⟩

end Program

/-! ## What reading makes -/

/-- A function as reading a text makes it. -/
structure Function.WasRead (f : Function) : Prop where
  params : ∀ s ∈ f.params, isValidName s = true
  source : ∀ t ∈ f.source, Lexed t
  nonempty : f.source ≠ []
  level : Bracket.Level "\x7b" "\x7d" f.source
  body : parse (.sym .varMark :: f.source) = .ok f.body

section

variable (T : Token → Prop)

/-- All tokens of an expression are as `T` says. -/
def Expr.MadeOf (e : Expr) : Prop :=
  ∀ t ∈ e, T t

/-- All tokens in a statement are as `T` says, those in its blocks included. -/
def Stmt.MadeOf (s : Stmt) : Prop :=
  ∀ s' : Stmt, s'.StandsIn s → ∀ e ∈ s'.exprs, Expr.MadeOf T e

/-- All tokens in a program are as `T` says. -/
def Program.MadeOf (p : Program) : Prop :=
  ∀ s ∈ p, s.MadeOf T

end

/-- What reading makes of tokens as `L` says is as `T` says: these tokens, which the lexer can make,
and functions that were read and whose bodies are as `T` says. Reading puts symbols and `true` in
between. -/
structure IsCode (L T : Token → Prop) : Prop where
  lexed : ∀ {t}, L t → Lexed t
  symbol : ∀ y, L (.sym y)
  yes : L (.val (.bool true))
  token : ∀ {t}, L t → T t
  func : ∀ {f : Function}, f.WasRead → Program.MadeOf T f.body → T (.func f)

section

variable {T : Token → Prop}

theorem Stmt.madeOf_iff {s : Stmt} :
    s.MadeOf T ↔ (∀ e ∈ s.exprs, Expr.MadeOf T e) ∧ ∀ b ∈ s.blocks, Program.MadeOf T b := by
  constructor
  · intro h
    exact ⟨h s .self, fun b hb s' hs' u hu => h u (.inBlock hb hs' hu)⟩
  · rintro ⟨hexprs, hblocks⟩ s' hs'
    cases hs' with
    | self => exact hexprs
    | inBlock hb hs' hu => exact hblocks _ hb _ hs' _ hu

theorem Stmt.madeOf_init {x : String} {e : Expr} : (init x e).MadeOf T ↔ Expr.MadeOf T e := by
  simp [madeOf_iff, exprs, blocks]

theorem Stmt.madeOf_assign {target value : Expr} :
    (assign target value).MadeOf T ↔ Expr.MadeOf T target ∧ Expr.MadeOf T value := by
  simp [madeOf_iff, exprs, blocks]

theorem Stmt.madeOf_loop {condition : Expr} {code : Program} :
    (loop condition code).MadeOf T ↔ Expr.MadeOf T condition ∧ Program.MadeOf T code := by
  simp [madeOf_iff, exprs, blocks]

theorem Stmt.madeOf_ladder {arms : List (Expr × Program)} :
    (ladder arms).MadeOf T ↔ ∀ arm ∈ arms, Expr.MadeOf T arm.1 ∧ Program.MadeOf T arm.2 := by
  rw [madeOf_iff]
  simp only [exprs, blocks, forall_mem_map]
  exact ⟨fun h arm harm => ⟨h.1 arm harm, h.2 arm harm⟩, fun h =>
    ⟨fun arm harm => (h arm harm).1, fun arm harm => (h arm harm).2⟩⟩

theorem Program.madeOf_append {p q : Program} :
    Program.MadeOf T (p ++ q) ↔ Program.MadeOf T p ∧ Program.MadeOf T q :=
  forall_mem_append

theorem Program.madeOf_singleton {s : Stmt} : Program.MadeOf T [s] ↔ s.MadeOf T :=
  forall_mem_singleton

theorem Expr.madeOf_append {e e' : Expr} : Expr.MadeOf T (e ++ e') ↔ Expr.MadeOf T e ∧
    Expr.MadeOf T e' :=
  forall_mem_append

theorem Expr.madeOf_cons {t : Token} {e : Expr} : Expr.MadeOf T (t :: e) ↔ T t ∧ Expr.MadeOf T e :=
  forall_mem_cons

theorem Expr.MadeOf.of_part {e e' : Expr} (h : Expr.MadeOf T e') (hpart : e <:+: e') :
    Expr.MadeOf T e :=
  fun t ht => h t (hpart.subset ht)

end

namespace Grammar

theorem Parameters.name_mem {names : List String} (h : Parameters ts names) {s : String}
    (hs : s ∈ names) :
    .name s ∈ ts := by
  induction h with
  | nil => cases hs
  | name _ ih => grind
  | comma _ _ _ ih => exact mem_cons_of_mem _ (ih hs)

theorem Framed.level {inner code frame : List Token} (h : Framed inner code frame) :
    Bracket.Level "\x7b" "\x7d" code := by
  obtain ⟨_, _, _, ⟨_, _, _, _, _, hlevel⟩, _⟩ := h
  exact hlevel

/-- What is made of tokens as `L` says is as `T` says. -/
def Phrase.MadeOf (L T : Token → Prop) : Phrase → Prop
  | .expression ts e => Expr.MadeOf L ts → Expr.MadeOf T e
  | .assignment ts target value | .shorthand ts target value | .step ts target value =>
    Expr.MadeOf L ts → Expr.MadeOf T target ∧ Expr.MadeOf T value
  | .block ts p => Expr.MadeOf L ts → Program.MadeOf T p

section

variable {L T : Token → Prop}

/-- The statements made of the parts of a list, one of each, are as `T` says. -/
theorem madeOf_separated {α : Type} {parts : List α} {written : α → List Token} (stmt : α → Stmt)
    {p : Token → Bool} (h : Separated p (parts.map written) ts)
    (hmade : ∀ a ∈ parts, Expr.MadeOf L (written a) → (stmt a).MadeOf T)
    (hts : Expr.MadeOf L ts) : Program.MadeOf T (parts.map stmt) := by
  intro s hs
  obtain ⟨a, ha, rfl⟩ := mem_map.1 hs
  exact hmade a ha (hts.of_part (h.isInfix _ (mem_map_of_mem ha)))

attribute [local simp] Phrase.MadeOf Expr.madeOf_cons Expr.madeOf_append Program.madeOf_append
Program.madeOf_singleton
  Stmt.madeOf_init Stmt.madeOf_assign Stmt.madeOf_ladder Stmt.madeOf_loop

theorem Derives.madeOf (hT : IsCode L T) {f : Phrase} (h : Derives f) : f.MadeOf L T := by
  have hsymbol : ∀ y, L (.sym y) := hT.symbol
  have hsign : ∀ y, T (.sym y) := fun y => hT.token (hT.symbol y)
  induction h with
  | nil | empty => simp [Expr.MadeOf, Program.MadeOf]
  | set _ ih | change _ _ ih => exact ih
  | token _ _ ih =>
    have := @hT.token
    simp at *
    grind
  | function hframe hparams hcode hbody _ ihbody ih =>
    intro hts
    simp only [Expr.madeOf_cons, Expr.madeOf_append] at hts
    have hinner := hts.2.1.of_part hframe.isInfix.1
    have hsource := hts.2.1.of_part hframe.isInfix.2
    refine forall_mem_cons.2
      ⟨hT.func ⟨?_, fun t ht => hT.lexed (hsource t ht), hcode, hframe.level, ?_⟩ ?_, ih hts.2.2⟩
    · intro s hs
      cases hT.lexed (hinner _ (hparams.name_mem hs)) with
      | name hvalid => exact hvalid
    · exact read_of_derives hbody _ (Nat.lt_succ_self _)
    · exact ihbody (forall_mem_cons.2 ⟨hsymbol _, hsource⟩)
  | assignment _ _ _ _ _ ihtarget ihvalue =>
    simp at *
    grind
  | plus _ _ _ ih | minus _ _ _ _ ih =>
    simp [hsymbol, hsign] at *
    grind
  | mark _ ih =>
    simp at *
    grind
  | broken _ ih =>
    simp [madeOf_iff, exprs, blocks] at *
    grind
  | declared _ _ _ hparts _ _ ih ihvalue =>
    have := madeOf_separated (T := T) Declarator.stmt hparts
      fun d hd hd' =>
        Stmt.madeOf_init.2 (ihvalue d hd (Expr.madeOf_cons.1 (Expr.madeOf_cons.1 hd').2).2)
    simp at *
    grind
  | ladder _ hframe _ _ _ _ ih ihcondition ihbody | loop _ hframe _ _ _ _ ih ihcondition ihbody
  | elseIf _ _ hframe _ _ _ _ ih ihcondition ihbody =>
    have := fun h => Expr.MadeOf.of_part (T := L) h hframe.isInfix.1
    have := fun h => Expr.MadeOf.of_part (T := L) h hframe.isInfix.2
    simp at *
    grind
  | otherwise _ hbraces _ ih ihbody =>
    have := fun h => Expr.MadeOf.of_part (T := L) h hbraces.isInfix
    simp at *
    have : Expr.MadeOf T [.val (.bool true)] := forall_mem_singleton.2 (hT.token hT.yes)
    grind
  | counted _ hframe _ _ _ _ _ hbefore hafter _ _ _ ih ihstep ihcondition ihbody =>
    have := fun h => Expr.MadeOf.of_part (T := L) h hframe.isInfix.1
    have := fun h => Expr.MadeOf.of_part (T := L) h hframe.isInfix.2
    have := madeOf_separated (T := T) Step.stmt hbefore
      fun s hs h => Stmt.madeOf_assign.2 (ihstep s (mem_append_left _ hs) h)
    have := madeOf_separated (T := T) Step.stmt hafter
      fun s hs h => Stmt.madeOf_assign.2 (ihstep s (mem_append_right _ hs) h)
    simp at *
    grind
  | assign _ _ _ _ ih ihinner | assignShort _ _ _ _ _ ih ihinner =>
    simp at *
    grind
  | returned _ _ _ ih ihinner | exp _ _ _ _ _ _ _ ih ihinner =>
    simp [madeOf_iff, exprs, blocks] at *
    grind

end

end Grammar

/-! ## Functions and tokens of a text -/

/-- All functions written in a statement were read. -/
def Stmt.AllRead (s : Stmt) : Prop :=
  ∀ f, s.Holds f → f.WasRead

/-- All functions written in a program were read. -/
def Program.AllRead (p : Program) : Prop :=
  ∀ s ∈ p, s.AllRead

/-- A function among the tokens of an expression was read, and all functions written in its body. -/
def Token.AllRead (t : Token) : Prop :=
  ∀ f, t = .func f → f.WasRead ∧ Program.AllRead f.body

theorem Program.allRead_of_madeOf {p : Program} (h : Program.MadeOf Token.AllRead p) :
    p.AllRead := by
  intro s hs f hf
  have hmade : s.MadeOf Token.AllRead := h s hs
  clear hs h
  induction hf with
  | here he hf => exact (hmade _ .self _ he _ hf f rfl).1
  | inBlock hb hs' _ ih => exact ih ((Stmt.madeOf_iff.1 hmade).2 _ hb _ hs')
  | inBody he hg hs' hf _ => exact (hmade _ .self _ he _ hg _ rfl).2 _ hs' f hf

theorem isCode_allRead : IsCode Lexed Token.AllRead where
  lexed ht := ht
  symbol := .symbol
  yes := .bool true
  token := by
    rintro t ht f rfl
    cases ht
  func := by
    rintro f hread hbody g hg
    cases hg
    exact ⟨hread, Program.allRead_of_madeOf hbody⟩

/-- **Every function of a program text was read from the tokens it keeps.** -/
theorem wasRead_of_parseText {source : String} {p : Program} (h : parseText source = .ok p)
    {f : Function} (hf : p.Holds f) : f.WasRead := by
  obtain ⟨ts, hts, h⟩ := Parser.ok_of_bind h
  obtain ⟨s, hs, hf⟩ := hf
  exact Program.allRead_of_madeOf ((Parser.derives_block h).madeOf isCode_allRead (lexed_lex hts)) s
    hs f hf

/-- The values in the code of a program are as `N` says, in its blocks and in the bodies of its
functions too. -/
def Program.Values (N : Value → Prop) (p : Program) : Prop :=
  ∀ s, p.Writes s → ∀ e ∈ s.exprs, ∀ v, .val v ∈ e → N v

/-- A token is a value as `N` says, or a function with such values in its body, or neither. -/
def Token.Values (N : Value → Prop) (t : Token) : Prop :=
  (∀ v, t = .val v → N v) ∧ ∀ f, t = .func f → Program.Values N f.body

theorem Program.values_of_madeOf {N : Value → Prop} {p : Program}
    (h : Program.MadeOf (Token.Values N) p) :
    p.Values N := by
  rintro s (⟨u, hu, hs⟩ | ⟨f, ⟨w, hw, hf⟩, u, hu, hs⟩) e he v hv
  · exact (h u hu s hs e he _ hv).1 v rfl
  · have hmade : w.MadeOf (Token.Values N) := h w hw
    clear hw h
    induction hf with
    | here he' hf => exact (hmade _ .self _ he' _ hf).2 f rfl s (.inl ⟨u, hu, hs⟩) e he v hv
    | inBlock hb hs' _ ih => exact ih ((Stmt.madeOf_iff.1 hmade).2 _ hb _ hs')
    | inBody he' hg hs' hf _ =>
      exact (hmade _ .self _ he' _ hg).2 _ rfl s (.inr ⟨f, ⟨_, hs', hf⟩, u, hu, hs⟩) e he v hv

theorem isCode_values {N : Value → Prop} (hyes : N (.bool true)) :
    IsCode (fun t => Lexed t ∧ ∀ v, t = .val v → N v) (Token.Values N) where
  lexed ht := ht.1
  symbol y := ⟨.symbol y, by rintro v ⟨⟩⟩
  yes := ⟨.bool true, by rintro v ⟨⟩; exact hyes⟩
  token := by
    rintro t ⟨hlexed, hvalue⟩
    refine ⟨hvalue, ?_⟩
    rintro f rfl
    cases hlexed
  func := by
    intro f _ hbody
    refine ⟨by rintro v ⟨⟩, ?_⟩
    rintro _ ⟨⟩
    exact Program.values_of_madeOf hbody

/-- **The values in the code of a text are values among its tokens**, or `true`. -/
theorem values_of_parseText {N : Value → Prop} (hyes : N (.bool true)) {source : String}
    (hlex : lex source = .ok ts) (hts : ∀ v, .val v ∈ ts → N v) {p : Program}
    (h : parseText source = .ok p) : p.Values N := by
  obtain ⟨ts', hts', h⟩ := Parser.ok_of_bind h
  obtain rfl := Except.ok.inj (hlex.symm.trans hts')
  refine Program.values_of_madeOf ((Parser.derives_block h).madeOf (isCode_values hyes) fun t ht =>
    ⟨lexed_lex hlex t ht, ?_⟩)
  rintro v rfl
  exact hts v ht

end LittleJ
