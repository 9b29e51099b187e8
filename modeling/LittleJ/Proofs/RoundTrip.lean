import LittleJ.Proofs.Accepted
import LittleJ.Proofs.Canonical

/-!
# Reading undoes writing

A well-formed program is read back from its canonical text, for the text has a derivation, and it is
one of the program. The rules of the grammar ask for separators and signs at the top level; in a
canonical text they stand where the writer put them, because everything before them is clear of
them. The induction is on the program.
-/

namespace LittleJ

open LittleJ.Bracket LittleJ.TopLevel LittleJ.Grammar List

namespace Parser

variable {inner code : List Token}

/-! ## Lists with commas -/

/-- The texts of variables with commas between them. -/
def joined (parts : List (List Token)) : List Token :=
  [.sym .comma].intercalate parts

theorem joined_cons (part : List Token) (parts : List (List Token)) :
    joined (part :: parts) = part ++ parts.flatMap (.sym .comma :: ·) := by
  induction parts generalizing part with
  | nil => simp [joined, List.intercalate]
  | cons part' parts ih =>
    have hcons :
        joined (part :: part' :: parts) = part ++ .sym .comma :: joined (part' :: parts) := by
      simp [joined, List.intercalate]
    rw [hcons, ih, List.flatMap_cons]
    rfl

theorem forall_joined {P : Token → Prop} (hcomma : P (.sym .comma)) {parts : List (List Token)}
    (h : ∀ part ∈ parts, ∀ t ∈ part, P t) : ∀ t ∈ joined parts, P t := by
  cases parts with
  | nil => simp [joined]
  | cons part parts =>
    obtain ⟨hpart, hparts⟩ := List.forall_mem_cons.1 h
    rw [joined_cons]
    intro t ht
    simp only [List.mem_append, List.mem_flatMap, List.mem_cons] at ht
    rcases ht with ht | ⟨other, hother, rfl | ht⟩
    · exact hpart t ht
    · exact hcomma
    · exact hparts other hother t ht

theorem clear_joined {q : Token → Bool} {parts : List (List Token)} (hq : q (.sym .comma) = false)
    (h : ∀ part ∈ parts, Clear q part) : Clear q (joined parts) := by
  cases parts with
  | nil => exact .nil
  | cons part parts =>
    rw [joined_cons]
    refine (h part (by simp)).append ?_
    replace h : ∀ part ∈ parts, Clear q part := fun x hx => h x (List.mem_cons_of_mem _ hx)
    induction parts with
    | nil => exact .nil
    | cons part parts ih =>
      rw [List.flatMap_cons]
      exact .cons (by decide) hq
        ((h part (by simp)).append (ih fun x hx => h x (List.mem_cons_of_mem _ hx)))

/-- Texts without commas at their top level are parted again. -/
theorem separated_joined {parts : List (List Token)}
    (h : ∀ part ∈ parts, Clear (·.is .comma) part ∧ part ≠ []) :
    Separated (·.is .comma) parts (joined parts) := by
  induction parts with
  | nil => exact .nil
  | cons part parts ih =>
    obtain ⟨hclear, hne⟩ := h part (by simp)
    have hrest := ih fun x hx => h x (List.mem_cons_of_mem _ hx)
    cases parts with
    | nil =>
      rw [joined_cons, List.flatMap_nil, List.append_nil]
      exact .last hne (lacks_of_clear hclear)
    | cons part' parts =>
      rw [joined_cons] at hrest ⊢
      rw [List.flatMap_cons, List.cons_append]
      exact .cons (lacks_of_clear hclear) rfl hrest

theorem split_joined {parts : List (List Token)}
    (h : ∀ part ∈ parts, Clear (·.is .comma) part ∧ part ≠ []) :
    split (·.is .comma) (joined parts) = .ok parts :=
  (split_eq_ok_iff (sparesBrackets_is (by decide))).2 (separated_joined h)

/-! ## Frames and parameters -/

theorem framed_of_level (hinner : Level "(" ")" inner) (hcode : Level "\x7b" "\x7d" code) :
    Framed inner code (framed inner code) :=
  ⟨.sym .lparen :: (inner ++ [Token.sym .rparen]), .sym .lbrace :: (code ++ [Token.sym .rbrace]),
    ⟨_, _, rfl, by decide, by decide, hinner⟩,
    ⟨_, _, rfl, by decide, by decide, hcode⟩, by simp [framed]⟩

end Parser

open LittleJ.Parser

namespace Grammar

theorem parameters_writtenParams (params : List String) :
    Parameters (writtenParams params) params := by
  unfold writtenParams
  induction params with
  | nil => exact .nil
  | cons s params ih =>
    cases params with
    | nil => exact .name .nil
    | cons s' params => exact .name (.comma rfl (by decide) ih)

/-! ## Single statements -/

variable {ts : List Token} {p : Program} {e target condition : Expr} {body : Program}

theorem derives_of_not_function (h : ∀ t ∈ e, t.is .kwFunction = false) :
    Derives (.expression e e) := by
  induction e with
  | nil => exact .nil
  | cons t e ih =>
    obtain ⟨ht, he⟩ := List.forall_mem_cons.1 h
    exact .token ht (ih he)

theorem isOpening_of_isWord {t : Token} (h : t.isWord = true) : isOpening t = false := by
  cases t with
  | sym y => cases y <;> simp [Token.isWord, Symbol.isInner] at h <;> rfl
  | _ => rfl

theorem target_of_canonical (h : IsTarget target) : Target target := by
  induction h with
  | name _ => exact .name rfl
  | subscript _ _ he _ ih => exact .subscript ih (by decide) (he.level_reverse .square)

theorem derives_assign (hts : Derives (.block ts p)) (htarget : IsTarget target)
    (he : IsExpression (fun _ => false) e (Token.AllWellFormed e))
    (hvalue : Derives (.expression (e.flatMap Token.written) e)) :
    Derives (.block (ts ++ (Stmt.assign target e).written) (p ++ [.assign target e])) := by
  rw [Stmt.written, Token.writtenAll_eq, Token.writtenAll_eq,
    Token.flatMap_written_of_isWord htarget.isWord]
  have hwords := List.all_eq_true.mp htarget.isWord
  have hclear : ∀ {y : Symbol}, y.isInner = false → Clear (·.is y) target := fun hy =>
    htarget.nested.of_forall fun t ht => Token.is_of_isWord (hwords t ht) hy
  have hwhole : Lacks (·.is .semi) (target ++ .sym .assign :: e.flatMap Token.written) :=
    lacks_of_clear
    ((hclear rfl).append (.cons (by decide) rfl (he.clear_is_written rfl (by decide))))
  have hparted : Parted (·.is .assign) (target ++ .sym .assign :: e.flatMap Token.written) :=
    ⟨[target, e.flatMap Token.written], .cons (lacks_of_clear (hclear rfl)) rfl
      (.last he.written_ne_nil (lacks_of_clear (he.clear_is_written rfl (by decide)))), by simp⟩
  -- the search for `=` looks into brackets, but a target has no functions and so no `=` in it
  have hsides :
      Derives (.assignment (target ++ .sym .assign :: e.flatMap Token.written) target e) :=
    .assignment (by decide) (fun t ht => Token.reads_assign_of_isWord (hwords t ht))
      (derives_of_not_function fun t ht => Token.is_of_isWord (hwords t ht) rfl) hvalue
      (target_of_canonical htarget)
  obtain ⟨s, more, hhead⟩ := htarget.head
  have hall := hts.assign ⟨⟨.name s, _, by rw [hhead]; rfl, rfl⟩, hwhole⟩ hparted hsides
  rwa [List.append_assoc, List.cons_append] at hall

theorem derives_exp (hts : Derives (.block ts p))
    (he : IsExpression (fun _ => false) e (Token.AllWellFormed e))
    (hhead : ∀ f, e.head? ≠ some (.func f))
    (hread : Derives (.expression (e.flatMap Token.written) e)) :
    Derives (.block (ts ++ (Stmt.exp e).written) (p ++ [.exp e])) := by
  have hlacks : ∀ {y : Symbol}, y.isInner = false → y ≠ .kwFunction →
      Lacks (·.is y) (e.flatMap Token.written) :=
    fun hy hne => lacks_of_clear (he.clear_is_written hy hne)
  have hnot : ∀ {y : Symbol}, y.isInner = false → y ≠ .kwFunction → isBracket (.sym y) = false →
      ¬Parted (·.is y) (e.flatMap Token.written) :=
    fun hy hne hb => (hlacks hy hne).not_parted (sparesBrackets_is hb) he.written_ne_nil
  -- the first token is no function, so the text starts with it
  obtain ⟨t, more, rfl⟩ := List.exists_cons_of_ne_nil he.nonempty
  have ht : t.isWord = true := by
    rcases (Token.allWellFormed_iff.mp he.formed t (by simp)).cases with ht | ⟨f, rfl, _⟩
    · exact ht
    · exact absurd rfl (hhead f)
  have htext : (t :: more).flatMap Token.written = t :: more.flatMap Token.written := by
    rw [List.flatMap_cons, Token.written_of_isWord ht, List.singleton_append]
  rw [Stmt.written, Token.writtenAll_eq]
  refine .exp hts ⟨⟨t, _, htext, isOpening_of_isWord ht⟩, hlacks rfl (by decide)⟩
    (hnot rfl (by decide) (by decide)) (hnot rfl (by decide) (by decide))
    (hnot rfl (by decide) (by decide)) (fun hfirst => ?_) hread
  rw [htext] at hfirst
  cases hfirst
  cases ht

end Grammar

/-! ## Statements in a row -/

/-- What is derived for the text of a statement: the value of a variable, or a block that goes on
with the statement. -/
def Stmt.Derived : Stmt → Prop
  | .init _ e => Derives (.expression (e.flatMap Token.written) e)
  | s => ∀ {ts p}, Derives (.block ts p) → Derives (.block (ts ++ s.written) (p ++ [s]))

namespace Grammar

variable {ts : List Token} {p : Program}

theorem derives_behind {s : Stmt} (h : s.Derived) (hs : s.isInit = false)
    (hts : Derives (.block ts p)) :
    Derives (.block (ts ++ s.written) (p ++ [s])) := by
  cases s with
  | init _ _ => cases hs
  | _ => exact h hts

/-- A block goes on with statements that make no variables. -/
theorem derives_code {q : Program} (hinits : q.all (!·.isInit) = true) (h : ∀ s ∈ q, s.Derived)
    (hts : Derives (.block ts p)) : Derives (.block (ts ++ q.written) (p ++ q)) := by
  induction q generalizing ts p with
  | nil => simpa [Program.written, Stmt.writtenFrom] using hts
  | cons s q ih =>
    simp only [List.all_cons, Bool.and_eq_true, Bool.not_eq_true'] at hinits
    rw [List.forall_mem_cons] at h
    have hwritten : Program.written (s :: q) = s.written ++ Program.written q := by
      simp [Program.written, Stmt.writtenFrom, Stmt.lead, hinits.1]
    have hrest := ih hinits.2 h.2 (derives_behind h.1 hinits.1 hts)
    rwa [List.append_assoc, List.append_assoc, ← hwritten] at hrest

theorem written_ne_nil {q : Program} (hne : q ≠ []) (hq : ∀ s ∈ q, s.WellFormed) :
    q.written ≠ [] := by
  obtain ⟨s, rest, rfl⟩ := List.exists_cons_of_ne_nil hne
  rw [Program.written, Stmt.writtenFrom]
  simp [Stmt.written_ne_nil (hq s (by simp))]

/-! ## Variables -/

/-- What a scope starts with are its variables; the rest makes none. -/
theorem exists_declarators (h : Stmt.initsFirst p = true) :
    ∃ (ds : List Declarator) (rest : Program),
    p = ds.map Declarator.stmt ++ rest ∧ rest.all (!·.isInit) = true ∧
      ∀ d ∈ ds, d.written = d.value.flatMap Token.written := by
  induction p with
  | nil => exact ⟨[], [], rfl, rfl, by simp⟩
  | cons s p ih =>
    rw [Stmt.initsFirst] at h
    cases s with
    | init name e =>
      obtain ⟨ds, rest, rfl, hrest, hds⟩ := ih h
      exact ⟨⟨name, e.flatMap Token.written, e⟩ :: ds, rest, rfl, hrest,
        List.forall_mem_cons.2 ⟨rfl, hds⟩⟩
    | _ => exact ⟨[], _, rfl, h, by simp⟩

section

variable {d : Declarator} (hd : d.written = d.value.flatMap Token.written)

include hd

theorem written_stmt : d.stmt.written = d.tokens := by
  rw [Declarator.stmt, Stmt.written, Token.writtenAll_eq, Declarator.tokens, hd]

/-- The text of a variable is clear of commas and semicolons. -/
theorem clear_tokens (h : d.stmt.WellFormed) :
    Clear (·.is .comma) d.tokens ∧ Clear (·.is .semi) d.tokens := by
  rw [Declarator.stmt, Stmt.WellFormed] at h
  rw [Declarator.tokens, hd]
  exact ⟨.cons (isBracket_name h.1) rfl (.cons (by decide) rfl (h.2.clear_written rfl)),
    .cons (isBracket_name h.1) rfl (.cons (by decide) rfl (h.2.clear_is_written rfl (by decide)))⟩

end

theorem writtenFrom_inits {ds : List Declarator}
    (hds : ∀ d ∈ ds, d.written = d.value.flatMap Token.written) {rest : Program}
    (hrest : rest.all (!·.isInit) = true) :
    Stmt.writtenFrom true (ds.map Declarator.stmt ++ rest) =
      (ds.map Declarator.tokens).flatMap (.sym .comma :: ·) ++ .sym .semi ::
      Program.written rest := by
  induction ds with
  | nil =>
    cases rest with
    | nil => rfl
    | cons s rest =>
      simp only [List.all_cons, Bool.and_eq_true, Bool.not_eq_true'] at hrest
      simp [Program.written, Stmt.writtenFrom, Stmt.lead, hrest.1]
  | cons d ds ih =>
    rw [List.forall_mem_cons] at hds
    have hinit : d.stmt.isInit = true := rfl
    rw [List.map_cons, List.cons_append, Stmt.writtenFrom, hinit, ih hds.2, List.map_cons,
      written_stmt hds.1]
    simp [Stmt.lead, hinit]

/-- **The text of a scope has a derivation if its statements have.** -/
theorem derives_scope (hinits : Stmt.initsFirst p = true) (hwell : ∀ s ∈ p, s.WellFormed)
    (h : ∀ s ∈ p, s.Derived) : Derives (.block (.sym .varMark :: p.written) p) := by
  obtain ⟨ds, rest, rfl, hrest, hds⟩ := exists_declarators hinits
  rw [List.forall_mem_append, List.forall_mem_map] at hwell h
  cases ds with
  | nil => exact derives_code hrest h.2 (.mark .empty)
  | cons d ds =>
    have hwritten : Program.written ((d :: ds).map Declarator.stmt ++ rest) = .sym .kwVar ::
        (joined ((d :: ds).map Declarator.tokens) ++ .sym .semi :: rest.written) := by
      have hinit : d.stmt.isInit = true := rfl
      rw [List.forall_mem_cons] at hds
      rw [List.map_cons, List.cons_append, Program.written, Stmt.writtenFrom, hinit,
        writtenFrom_inits hds.2 hrest,
        List.map_cons, joined_cons, List.append_assoc, written_stmt hds.1]
      rfl
    have hclear : ∀ part ∈ (d :: ds).map Declarator.tokens,
        (Clear (·.is .comma) part ∧ part ≠ []) ∧ Clear (·.is .semi) part := by
      refine List.forall_mem_map.2 fun d hd => ?_
      obtain ⟨hcomma, hsemi⟩ := clear_tokens (hds d hd) (hwell.1 d hd)
      exact ⟨⟨hcomma, List.cons_ne_nil _ _⟩, hsemi⟩
    -- no declaration has a semicolon or a comma at its top level, so the statement is cut where it
    -- was joined
    have hlacks := lacks_of_clear (clear_joined rfl fun part hpart => (hclear part hpart).2)
    have hparts := separated_joined fun part hpart => (hclear part hpart).1
    have hvalues : ∀ d' ∈ d :: ds, d'.written ≠ [] ∧ Derives (.expression d'.written d'.value) := by
      intro d' hd'
      have hformed := hwell.1 d' hd'
      rw [Declarator.stmt, Stmt.WellFormed] at hformed
      rw [hds d' hd']
      exact ⟨hformed.2.written_ne_nil, h.1 d' hd'⟩
    have hall := derives_code hrest h.2 (.declared (.mark .empty) rfl hlacks hparts
      (fun d' hd' => (hvalues d' hd').1) fun d' hd' => (hvalues d' hd').2)
    rw [hwritten]
    simpa using hall

/-! ## Conditions and blocks -/

theorem derives_guarded {condition : Expr} {body : Program}
    (hcondition : IsExpression (fun _ => false) condition (Token.AllWellFormed condition))
    (hbody : IsBlock body (Stmt.AllWellFormed body)) (h : ∀ s ∈ body, s.Derived) :
    Framed (condition.flatMap Token.written) body.written
    (framed (condition.flatMap Token.written) body.written) ∧
      condition.flatMap Token.written ≠ [] ∧ body.written ≠ [] ∧
      Derives (.block body.written body) :=
  ⟨framed_of_level ((hcondition.clear_written rfl).level .round)
      ((Stmt.nested_writtenFrom body hbody.formed false).level .curly), hcondition.written_ne_nil,
    written_ne_nil hbody.nonempty (Stmt.allWellFormed_iff.mp hbody.formed),
    derives_code hbody.noInits h .empty⟩

/-- The arms of a ladder after the first are added to it one by one. -/
theorem derives_arms {arms before : List (Expr × Program)} (harms : Stmt.ArmsWellFormed arms)
    (h : ∀ arm ∈ arms, Derives (.expression (arm.1.flatMap Token.written) arm.1) ∧
      ∀ s ∈ arm.2, s.Derived)
    (hts : Derives (.block ts (p ++ [.ladder before]))) :
    Derives (.block (ts ++ Stmt.writtenArms [.sym .kwElse, .sym .kwIf] arms)
      (p ++ [.ladder (before ++ arms)])) := by
  induction arms generalizing ts before with
  | nil => rwa [Stmt.writtenArms, List.append_nil, List.append_nil]
  | cons arm arms ih =>
    obtain ⟨condition, body⟩ := arm
    rw [Stmt.ArmsWellFormed] at harms
    rw [List.forall_mem_cons] at h
    obtain ⟨hframed, hinner, hcode, hbody⟩ := derives_guarded harms.1.1 harms.1.2 h.1.2
    have hall :=
      ih harms.2 h.2 (.elseIf hts (t := .sym .kwIf) (by decide) hframed hinner hcode h.1.1 hbody)
    rw [Stmt.writtenArms, Token.writtenAll_eq]
    simpa [Program.written] using hall

theorem derives_ladder {arms : List (Expr × Program)} (hts : Derives (.block ts p))
    (hne : arms ≠ []) (harms : Stmt.ArmsWellFormed arms)
    (h : ∀ arm ∈ arms, Derives (.expression (arm.1.flatMap Token.written) arm.1) ∧
      ∀ s ∈ arm.2, s.Derived) :
    Derives (.block (ts ++ (Stmt.ladder arms).written) (p ++ [.ladder arms])) := by
  obtain ⟨⟨condition, body⟩, arms, rfl⟩ := List.exists_cons_of_ne_nil hne
  rw [Stmt.ArmsWellFormed] at harms
  rw [List.forall_mem_cons] at h
  obtain ⟨hframed, hinner, hcode, hbody⟩ := derives_guarded harms.1.1 harms.1.2 h.1.2
  have hall := derives_arms harms.2 h.2 (.ladder hts hframed hinner hcode h.1.1 hbody)
  rw [Stmt.written, Stmt.writtenArms, Token.writtenAll_eq]
  simpa [Program.written] using hall

theorem derives_word {t : Token} {e : Expr} (h : t.isWord = true)
    (hts : Derives (.expression ts e)) :
    Derives (.expression (t.written ++ ts) (t :: e)) := by
  rw [Token.written_of_isWord h]
  exact .token (Token.is_of_isWord h rfl) hts

end Grammar

/-! ## Programs -/

mutual

theorem Function.derives_written :
    (f : Function) → f.WellFormed → ∀ {ts e}, Derives (.expression ts e) →
    Derives (.expression (f.written ++ ts) (.func f :: e))
  | .mk params body source, h, _, _, hts => by
      rw [Function.WellFormed] at h
      obtain ⟨hparams, hne, hinits, hbody, rfl⟩ := h
      rw [Function.written]
      have hlevel := (Stmt.nested_writtenFrom body hbody false).level .curly
      have hwell := Stmt.allWellFormed_iff.mp hbody
      exact .function (framed_of_level ((nested_writtenParams hparams).level .round) hlevel)
        (parameters_writtenParams params) (written_ne_nil hne hwell)
        (derives_scope hinits hwell (Stmt.derived_of_mem body hbody)) hts

theorem Token.derives_written : (t : Token) → t.WellFormed → ∀ {ts e}, Derives (.expression ts e) →
    Derives (.expression (t.written ++ ts) (t :: e))
  | .func f, h, _, _, hts => by
      rw [Token.WellFormed] at h
      rw [Token.written]
      exact Function.derives_written f h hts
  | .name _, h, _, _, hts => derives_word (by rwa [Token.WellFormed] at h; simp) hts
  | .sym _, h, _, _, hts => derives_word (by rwa [Token.WellFormed] at h; simp) hts
  | .val _, h, _, _, hts => derives_word (by rwa [Token.WellFormed] at h; simp) hts
  | .row _, h, _, _, hts => derives_word (by rwa [Token.WellFormed] at h; simp) hts

theorem Token.derives_writtenAll : (e : List Token) → Token.AllWellFormed e →
    Derives (.expression (e.flatMap Token.written) e)
  | [], _ => .nil
  | t :: e, h => by
      rw [Token.AllWellFormed] at h
      exact Token.derives_written t h.1 (Token.derives_writtenAll e h.2)

theorem Stmt.derived : (s : Stmt) → s.WellFormed → s.Derived
  | .init name e, h => by
      rw [Stmt.WellFormed] at h
      exact Token.derives_writtenAll e h.2.formed
  | .assign target e, h => by
      rw [Stmt.WellFormed] at h
      exact fun hts => derives_assign hts h.1 h.2 (Token.derives_writtenAll e h.2.formed)
  | .ladder arms, h => by
      rw [Stmt.WellFormed] at h
      exact fun hts => derives_ladder hts h.1 h.2 (Stmt.derived_of_mem_arms arms h.2)
  | .loop condition code, h => by
      rw [Stmt.WellFormed] at h
      intro hts
      obtain ⟨hframed, hinner, hcode, hbody⟩ :=
        derives_guarded h.1 h.2 (Stmt.derived_of_mem code h.2.formed)
      rw [Stmt.written, Token.writtenAll_eq]
      exact .loop hts hframed hinner hcode (Token.derives_writtenAll condition h.1.formed) hbody
  | .ret e, h => by
      rw [Stmt.WellFormed] at h
      intro hts
      rw [Stmt.written, Token.writtenAll_eq]
      exact .returned hts (lacks_of_clear (h.clear_is_written rfl (by decide)))
        (Token.derives_writtenAll e h.formed)
  | .brk, _ => by
      intro hts
      rw [Stmt.written]
      exact .broken hts
  | .exp e, h => by
      rw [Stmt.WellFormed] at h
      exact fun hts => derives_exp hts h.1 h.2 (Token.derives_writtenAll e h.1.formed)

theorem Stmt.derived_of_mem : (p : List Stmt) → Stmt.AllWellFormed p → ∀ s ∈ p, s.Derived
  | [], _ => by simp
  | s :: rest, h => by
      rw [Stmt.AllWellFormed] at h
      exact List.forall_mem_cons.2 ⟨Stmt.derived s h.1, Stmt.derived_of_mem rest h.2⟩

theorem Stmt.derived_of_mem_arms : (arms : List (List Token × List Stmt)) →
    Stmt.ArmsWellFormed arms →
    ∀ arm ∈ arms, Derives (.expression (arm.1.flatMap Token.written) arm.1) ∧ ∀ s ∈ arm.2, s.Derived
  | [], _ => by simp
  | (condition, code) :: arms, h => by
      rw [Stmt.ArmsWellFormed] at h
      exact List.forall_mem_cons.2 ⟨⟨Token.derives_writtenAll condition h.1.1.formed,
        Stmt.derived_of_mem code h.1.2.formed⟩, Stmt.derived_of_mem_arms arms h.2⟩

end

/-- **Reading undoes writing**: every well-formed program is what its canonical text is read as. -/
theorem parse_written {p : Program} (h : p.WellFormed) :
    parse (.sym .varMark :: p.written) = .ok p :=
  read_of_derives (derives_scope h.1 (Stmt.allWellFormed_iff.mp h.2) (Stmt.derived_of_mem p h.2)) _
    (Nat.lt_succ_self _)

namespace Parser

/-- The body of a function that makes a variable. -/
def sumBody : Program :=
  [.init "a" [.name "p"], .ret [.name "a", .sym .plus, .name "q"]]

/-- A program with every kind of statement. -/
def everyKind : Program :=
  [.init "f" [.func (.mk ["p", "q"] sumBody sumBody.written)],
    .init "b" [.name "f", .sym .lparen, .val (.str "x"), .sym .comma, .val .null, .sym .rparen],
    .assign [.name "b", .sym .lbracket, .val (.str "k"), .sym .rbracket]
    [.sym .lbrace, .sym .rbrace],
    .ladder [([.name "b"], [.exp [.name "f", .sym .lparen, .sym .rparen]]),
      ([.val (.bool true)], [.brk])],
    .loop [.name "b"] [.brk],
    .ret [.name "b"]]

theorem sumBody_wellFormed : sumBody.WellFormed := by
  refine ⟨by decide, ?_⟩
  simp only [sumBody, Stmt.AllWellFormed, Stmt.WellFormed]
  exact ⟨⟨by decide, .of_isWord (by simp) (by decide) (by decide)⟩,
    .of_isWord (by simp) (by decide) (by decide), trivial⟩

theorem everyKind_wellFormed : everyKind.WellFormed := by
  have hfunction : (Function.mk ["p", "q"] sumBody sumBody.written).WellFormed := by
    rw [Function.WellFormed]
    exact ⟨by decide, by simp [sumBody], sumBody_wellFormed.1, sumBody_wellFormed.2, rfl⟩
  have htarget : IsTarget [.name "b", .sym .lbracket, .val (.str "k"), .sym .rbracket] :=
    @IsTarget.subscript [.name "b"] [.val (.str "k")] (.name (by decide)) (by simp) (by decide)
      (by decide)
  refine ⟨by decide, ?_⟩
  simp only [everyKind, Stmt.AllWellFormed, Stmt.WellFormed, Stmt.ArmsWellFormed]
  refine ⟨⟨by decide, by simp, by decide, ?_⟩,
    ⟨by decide, .of_isWord (by simp) (by decide) (by decide)⟩,
    ⟨htarget, .of_isWord (by simp) (by decide) (by decide)⟩,
    ⟨by simp, ⟨.of_isWord (by simp) (by decide) (by decide), by simp, by decide, ?_⟩,
      ⟨.of_isWord (by simp) (by decide) (by decide), by simp, by decide, trivial, trivial⟩,
      trivial⟩,
    ⟨.of_isWord (by simp) (by decide) (by decide), by simp, by decide, trivial, trivial⟩,
    .of_isWord (by simp) (by decide) (by decide), trivial⟩
  · rw [Token.AllWellFormed, Token.WellFormed]
    exact ⟨hfunction, trivial⟩
  · exact ⟨⟨.of_isWord (by simp) (by decide) (by decide), by simp⟩, trivial⟩

end Parser

/-- A program with every kind of statement is read back. -/
theorem parse_written_everyKind : Parser.everyKind.WellFormed ∧
    parse (.sym .varMark :: Parser.everyKind.written) = .ok Parser.everyKind :=
  ⟨Parser.everyKind_wellFormed, parse_written Parser.everyKind_wellFormed⟩

end LittleJ
