import LittleJ.Interpreter
import LittleJ.Proofs.Composition
import LittleJ.Proofs.Content
import LittleJ.Proofs.Lexemes
import LittleJ.Proofs.RoundTrip

/-!
# Printed values read back

The printed form of a value is a literal of the language: a program that binds a name to it makes a
value of the same content. The strings in it must be printed as they are, so they have no
backslashes and no line breaks; and they must not have the text of a bracket, for brackets are
matched by text.
-/

namespace LittleJ

open List Number Store Content EStateM Eval Statement

/-- Whether a string keeps its meaning when it is printed and read as a part of an expression. -/
def isLegible (s : String) : Bool :=
  s.toList.all (fun c => c != '\\' && !Text.isBreak c) && !Bracket.isBracket (.val (.str s))

/-- A new key goes last. -/
theorem Table.put_of_not_mem {α : Type} {key : String} {t : Table α} (h : key ∉ t.keys) (a : α) :
    t.put key a = t ++ [(key, a)] := by
  induction t with
  | nil => rfl
  | cons e t ih =>
    obtain ⟨k, b⟩ := e
    obtain ⟨hk, ht⟩ := not_or.1 (mt List.mem_cons.2 h)
    rw [Table.put, if_neg (by simpa using Ne.symm hk), ih ht, cons_append]

namespace Content

mutual

/-- Whether a content reads back: whole numbers are of at most 53 bits, and strings and keys are
legible. -/
def isReadable : Content → Bool
  | .null | .bool _ => true
  | .int n => decide (n.natAbs ≤ 2 ^ 53)
  | .str s => isLegible s
  | .arr cs => allReadable cs
  | .obj es => entriesReadable es

/-- Whether all contents read back. -/
def allReadable : List Content → Bool
  | [] => true
  | c :: cs => c.isReadable && allReadable cs

/-- Whether all entries read back. -/
def entriesReadable : List (String × Content) → Bool
  | [] => true
  | (k, c) :: es => isLegible k && c.isReadable && entriesReadable es

end

mutual

/-- The tokens of the printed form. A negative number is a positive one with a sign. -/
def tokens : Content → List Token
  | .null => [.val .null]
  | .bool b => [.val (.bool b)]
  | .int n =>
    if n < 0 then [.sym .minus, .val (.num (ofDecimal n.natAbs 0))]
    else [.val (.num (ofDecimal n.natAbs 0))]
  | .str s => [.val (.str s)]
  | .arr cs => .sym .lbracket :: (Parser.joined (tokensAll cs) ++ [.sym .rbracket])
  | .obj es => .sym .lbrace :: (Parser.joined (tokensEntries es) ++ [.sym .rbrace])

/-- The tokens of the items of an array. -/
def tokensAll : List Content → List (List Token)
  | [] => []
  | c :: cs => c.tokens :: tokensAll cs

/-- The tokens of the entries of an object. -/
def tokensEntries : List (String × Content) → List (List Token)
  | [] => []
  | (k, c) :: es => (.val (.str k) :: .sym .colon :: c.tokens) :: tokensEntries es

end

theorem allReadable_iff {cs : List Content} :
    allReadable cs = true ↔ ∀ c ∈ cs, c.isReadable = true := by
  induction cs with
  | nil => simp [allReadable]
  | cons c cs ih => simp [allReadable, ih]

theorem entriesReadable_iff {es : List (String × Content)} :
    entriesReadable es = true ↔ ∀ e ∈ es, isLegible e.1 = true ∧ e.2.isReadable = true := by
  induction es with
  | nil => simp [entriesReadable]
  | cons e es ih => simp [entriesReadable, ih]

theorem tokensAll_eq (cs : List Content) : tokensAll cs = cs.map tokens := by
  induction cs with
  | nil => rfl
  | cons c cs ih => rw [tokensAll, ih, map_cons]

/-- The tokens of an entry. -/
def entryTokens (e : String × Content) : List Token :=
  .val (.str e.1) :: .sym .colon :: e.2.tokens

theorem tokensEntries_eq (es : List (String × Content)) :
    tokensEntries es = es.map entryTokens := by
  induction es with
  | nil => rfl
  | cons e es ih => rw [tokensEntries, ih, map_cons, entryTokens]

/-! ## Reading the text -/

section

open Lexer

theorem unescaped_of_isLegible {s : String} (h : isLegible s = true) :
    ∀ c ∈ s.toList, c ≠ '\\' ∧ Text.isBreak c = false := by
  simpa [isLegible] using (Bool.and_eq_true_iff.1 h).1

theorem word_int (n : Int) : Word (integerText n).toList (tokens (.int n)) := by
  have hdigits : (String.ofList (digitsOf n.natAbs)).toList = digitsOf n.natAbs :=
    String.toList_ofList
  rw [integerText, tokens]
  split
  · rw [String.toList_append, hdigits]
    exact word_minus n.natAbs
  · rw [hdigits]
    exact word_digits n.natAbs

/-- Words with commas between them, in brackets. -/
theorem word_bracketed {α : Type} {l r : String} {left right : Token}
    (hleft : Closed l.toList [left]) (hright : Closed r.toList [right]) (hne : r.toList ≠ [])
    (hends : EndsWord r.toList) {items : List α} {text : α → String} {tokens : α → List Token}
    (h : ∀ a ∈ items, Word (text a).toList (tokens a)) :
    Word (l ++ ", ".intercalate (items.map text) ++ r).toList
      (left :: (Parser.joined (items.map tokens) ++ [right])) := by
  have hcomma : EndsWord ", ".toList := endsWord_separator (by decide)
  have hparts : ∀ p ∈ items.map fun a => (text a, tokens a), Word p.1.toList p.2 :=
    List.forall_mem_map.2 h
  have hlist := word_intercalate closed_comma (cons_ne_nil _ _) hcomma hparts
  rw [map_map, map_map] at hlist
  rw [String.toList_append, String.toList_append, append_assoc]
  exact Closed.word (hleft.append (hlist.append hright hne hends))

theorem word_entry {e : String × Content} (hkey : isLegible e.1 = true)
    (h : Word e.2.text.toList e.2.tokens) :
    Word (entryText e.1 e.2.text).toList (entryTokens e) := by
  have hcolon : Closed [':'] [.sym .colon] := closed_separator (by decide) rfl
  have hall := (closed_quote (unescaped_of_isLegible hkey)).append
      (hcolon.append (closed_blank.append h))
  have htext : (entryText e.1 e.2.text).toList = (quote e.1).toList ++
      ([':'] ++ ([' '] ++ e.2.text.toList)) := by
    simp [entryText]
  rw [htext]
  exact hall

/-- The printed form of a content is read as its tokens. -/
theorem word_text {c : Content} (h : c.isReadable = true) : Word c.text.toList c.tokens := by
  induction c using induction with
  | null => exact word_literal rfl
  | bool b => cases b <;> exact word_literal rfl
  | int n => exact word_int n
  | str s => exact (closed_quote (unescaped_of_isLegible h)).word
  | arr cs ih =>
    rw [isReadable, allReadable_iff] at h
    rw [text, tokens, texts_eq, tokensAll_eq]
    have hleft : Closed "[".toList [.sym .lbracket] := closed_separator (by decide) rfl
    have hright : Closed "]".toList [.sym .rbracket] := closed_separator (by decide) rfl
    exact word_bracketed hleft hright (cons_ne_nil _ _) (endsWord_separator (by decide))
      fun c hc => ih c hc (h c hc)
  | obj es ih =>
    rw [isReadable, entriesReadable_iff] at h
    rw [text, tokens, entryTexts_eq, tokensEntries_eq]
    have hleft : Closed "\x7b".toList [.sym .lbrace] := closed_separator (by decide) rfl
    have hright : Closed "\x7d".toList [.sym .rbrace] := closed_separator (by decide) rfl
    exact word_bracketed hleft hright (cons_ne_nil _ _) (endsWord_separator (by decide))
      fun e he => word_entry (h e he).1 (ih e he (h e he).2)

end

/-! ## Reading the tokens -/

section

open LittleJ.Bracket LittleJ.Parser

theorem tokens_ne_nil (c : Content) : c.tokens ≠ [] := by
  cases c with
  | int n =>
    rw [tokens]
    split <;> exact cons_ne_nil _ _
  | _ => exact cons_ne_nil _ _

/-- The symbols of a printed form. -/
def marks : List Symbol :=
  [.minus, .comma, .colon, .lbracket, .rbracket, .lbrace, .rbrace]

/-- A token of a printed form is a scalar or one of the marks. -/
def IsLiteral (t : Token) : Prop :=
  (∃ v : Scalar, t = .val v.value) ∨ ∃ y ∈ marks, t = .sym y

theorem isLiteral_joined {parts : List (List Token)} (h : ∀ part ∈ parts, ∀ t ∈ part, IsLiteral t) :
    ∀ t ∈ joined parts, IsLiteral t :=
  forall_joined (.inr ⟨.comma, by decide, rfl⟩) h

theorem isLiteral_wrap {left right : Symbol} (hleft : left ∈ marks) (hright : right ∈ marks)
    {inner : List Token} (h : ∀ t ∈ inner, IsLiteral t) :
    ∀ t ∈ Token.sym left :: (inner ++ [.sym right]), IsLiteral t := by
  simp only [forall_mem_cons, forall_mem_append, not_mem_nil, false_implies, implies_true, and_true]
  exact ⟨.inr ⟨left, hleft, rfl⟩, h, .inr ⟨right, hright, rfl⟩⟩

theorem isLiteral_tokens (c : Content) : ∀ t ∈ c.tokens, IsLiteral t := by
  have hscalar (v : Scalar) : IsLiteral (.val v.value) := .inl ⟨v, rfl⟩
  induction c using induction with
  | null => exact List.forall_mem_singleton.2 (hscalar .null)
  | bool b => exact List.forall_mem_singleton.2 (hscalar (.bool b))
  | str s => exact List.forall_mem_singleton.2 (hscalar (.str s))
  | int n =>
    have hnum : IsLiteral (.val (.num (ofDecimal n.natAbs 0))) := hscalar (.num _)
    have hminus : IsLiteral (.sym .minus) := .inr ⟨.minus, by decide, rfl⟩
    rw [tokens]
    split
    · simpa using ⟨hminus, hnum⟩
    · simpa using hnum
  | arr cs ih =>
    rw [tokens, tokensAll_eq]
    exact isLiteral_wrap (by decide) (by decide) (isLiteral_joined (List.forall_mem_map.2 ih))
  | obj es ih =>
    rw [tokens, tokensEntries_eq]
    refine isLiteral_wrap (by decide) (by decide)
      (isLiteral_joined (List.forall_mem_map.2 fun e he => ?_))
    exact List.forall_mem_cons.2
      ⟨hscalar (.str e.1), List.forall_mem_cons.2 ⟨.inr ⟨.colon, by decide, rfl⟩, ih e he⟩⟩

theorem isBracket_of_isLegible {s : String} (h : isLegible s = true) :
    isBracket (.val (.str s)) = false := by
  simpa using (Bool.and_eq_true_iff.1 h).2

theorem clear_entryTokens {p : Token → Bool} (hval : ∀ v, p (.val v) = false)
    (hcolon : p (.sym .colon) = false) {e : String × Content} (hkey : isLegible e.1 = true)
    (h : Clear p e.2.tokens) : Clear p (entryTokens e) :=
  .cons (isBracket_of_isLegible hkey) (hval _) (.cons (by decide) hcolon h)

/-- A search for anything but a scalar or a minus sign passes over a literal. -/
theorem clear_tokens {p : Token → Bool} (hval : ∀ v, p (.val v) = false)
    (hminus : p (.sym .minus) = false) {c : Content} (h : c.isReadable = true) :
    Clear p c.tokens := by
  induction c using induction generalizing p with
  | null => exact .cons (by decide) (hval _) .nil
  | bool b => exact .cons (by rfl) (hval _) .nil
  | int n =>
    rw [tokens]
    split
    · exact .cons (by decide) hminus (.cons (by rfl) (hval _) .nil)
    · exact .cons (by rfl) (hval _) .nil
  | str s => exact .cons (isBracket_of_isLegible h) (hval _) .nil
  | arr cs ih =>
    rw [isReadable, allReadable_iff] at h
    rw [tokens, tokensAll_eq]
    refine .wrap .square (clear_joined rfl (List.forall_mem_map.2 fun c hc => ?_))
    exact ih c hc (fun _ => rfl) rfl (h c hc)
  | obj es ih =>
    rw [isReadable, entriesReadable_iff] at h
    rw [tokens, tokensEntries_eq]
    refine .wrap .curly (clear_joined rfl (List.forall_mem_map.2 fun e he => ?_))
    exact clear_entryTokens (fun _ => rfl) rfl (h e he).1 (ih e he (fun _ => rfl) rfl (h e he).2)

end

/-! ## Evaluating the tokens -/

section

open LittleJ.Bracket LittleJ.Parser Expression

/-- Running makes a value of the content and leaves alone what the store has. -/
def Makes (c : Content) (m : Eval Value) : Prop :=
  ∀ σ, ∃ v τ, m σ = .ok v τ ∧ c.HeldBy τ v ∧ σ.Grows τ

variable {eval : Expr → Eval Value} {call : Nat → List Value → Eval Value}

theorem elements_tokens {cs : List Content} (h : ∀ c ∈ cs, c.Makes (eval c.tokens)) (σ : Store) :
    ∃ vs τ, elements eval (cs.map tokens) σ = .ok vs τ ∧ List.Forall₂ (HeldBy τ) cs vs ∧
    σ.Grows τ := by
  induction cs generalizing σ with
  | nil => exact ⟨[], σ, rfl, .nil, .refl σ⟩
  | cons c cs ih =>
    obtain ⟨hc, hcs⟩ := List.forall_mem_cons.1 h
    obtain ⟨v, ρ, hv, hheld, hgrow⟩ := hc σ
    obtain ⟨vs, τ, hvs, hall, hgrow'⟩ := ih hcs ρ
    refine ⟨v :: vs, τ, ?_, .cons (hheld.mono hgrow'.toExtends) hall, hgrow.trans hgrow'⟩
    rw [List.map_cons, elements, if_neg (by simp [tokens_ne_nil])]
    simp only [bind, EStateM.bind, pure, EStateM.pure, hv, hvs]

/-- The entries that are evaluated go behind those that are there, if no key comes twice. -/
theorem entries_tokens {es : List (String × Content)} (h : ∀ e ∈ es, e.2.Makes (eval e.2.tokens))
    (whole : List Token) {table : Table Value} (hkeys : (table.keys ++ es.map Prod.fst).Nodup)
    (σ : Store) :
    ∃ made τ, entries eval whole (es.map entryTokens) table σ = .ok (table ++ made) τ ∧
      List.Forall₂ (EntryHeldBy τ) es made ∧ σ.Grows τ := by
  induction es generalizing σ table with
  | nil => exact ⟨[], σ, by rw [List.append_nil]; rfl, .nil, .refl σ⟩
  | cons e es ih =>
    obtain ⟨he, hes⟩ := List.forall_mem_cons.1 h
    obtain ⟨v, ρ, hv, hheld, hgrow⟩ := he σ
    have hnew : e.1 ∉ table.keys := fun hmem =>
      (List.nodup_append.1 hkeys).2.2 e.1 hmem e.1 (by simp) rfl
    have hput : table.put e.1 v = table ++ [(e.1, v)] := Table.put_of_not_mem hnew v
    have hkeys' : (Table.keys (table ++ [(e.1, v)]) ++ es.map Prod.fst).Nodup := by
      simpa [Table.keys] using hkeys
    obtain ⟨made, τ, hmade, hall, hgrow'⟩ := ih hes hkeys' ρ
    refine ⟨(e.1, v) :: made, τ, ?_, .cons ⟨rfl, hheld.mono hgrow'.toExtends⟩ hall,
      hgrow.trans hgrow'⟩
    obtain ⟨t, ts, hts⟩ := List.exists_cons_of_ne_nil e.2.tokens_ne_nil
    rw [List.map_cons, entryTokens, hts, entries, ← hts]
    simp only [key?, bind, EStateM.bind, hv, hput, hmade]
    rw [List.append_assoc, List.singleton_append]

theorem literalsFrom_skip (done ts : List Token) :
    literalsFrom eval done ts.length ts = pure done.reverse := by
  induction ts with
  | nil => rfl
  | cons t ts ih => rw [length_cons, literalsFrom, ih]

/-- A bracketed list of parts is cut where it was joined. -/
theorem parts_wrap {left right : Symbol} (hpair : Pair left right) {parts : List (List Token)}
    (h : ∀ part ∈ parts, Clear (·.is .comma) part ∧ part ≠ []) :
    Eval.partner (.sym left :: (joined parts ++ [Token.sym right])) =
      pure ((joined parts).length + 1) ∧
      commaParts
      (Eval.inside ((joined parts).length + 1) (.sym left :: (joined parts ++ [Token.sym right]))) =
        pure parts := by
  have hnested : Nested (joined parts) := clear_joined rfl fun part hpart => (h part hpart).1.nested
  have hinside :
      Eval.inside ((joined parts).length + 1) (.sym left :: (joined parts ++ [Token.sym right])) =
      joined parts := by
    simp [Eval.inside]
  rw [Eval.partner, partner?_of_pair hpair hnested, hinside, commaParts, split_joined h]
  exact ⟨rfl, rfl⟩

/-- An array literal makes an array of what its parts make. -/
theorem literals_arr {cs : List Content} (hread : ∀ c ∈ cs, c.isReadable = true)
    (h : ∀ c ∈ cs, c.Makes (eval c.tokens)) (σ : Store) :
    ∃ v τ, literals eval (tokens (.arr cs)) σ = .ok [.val v] τ ∧ HeldBy τ (.arr cs) v ∧
    σ.Grows τ := by
  obtain ⟨vs, ρ, hvs, hall, hgrow⟩ := elements_tokens h σ
  have hparts : ∀ part ∈ cs.map tokens, Clear (·.is .comma) part ∧ part ≠ [] :=
    List.forall_mem_map.2 fun c hc =>
    ⟨clear_tokens (fun _ => rfl) rfl (hread c hc), c.tokens_ne_nil⟩
  obtain ⟨hpartner, hcomma⟩ := parts_wrap .square hparts
  have hgrow' := Grows.newArray ρ vs.toArray
  have hskip := @literalsFrom_skip eval [.val (.arr ρ.arrays.size)]
    (joined (cs.map tokens) ++ [Token.sym .rbracket])
  rw [length_append, length_singleton] at hskip
  refine ⟨.arr ρ.arrays.size, (ρ.newArray vs.toArray).2, ?_, ?_, hgrow.trans hgrow'⟩
  · rw [tokens, tokensAll_eq, literals, literalsFrom, if_neg (by decide), if_pos (by decide),
      arrayValues, hpartner]
    simp only [pure_bind, hcomma, bind_assoc]
    rw [bind_of_ok hvs, make_bind]
    exact congrFun hskip _
  · refine heldBy_arr.2 ⟨_, rfl, by simp [newArray], ?_⟩
    have hmade : ((ρ.newArray vs.toArray).2.array ρ.arrays.size).toList = vs := by
      simp [newArray, array]
    rw [hmade]
    exact forall₂_imp hall fun c _ v hv => hv.mono hgrow'.toExtends

theorem keys_of_forall₂ {σ : Store} {es : List (String × Content)} {t : Table Value}
    (h : Forall₂ (EntryHeldBy σ) es t) : t.keys = es.map Prod.fst := by
  induction h with
  | nil => rfl
  | cons he _ ih => exact congrArg₂ cons he.1 ih

/-- An object literal makes an object of what its entries make. -/
theorem literals_obj {es : List (String × Content)}
    (hread : ∀ e ∈ es, isLegible e.1 = true ∧ e.2.isReadable = true)
    (hkeys : (es.map Prod.fst).Nodup) (h : ∀ e ∈ es, e.2.Makes (eval e.2.tokens)) (σ : Store) :
    ∃ v τ, literals eval (tokens (.obj es)) σ = .ok [.val v] τ ∧ HeldBy τ (.obj es) v ∧
    σ.Grows τ := by
  obtain ⟨made, ρ, hmade, hall, hgrow⟩ := @entries_tokens eval es h (tokens (.obj es)) [] hkeys σ
  have hparts : ∀ part ∈ es.map entryTokens, Clear (·.is .comma) part ∧ part ≠ [] :=
    List.forall_mem_map.2 fun e he => ⟨clear_entryTokens (fun _ => rfl) rfl (hread e he).1
      (clear_tokens (fun _ => rfl) rfl (hread e he).2), cons_ne_nil _ _⟩
  obtain ⟨hpartner, hcomma⟩ := parts_wrap .curly hparts
  have hgrow' := Grows.newObject ρ made
  have hskip := @literalsFrom_skip eval [.val (.obj ρ.objects.size)]
    (joined (es.map entryTokens) ++ [Token.sym .rbrace])
  rw [length_append, length_singleton] at hskip
  refine ⟨.obj ρ.objects.size, (ρ.newObject made).2, ?_, ?_, hgrow.trans hgrow'⟩
  · rw [tokens, tokensEntries_eq] at hmade ⊢
    rw [literals, literalsFrom, if_pos (by decide), hpartner]
    simp only [pure_bind, hcomma, reverse_nil, nil_append]
    rw [nil_append] at hmade
    rw [bind_of_ok hmade, make_bind]
    exact congrFun hskip _
  · have hobject : (ρ.newObject made).2.object ρ.objects.size = made := by
      simp [newObject, object]
    refine heldBy_obj.2 ⟨_, rfl, by simp [newObject], ?_⟩
    rw [hobject]
    refine ⟨?_, forall₂_imp hall fun e _ f hf => ⟨hf.1, hf.2.mono hgrow'.toExtends⟩⟩
    rwa [keys_of_forall₂ hall]

theorem isProper_of_heldBy {σ : Store} {c : Content} {v : Value} (h : c.HeldBy σ v) :
    v.isProper = true := by
  cases c with
  | int n => obtain ⟨x, rfl, _⟩ := h; rfl
  | arr cs => obtain ⟨r, rfl, _⟩ := heldBy_arr.1 h; rfl
  | obj es => obtain ⟨r, rfl, _⟩ := heldBy_obj.1 h; rfl
  | _ => obtain rfl := h; rfl

/-- What literals leave as one value is the value of the expression. -/
theorem reduce_of_literals {ts : List Token} {c : Content} {v : Value} {σ τ : Store}
    (h : literals eval ts σ = .ok [.val v] τ) (hv : c.HeldBy τ v) :
    reduce eval call ts σ = .ok v τ := by
  have happly : applications eval call [.val v] τ = .ok [.val v] τ := by
    have hendless : τ.anyEndless [.val v] = false := by
      simp [Store.anyEndless, isEndless_of_heldBy hv]
    have hfrom : applyFrom eval call [] 0 [.val v] = pure [.val v] := by
      rw [applyFrom_val]
      rfl
    rw [applications, Eval.get_bind, hendless, hfrom]
    rfl
  rw [reduce]
  simp only [bind, EStateM.bind, h, happly, Operator.settle_val, pure, EStateM.pure,
    isProper_of_heldBy hv]
  rfl

variable {ctx : Context} {fuel scope : Nat}

theorem fixed_of_isLiteral {t : Token} (h : IsLiteral t) : t.Fixed := by
  rcases h with ⟨v, rfl⟩ | ⟨y, _, rfl⟩
  · exact .scalar v
  · exact .symbol y

theorem evaluate_of_literals {c : Content} {v : Value} {σ τ : Store}
    (h : literals (evaluate ctx fuel scope) c.tokens σ = .ok [.val v] τ) (hv : c.HeldBy τ v) :
    evaluate ctx (fuel + 1) scope c.tokens σ = .ok v τ := by
  have hfixed : ∀ t ∈ c.tokens, t.Fixed := fun t ht => fixed_of_isLiteral (c.isLiteral_tokens t ht)
  rw [evaluate]
  simp only [bind, EStateM.bind, resolve_fixed hfixed]
  exact reduce_of_literals h hv

theorem makes_scalar {c : Content} {v : Scalar} (htokens : c.tokens = [.val v.value])
    (hheld : ∀ σ, c.HeldBy σ v.value) : c.Makes (evaluate ctx (fuel + 1) scope c.tokens) := by
  intro σ
  refine ⟨v.value, σ, ?_, hheld σ, .refl σ⟩
  rw [htokens]
  exact evaluate_scalar ctx fuel scope v σ

/-- A whole number is read back, with the minus sign as an operator. -/
theorem makes_int {n : Int} (h : n.natAbs ≤ 2 ^ 53) :
    (int n).Makes (evaluate ctx (fuel + 2) scope (tokens (.int n))) := by
  by_cases hneg : n < 0
  · intro σ
    have hint := isInt_neg_ofDecimal (show 0 < n.natAbs by omega) h
    rw [show -(n.natAbs : Int) = n by omega] at hint
    have htokens : tokens (.int n) = [.sym .minus, .val (.num (ofDecimal n.natAbs 0))] := by
      rw [tokens, if_pos hneg]
    -- an expression of an operator and a scalar means the formula it is written for
    have hlegible : (Formula.unary .negative (.lit (.num (ofDecimal n.natAbs 0)))).Legible := by
      simp [Formula.Legible, Formula.literals]
    have hmeans : Means ctx scope (.unary .negative (.lit (.num (ofDecimal n.natAbs 0))))
        [.sym .minus, .val (.num (ofDecimal n.natAbs 0))] :=
      (means_of_bracketed (.unary .negative (.lit _)) hlegible).1
    have hyields : Yields (evaluate ctx (fuel + 2) scope _) _ _ := hmeans (by simp)
    rcases hyields σ with ⟨v, hv, w, hw, rfl⟩ | ⟨_, hnone⟩
    · cases hw
      exact ⟨_, σ, by rw [htokens]; exact hv, ⟨_, rfl, hint⟩, .refl σ⟩
    · cases hnone
  · have htokens : tokens (.int n) = [.val (.num (ofDecimal n.natAbs 0))] := by
      rw [tokens, if_neg hneg]
    have hint := (isInt_ofDecimal h).1
    rw [show (n.natAbs : Int) = n by omega] at hint
    exact makes_scalar (v := .num (ofDecimal n.natAbs 0)) htokens fun _ => ⟨_, rfl, hint⟩

/-- **A literal makes a value of its content**, with fuel for the containers in it. -/
theorem makes_tokens {c : Content} (h : c.isReadable = true) {ρ : Store} {u : Value}
    (hu : c.HeldBy ρ u) (hfuel : c.height + 2 ≤ fuel) :
    c.Makes (evaluate ctx fuel scope c.tokens) := by
  induction c using induction generalizing fuel u with
  | null =>
    obtain ⟨fuel, rfl⟩ : ∃ n, fuel = n + 1 := ⟨fuel - 1, by omega⟩
    exact makes_scalar (v := .null) rfl fun _ => rfl
  | bool b =>
    obtain ⟨fuel, rfl⟩ : ∃ n, fuel = n + 1 := ⟨fuel - 1, by omega⟩
    exact makes_scalar (v := .bool b) rfl fun _ => rfl
  | str s =>
    obtain ⟨fuel, rfl⟩ : ∃ n, fuel = n + 1 := ⟨fuel - 1, by omega⟩
    exact makes_scalar (v := .str s) rfl fun _ => rfl
  | int n =>
    obtain ⟨fuel, rfl⟩ : ∃ n, fuel = n + 2 := ⟨fuel - 2, by omega⟩
    exact makes_int (of_decide_eq_true h)
  | arr cs ih =>
    rw [isReadable, allReadable_iff] at h
    obtain ⟨r, rfl, _, hcs⟩ := heldBy_arr.1 hu
    obtain ⟨fuel, rfl⟩ : ∃ n, fuel = n + 1 := ⟨fuel - 1, by omega⟩
    have hfuel : heightByAll true cs + 1 + 2 ≤ fuel + 1 := hfuel
    have hmade : ∀ c ∈ cs, c.Makes (evaluate ctx fuel scope c.tokens) := by
      intro c hc
      obtain ⟨w, _, hw⟩ := exists_mem_of_forall₂ hcs hc
      have hle : c.height ≤ heightByAll true cs := heightBy_le_all hc
      exact ih c hc (h c hc) hw (by omega)
    intro σ
    obtain ⟨v, τ, hv, hheld, hgrow⟩ := literals_arr h hmade σ
    exact ⟨v, τ, evaluate_of_literals hv hheld, hheld, hgrow⟩
  | obj es ih =>
    rw [isReadable, entriesReadable_iff] at h
    obtain ⟨r, rfl, _, hkeys, hes⟩ := heldBy_obj.1 hu
    obtain ⟨fuel, rfl⟩ : ∃ n, fuel = n + 1 := ⟨fuel - 1, by omega⟩
    have hfuel : heightByEntries true es + 1 + 2 ≤ fuel + 1 := hfuel
    have hmade : ∀ e ∈ es, e.2.Makes (evaluate ctx fuel scope e.2.tokens) := by
      intro e he
      obtain ⟨f, _, hf⟩ := exists_mem_of_forall₂ hes he
      have hle : e.2.height ≤ heightByEntries true es := heightBy_le_entries he
      exact ih e he (h e he).2 hf.2 (by omega)
    intro σ
    rw [keys_of_forall₂ hes] at hkeys
    obtain ⟨v, τ, hv, hheld, hgrow⟩ := literals_obj h hkeys hmade σ
    exact ⟨v, τ, evaluate_of_literals hv hheld, hheld, hgrow⟩

end

end Content

/-! ## Declarations -/

namespace Parser

open LittleJ.TopLevel LittleJ.Grammar

variable {ts : List Token}

/-- A declaration is read if the searches for its end and for a second variable pass over the value.
-/
theorem parse_declared {e : Expr} (hne : ts ≠ [])
    (hsemi : Lacks (·.is .semi) (.name "r" :: .sym .assign :: ts))
    (hcomma : Lacks (·.is .comma) (.name "r" :: .sym .assign :: ts))
    (hread : Derives (.expression ts e)) :
    parse (.sym .varMark :: Lexer.declared ts) = .ok [.init "r" e] := by
  have hparts : Separated (·.is .comma) ([Declarator.mk "r" ts e].map Declarator.tokens)
      (.name "r" :: .sym .assign :: ts) := .last (cons_ne_nil _ _) hcomma
  have hall := Derives.declared (.mark .empty) rfl hsemi hparts (by simpa using hne)
      (by simpa using hread)
  exact read_of_derives hall _ (Nat.lt_succ_self _)

end Parser

namespace Content

open LittleJ.Bracket LittleJ.Parser LittleJ.TopLevel

theorem parse_tokens {c : Content} (h : c.isReadable = true) :
    parse (.sym .varMark :: Lexer.declared c.tokens) = .ok [.init "r" c.tokens] := by
  have hclear {y : Symbol} (hminus : Symbol.minus ≠ y) (hassign : Symbol.assign ≠ y) :
      Clear (·.is y) (.name "r" :: .sym .assign :: c.tokens) :=
    .cons (by decide) rfl (.cons (by decide) (by simpa [Token.is] using hassign)
      (clear_tokens (fun _ => rfl) (by simpa [Token.is] using hminus) h))
  have hsemi := lacks_of_clear (hclear (show Symbol.minus ≠ .semi by decide) (by decide))
  have hcomma := lacks_of_clear (hclear (show Symbol.minus ≠ .comma by decide) (by decide))
  refine parse_declared c.tokens_ne_nil hsemi hcomma
    (Grammar.derives_of_not_function fun t ht => ?_)
  rcases c.isLiteral_tokens t ht with ⟨v, rfl⟩ | ⟨y, hy, rfl⟩
  · rfl
  · have hmarks : ∀ y ∈ marks, (Token.sym y).is .kwFunction = false := by decide
    exact hmarks y hy

theorem parseText_text {c : Content} (h : c.isReadable = true) :
    parseText ("var r = " ++ c.text ++ ";") = .ok [.init "r" c.tokens] := by
  rw [parseText, Lexer.lex_declared (word_text h)]
  exact parse_tokens h

end Content

/-! ## Running a declaration -/

theorem Statement.load_fixed {ts : List Token} (h : ∀ t ∈ ts, t.Fixed) (σ : Store) :
    Statement.load ts σ = .ok ts σ := by
  induction ts with
  | nil => rfl
  | cons t ts ih =>
    obtain ⟨ht, hts⟩ := List.forall_mem_cons.1 h
    cases ht <;> simp only [Statement.load, bind, EStateM.bind, ih hts] <;> rfl

theorem Store.lookup_putVar {σ : Store} {scope : Nat} (h : scope < σ.scopes.size)
    (name : String) (v : Value) : (σ.putVar scope name v).lookup scope name = .ok v := by
  have hvars : ((σ.putVar scope name v).scope scope).vars = (σ.scope scope).vars.put name v := by
    simp [Store.putVar, Store.modifyScope, Store.scope, h, Array.getElem_modify]
  have hget : (((σ.putVar scope name v).scope scope).vars).get? name = some v := by
    rw [hvars, Table.get?_put_self]
  have howner : (σ.putVar scope name v).owner scope name = .ok scope := by
    simp [Store.owner, Store.ownerFrom, Table.has, hget]
  simp [Store.lookup, howner, hget, bind, Except.bind, pure, Except.pure]

/-- Running the declaration of a variable makes it, if the scope has none of the name. -/
theorem exec_init {ctx : Context} {fuel scope : Nat} {ts : List Token} {c : Content}
    (hfixed : ∀ t ∈ ts, t.Fixed) (hmakes : c.Makes (evaluate ctx fuel scope ts)) {σ : Store}
    (hscope : scope < σ.scopes.size) {name : String}
    (hnew : (σ.scope scope).vars.has name = false) :
    ∃ v τ, exec ctx (fuel + 1) scope (.init name ts) σ = .ok () τ ∧ τ.lookup scope name = .ok v ∧
      c.HeldBy τ v ∧ σ.Extends τ := by
  obtain ⟨v, τ, hv, hheld, hgrow⟩ := hmakes σ
  have hsame : τ.scope scope = σ.scope scope := by rw [Store.scope, Store.scope, hgrow.scopes]
  have hcheck : τ.checkNew scope name = .ok () := by rw [Store.checkNew, hsame, hnew]; rfl
  have hput := Store.Extends.putVar τ scope name v
  refine ⟨v, τ.putVar scope name v, ?_, Store.lookup_putVar (by rwa [hgrow.scopes]) name v,
    hheld.mono hput, hgrow.toExtends.trans hput⟩
  have hvalue : (Statement.load ts >>= evaluate ctx fuel scope) σ = .ok v τ :=
    (Eval.bind_of_ok (Statement.load_fixed hfixed σ) _).trans hv
  rw [exec]
  refine (Eval.bind_of_ok hvalue _).trans ?_
  rw [Statement.initialise, Eval.get_bind, hcheck]
  rfl

/-- **A printed value reads back**: the program that declares a variable with the printed form runs,
and the variable has a value of the same content, with the keys of objects in the same order. -/
theorem print_reads_back {σ : Store} {c : Content} {v : Value} (hv : c.HeldBy σ v)
    (hc : c.isReadable = true) : ∃ text, σ.print v = .ok text ∧
      ∀ (loopLimit : Option Rat) (budget : Budget) (scope : Nat) (τ : Store),
      c.height + 3 ≤ budget.depth →
        scope < τ.scopes.size → (τ.scope scope).vars.has "r" = false →
          ∃ w ρ, Interpreter.runBare loopLimit budget scope ("var r = " ++ text ++ ";") τ =
            .ok () ρ ∧
            ρ.lookup scope "r" = .ok w ∧ c.HeldBy ρ w ∧ τ.Extends ρ := by
  refine ⟨c.text, Content.print_of_heldBy hv, ?_⟩
  intro loopLimit budget scope τ hdepth hscope hnew
  obtain ⟨fuel, hfuel⟩ : ∃ n, budget.depth = n + 1 := ⟨budget.depth - 1, by omega⟩
  have hfixed : ∀ t ∈ c.tokens, t.Fixed :=
    fun t ht => Content.fixed_of_isLiteral (c.isLiteral_tokens t ht)
  have hmakes : c.Makes (evaluate ⟨loopLimit, true, budget.rounds⟩ fuel scope c.tokens) :=
    Content.makes_tokens hc hv (by omega)
  obtain ⟨w, ρ, hexec, hlookup, hheld, hext⟩ := exec_init hfixed hmakes hscope hnew
  refine ⟨w, ρ, ?_, hlookup, hheld, hext⟩
  rw [Interpreter.runBare, Content.parseText_text hc, hfuel]
  rw [Eval.ofFailure, pure_bind, runProgram, runAll]
  simp only [bind, EStateM.bind, hexec]
  rfl

/-- A negative number, a quote in a string, a keyword as a key and a nested array read back. -/
theorem print_reads_back_nested :
    let σ : Store := { empty with
      arrays := #[#[.num (-ofDecimal 5 0), .str "a\"b", .obj 0], #[.null]]
      objects := #[[("if", .bool true), ("k k", .arr 1)]] }
    let c :
        Content := .arr [.int (-5), .str "a\"b", .obj [("if", .bool true), ("k k", .arr [.null])]]
    let τ : Store := { empty with scopes := #[⟨[], none, 0, none⟩] }
    c.HeldBy σ (.arr 0) ∧ c.isReadable = true ∧ c.height = 3 ∧ ∃ text, σ.print (.arr 0) = .ok text ∧
      ∃ w ρ, Interpreter.runBare none ⟨6, 0⟩ 0 ("var r = " ++ text ++ ";") τ = .ok () ρ ∧
        ρ.lookup 0 "r" = .ok w ∧ c.HeldBy ρ w := by
  intro σ c τ
  have hfive : IsInt (-ofDecimal 5 0) (-5) := isInt_neg_ofDecimal (by decide) (by decide)
  have hheld : c.HeldBy σ (.arr 0) := by
    refine Content.heldBy_arr.2
      ⟨0, rfl, by decide, .cons ⟨_, rfl, hfive⟩ (.cons rfl (.cons ?_ .nil))⟩
    refine Content.heldBy_obj.2
      ⟨0, rfl, by decide, by decide, .cons ⟨rfl, rfl⟩ (.cons ⟨rfl, ?_⟩ .nil)⟩
    exact Content.heldBy_arr.2 ⟨1, rfl, by decide, .cons rfl .nil⟩
  have hread : c.isReadable = true := by decide +kernel
  have hheight : c.height = 3 := rfl
  obtain ⟨text, htext, hrun⟩ := print_reads_back hheld hread
  obtain ⟨w, ρ, hok, hlookup, hw, _⟩ := hrun none ⟨6, 0⟩ 0 τ (by rw [hheight]) (by decide) rfl
  exact ⟨hheld, hread, hheight, text, htext, w, ρ, hok, hlookup, hw⟩

end LittleJ
