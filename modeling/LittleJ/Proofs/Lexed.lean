import LittleJ.Proofs.UnsignedNumber

/-!
# What the lexer makes

Every token of a text is a symbol, a name that may name a variable, or a plain value, and a number
among them is not negative: a minus sign in code is a word of its own. There are no functions yet.
-/

namespace LittleJ.Lexer

variable {ts : List Token} {word : String}

/-- A token as the lexer makes them. -/
inductive Lexed : Token → Prop where
  | symbol (y : Symbol) : Lexed (.sym y)
  | name {s : String} : isValidName s = true → Lexed (.name s)
  | null : Lexed (.val .null)
  | bool (b : Bool) : Lexed (.val (.bool b))
  | num {x : Float} : Number.isNegative x = false → Lexed (.val (.num x))
  | str (s : String) : Lexed (.val (.str s))

theorem lexed_subscripts {words : List String} (h : subscripts words = .ok ts) :
    ∀ t ∈ ts, Lexed t := by
  unfold subscripts at h
  induction words generalizing ts with
  | nil =>
    cases h
    simp
  | cons word words ih =>
    rw [List.mapM_cons, subscript] at h
    split at h
    · cases hrest : words.mapM subscript with
      | error e => rw [hrest] at h; cases h
      | ok rest =>
        rw [hrest] at h ih
        cases h
        rw [List.flatten_cons, List.forall_mem_append]
        refine ⟨?_, ih rfl⟩
        simpa using ⟨Lexed.symbol .lbracket, Lexed.str word, Lexed.symbol .rbracket⟩
    · cases h

theorem lexed_dottedWord {prev : Option Token} (h : dottedWord prev word = .ok ts) :
    ∀ t ∈ ts, Lexed t := by
  unfold dottedWord at h
  split at h
  · cases h
  · split at h
    · split at h
      · cases h
      · split at h
        · cases h
        · split at h
          · exact lexed_subscripts h
          · cases h
    · split at h
      · next base rest _ =>
          split at h
          · next hbase =>
              cases hrest : subscripts rest with
              | error e => rw [hrest] at h; cases h
              | ok more =>
                rw [hrest] at h
                cases h
                exact List.forall_mem_cons.2 ⟨.name hbase, lexed_subscripts hrest⟩
          · cases h
      · cases h
        simp

theorem lexed_literal {v : Value} (h : literal? word = some v) : Lexed (.val v) := by
  unfold literal? at h
  split at h
  · cases h
    exact .bool true
  · cases h
    exact .bool false
  · cases h
    exact .null
  · cases h

/-- A word in which signs are followed by signs alone, as all words of code are. -/
abbrev IsWord (word : String) : Prop :=
  word.toList.IsChain fun a b => a ∈ signs → b ∈ signs

theorem lexed_wordTokens {prev : Option Token} (hword : IsWord word)
    (h : wordTokens prev word = .ok ts) :
    ∀ t ∈ ts, Lexed t := by
  unfold wordTokens at h
  split at h
  · cases h
  · split at h
    · cases h
    · split at h
      · next hliteral =>
          cases h
          exact List.forall_mem_singleton.2 (lexed_literal hliteral)
      · cases h
        exact List.forall_mem_singleton.2 (.symbol _)
      · split at h
        · next hname =>
            cases h
            exact List.forall_mem_singleton.2 (.name hname)
        · split at h
          · next hread =>
              split at h
              · cases h
                exact List.forall_mem_singleton.2
                  (.num (Number.unsigned_of_read? hword hread).isNegative)
              · cases h
          · split at h
            · exact lexed_dottedWord h
            · cases h

theorem lexed_readWords {done : List Token} (hdone : ∀ t ∈ done, Lexed t) {words : List String}
    (hwords : ∀ w ∈ words, IsWord w) (h : readWords done words = .ok ts) : ∀ t ∈ ts, Lexed t := by
  induction words generalizing done with
  | nil =>
    rw [readWords] at h
    cases h
    exact hdone
  | cons word words ih =>
    obtain ⟨hword, hwords⟩ := List.forall_mem_cons.1 hwords
    rw [readWords] at h
    cases hmore : wordTokens done.head? word with
    | error e => rw [hmore] at h; cases h
    | ok more =>
      rw [hmore] at h
      refine ih (List.forall_mem_append.2 ⟨fun t ht => ?_, hdone⟩) hwords h
      exact lexed_wordTokens hword hmore t (List.mem_reverse.1 ht)

theorem lexed_readSegments {done : List Token} (hdone : ∀ t ∈ done, Lexed t) {segs : List Segment}
    (h : readSegments done segs = .ok ts) : ∀ t ∈ ts, Lexed t := by
  induction segs generalizing done with
  | nil =>
    rw [readSegments] at h
    cases h
    exact hdone
  | cons seg segs ih =>
    cases seg with
    | code cs =>
      rw [readSegments] at h
      cases hwords : readWords done (codeWords cs) with
      | error e => rw [hwords] at h; cases h
      | ok more =>
        rw [hwords] at h
        exact ih (lexed_readWords hdone (fun _ => isChain_of_mem_codeWords) hwords) h
    | quoted cs =>
      rw [readSegments] at h
      cases hbody : Text.Escape.decode cs with
      | none => rw [hbody] at h; cases h
      | some body =>
        rw [hbody] at h
        exact ih (List.forall_mem_cons.2 ⟨.str _, hdone⟩) h

/-- **All tokens of a text are as the lexer makes them.** -/
theorem lexed_lex {source : String} (h : lex source = .ok ts) : ∀ t ∈ ts, Lexed t := by
  unfold lex at h
  split at h
  · cases h
  · next parts _ =>
      cases hdone : readSegments [] parts with
      | error e => rw [hdone] at h; cases h
      | ok done =>
        rw [hdone] at h
        cases h
        refine List.forall_mem_cons.2 ⟨.symbol _, fun t ht => ?_⟩
        exact lexed_readSegments (by simp) hdone t (List.mem_reverse.1 ht)

end LittleJ.Lexer
