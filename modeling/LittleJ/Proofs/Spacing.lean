import LittleJ.Token.Lexer
import Mathlib.Data.List.Chain
import Mathlib.Data.List.Infix

/-!
# How code falls into words

Code is spread out by a long row of replacements over the whole text, and what one of them makes the
next one sees. Even so words can be found locally: what stands left of a blank and what stands right
of it are spread out apart, and the same holds around brackets, commas, semicolons and colons, which
are words of their own.

A replacement can be done apart on both sides of a character if no occurrence reaches over it. The
first replacements put blanks around single signs, so a blank of the text is never next to a sign
after them; and the later ones, which join signs, replace nothing but blanks that are.

What follows a sign is told in the same way: after each replacement it is a blank or another sign,
so a word with a sign in it has nothing but signs behind that.
-/

namespace LittleJ

open List Text

namespace Text

variable {old new a b : List Char} {x : Char}

/-- A property of the members of a list is checked member by member. There are finitely many
characters, but far too many to try them all. -/
instance decidableForallMem (p : Char → Prop) [DecidablePred p] (cs : List Char) :
    Decidable (∀ c ∈ cs, p c) :=
  decidableBAll p cs

/-! ## Words -/

theorem wordsFrom_blank (hx : isBlank x = true) (word a b : List Char) :
    wordsFrom word (a ++ x :: b) = wordsFrom word a ++ words b := by
  induction a generalizing word with
  | nil => cases word <;> simp [wordsFrom, words, hx]
  | cons c a ih =>
    rw [cons_append, wordsFrom, wordsFrom, ih, ih]
    split
    · split <;> simp
    · rfl

/-- The words on both sides of a blank are found apart. -/
theorem words_blank (a b : List Char) : words (a ++ ' ' :: b) = words a ++ words b :=
  wordsFrom_blank rfl [] a b

theorem wordsFrom_of_not_blank {cs : List Char} (h : ∀ c ∈ cs, isBlank c = false) {word : List Char}
    (hne : word.reverse ++ cs ≠ []) : wordsFrom word cs = [word.reverse ++ cs] := by
  induction cs generalizing word with
  | nil =>
    have hword : word ≠ [] := by simpa using hne
    simp [wordsFrom, hword]
  | cons c cs ih =>
    obtain ⟨hc, hcs⟩ := List.forall_mem_cons.1 h
    rw [wordsFrom, hc, if_neg (by simp), ih hcs (by simp)]
    simp

/-- A text without blanks is one word. -/
theorem words_of_not_blank {cs : List Char} (hne : cs ≠ []) (h : ∀ c ∈ cs, isBlank c = false) :
    words cs = [cs] :=
  wordsFrom_of_not_blank h hne

theorem infix_of_mem_wordsFrom {w word cs : List Char} (hword : ∀ c ∈ word, isBlank c = false)
    (h : w ∈ wordsFrom word cs) : w <:+: word.reverse ++ cs ∧ ∀ c ∈ w, isBlank c = false := by
  induction cs generalizing word with
  | nil =>
    rw [wordsFrom] at h
    split at h
    · cases h
    · obtain rfl := List.mem_singleton.1 h
      exact ⟨(prefix_append ..).isInfix, fun c hc => hword c (List.mem_reverse.1 hc)⟩
  | cons c cs ih =>
    have hbehind {w : List Char} (hw : w <:+: cs) : w <:+: word.reverse ++ c :: cs :=
      hw.trans ((suffix_cons c cs).trans (suffix_append ..)).isInfix
    rw [wordsFrom] at h
    split at h
    · split at h
      · obtain ⟨hw, hblank⟩ := ih (by simp) h
        exact ⟨hbehind hw, hblank⟩
      · rcases List.mem_cons.1 h with rfl | h
        · exact ⟨(prefix_append ..).isInfix, fun d hd => hword d (List.mem_reverse.1 hd)⟩
        · obtain ⟨hw, hblank⟩ := ih (by simp) h
          exact ⟨hbehind hw, hblank⟩
    · next hc =>
        have hnext := ih (List.forall_mem_cons.2 ⟨by simpa using hc, hword⟩) h
        rwa [reverse_cons, append_assoc, singleton_append] at hnext

/-- A word is a stretch of the text without blanks. -/
theorem infix_of_mem_words {w cs : List Char} (h : w ∈ words cs) :
    w <:+: cs ∧ ∀ c ∈ w, isBlank c = false :=
  infix_of_mem_wordsFrom (by simp) h

/-! ## Replacing -/

/-- No occurrence of `old` that starts left of `x` reaches over it. -/
def Parts (old a : List Char) (x : Char) (b : List Char) : Prop :=
  ∀ a', a' <:+ a → old <+: a' ++ x :: b → old.length ≤ a'.length

theorem Parts.of_cons {c : Char} (h : Parts old (c :: a) x b) : Parts old a x b :=
  fun a' ha' => h a' (ha'.trans (suffix_cons c a))

theorem replaceFrom_parts (hold : old ≠ []) (h : Parts old a x b) {skip : Nat}
    (hskip : skip ≤ a.length) :
    replaceFrom old new skip (a ++ x :: b) = replaceFrom old new skip a ++ x :: replace
    old new b := by
  induction a generalizing skip with
  | nil =>
    obtain rfl : skip = 0 := by simpa using hskip
    have hnot : ¬old <+: x :: b := fun hp =>
      hold (eq_nil_of_length_eq_zero (Nat.le_zero.1 (h [] (suffix_refl _) hp)))
    rw [nil_append, replaceFrom, replaceFrom, if_neg (by simpa using hnot)]
    rfl
  | cons c a ih =>
    cases skip with
    | succ skip => exact ih h.of_cons (by simpa using hskip)
    | zero =>
      have hp : old <+: c :: (a ++ x :: b) ↔ old <+: c :: a := by
        constructor
        · intro hp
          exact prefix_of_prefix_length_le hp (prefix_append (c :: a) (x :: b))
            (h (c :: a) (suffix_refl _) hp)
        · intro hp
          exact hp.trans (prefix_append (c :: a) (x :: b))
      rw [cons_append, replaceFrom, replaceFrom]
      by_cases hpre : old <+: c :: a
      · have hlen : old.length ≤ a.length + 1 := hpre.length_le
        rw [if_pos (by simpa using hp.2 hpre), if_pos (by simpa using hpre),
          ih h.of_cons (by omega), append_assoc]
      · rw [if_neg (by simpa using fun hq => hpre (hp.1 hq)), if_neg (by simpa using hpre),
          ih h.of_cons (Nat.zero_le _), cons_append]

/-- A replacement is done apart on both sides of a character that no occurrence reaches over. -/
theorem replace_parts (hold : old ≠ []) (h : Parts old a x b) :
    replace old new (a ++ x :: b) = replace old new a ++ x :: replace old new b :=
  replaceFrom_parts hold h (Nat.zero_le _)

theorem getElem_of_overlap {a' : List Char} (hp : old <+: a' ++ x :: b) (i : Nat)
    (hi : i < old.length) :
    old[i]? = (a' ++ x :: b)[i]? := by
  obtain ⟨rest, hrest⟩ := hp
  rw [← hrest, getElem?_append_left hi]

/-- A character that `old` does not have is not reached over. -/
theorem parts_of_not_mem (h : x ∉ old) : Parts old a x b := by
  intro a' _ hp
  by_contra hlt
  have hx := getElem_of_overlap hp a'.length (by omega)
  rw [getElem?_append_right (Nat.le_refl _), Nat.sub_self, getElem?_cons_zero] at hx
  exact h (mem_of_getElem? hx)

/-- The second text is the first one with occurrences of `old` replaced by `new`. -/
inductive Replaced (old new : List Char) : List Char → List Char → Prop where
  | nil : Replaced old new [] []
  | keep (c : Char) {cs cs' : List Char} :
      Replaced old new cs cs' → Replaced old new (c :: cs) (c :: cs')
  | swap {cs cs' : List Char} : Replaced old new cs cs' → Replaced old new (old ++ cs) (new ++ cs')

theorem replaced_replaceFrom (hold : old ≠ []) (skip : Nat) (cs : List Char) :
    Replaced old new (cs.drop skip) (replaceFrom old new skip cs) := by
  induction cs generalizing skip with
  | nil =>
    rw [drop_nil, replaceFrom]
    exact .nil
  | cons c cs ih =>
    cases skip with
    | succ skip => exact ih skip
    | zero =>
      rw [drop_zero, replaceFrom]
      split
      · next hp =>
          obtain ⟨rest, hrest⟩ := List.isPrefixOf_iff_prefix.1 hp
          have hdrop : cs.drop (old.length - 1) = rest := by
            have hpos : 0 < old.length := length_pos_of_ne_nil hold
            have h := congrArg (drop old.length) hrest
            rwa [drop_left, ← Nat.sub_add_cancel hpos, drop_succ_cons, eq_comm] at h
          have hbehind := ih (old.length - 1)
          rw [hdrop] at hbehind
          rw [← hrest]
          exact .swap hbehind
      · exact .keep c (ih 0)

theorem replaced_replace (hold : old ≠ []) (cs : List Char) :
    Replaced old new cs (replace old new cs) :=
  replaced_replaceFrom hold 0 cs

section Replaced

variable {cs cs' : List Char}

/-- A text that was replaced in starts as it did, or what it started with is replaced. -/
theorem Replaced.head (h : Replaced old new cs cs') (hnew : new ≠ []) :
    cs'.head? = cs.head? ∨ cs'.head? = new.head? ∧ old <+: cs := by
  cases h with
  | nil => exact .inl rfl
  | keep c h => exact .inl rfl
  | swap h => exact .inr ⟨head?_append_of_ne_nil _ hnew, prefix_append ..⟩

/-- A text that was replaced in ends as it did, or what it ended in is replaced. -/
theorem Replaced.last (h : Replaced old new cs cs') (hnew : new ≠ []) :
    cs'.getLast? = cs.getLast? ∨ cs'.getLast? = new.getLast? ∧ old <:+ cs := by
  induction h with
  | nil => exact .inl rfl
  | keep c h ih =>
    rw [getLast?_cons, getLast?_cons]
    rcases ih with heq | ⟨heq, hsuffix⟩
    · exact .inl (by rw [heq])
    · obtain ⟨d, hd⟩ := Option.isSome_iff_exists.1 (List.getLast?_isSome.2 hnew)
      exact .inr ⟨by rw [heq, hd]; rfl, hsuffix.trans (suffix_cons c _)⟩
  | @swap cs cs' h ih =>
    rw [getLast?_append, getLast?_append]
    rcases ih with heq | ⟨heq, hsuffix⟩
    · cases hlast : cs.getLast? with
      | none =>
        rw [heq, hlast, List.getLast?_eq_none_iff.1 hlast, append_nil]
        exact .inr ⟨Option.none_or, suffix_refl old⟩
      | some d =>
        rw [heq, hlast]
        exact .inl rfl
    · refine .inr ⟨?_, hsuffix.trans (suffix_append ..)⟩
      rw [heq, Option.or_self]

/-- A relation between neighbours stays if what is put in has it and it holds at the seams as
before. -/
theorem Replaced.isChain {R : Char → Char → Prop} (h : Replaced old new cs cs') (hold : old ≠ [])
    (hne : new ≠ []) (hnew : new.IsChain R)
    (hhead : ∀ a, ∀ b ∈ old.head?, R a b → ∀ b' ∈ new.head?, R a b')
    (hlast : ∀ c, ∀ a ∈ old.getLast?, R a c → ∀ a' ∈ new.getLast?, R a' c) (hcs : cs.IsChain R) :
    cs'.IsChain R := by
  -- what may stand before a text may also stand before the text that was replaced in
  have hbefore {a : Char} {cs cs' : List Char} (h : Replaced old new cs cs')
      (ha : ∀ b ∈ cs.head?, R a b) :
      ∀ b ∈ cs'.head?, R a b := by
    intro b hb
    rcases h.head hne with heq | ⟨heq, rest, rfl⟩
    · exact ha b (heq ▸ hb)
    · obtain ⟨d, hd⟩ := Option.isSome_iff_exists.1 (List.isSome_head?.2 hold)
      exact hhead a d hd (ha d (by rw [head?_append, hd]; rfl)) b (heq ▸ hb)
  induction h with
  | nil => exact .nil
  | keep c h ih =>
    obtain ⟨hc, hcs⟩ := List.isChain_cons.1 hcs
    exact List.isChain_cons.2 ⟨hbefore h hc, ih hcs⟩
  | swap h ih =>
    obtain ⟨_, hcs, hseam⟩ := List.isChain_append.1 hcs
    obtain ⟨d, hd⟩ := Option.isSome_iff_exists.1 (List.getLast?_isSome.2 hold)
    refine List.isChain_append.2 ⟨hnew, ih hcs, fun a ha => hbefore h fun b hb => ?_⟩
    exact hlast b d hd (hseam d hd b hb) a ha

end Replaced

end Text

namespace Lexer

/-! ## Signs that get blanks around them -/

/-- Signs that are parted from their neighbours one by one. -/
def signs : List Char :=
  ['=', ',', ';', '(', '[', '\x7b', ')', ']', '\x7d', '!', '*', '/', '%', '+', '-', '>', '<', ':']

/-- Two-letter signs that are parted as a whole. -/
def pairs : List (List Char) :=
  [['&', '&'], ['|', '|']]

/-- Signs whose letters are parted first and joined again later, in the order in which they are
joined. -/
def joins : List (List Char) :=
  [['>', '='], ['<', '='], ['=', '=', '='], ['!', '=', '='], ['+', '='], ['-', '='], ['=', '='],
    ['!', '='], ['+', '+'], ['-', '-'], ['>', '>'], ['<', '<'], ['*', '='], ['/', '='], ['%', '=']]

/-- A text with blanks around it. -/
def padded (cs : List Char) : List Char :=
  ' ' :: cs ++ [' ']

/-- A text with two blanks between its letters. -/
def gapped : List Char → List Char
  | [] => []
  | [c] => [c]
  | c :: cs => c :: ' ' :: ' ' :: gapped cs

/-- Does replacements one after the other. -/
def replaceAll (rs : List (List Char × List Char)) (cs : List Char) : List Char :=
  rs.foldl (fun code p => Text.replace p.1 p.2 code) cs

theorem replaceAll_append (rs rs' : List (List Char × List Char)) (cs : List Char) :
    replaceAll (rs ++ rs') cs = replaceAll rs' (replaceAll rs cs) :=
  foldl_append

/-- Parts the signs in the list from their neighbours. -/
def part (ss : List (List Char)) : List Char → List Char :=
  replaceAll (ss.map fun cs => (cs, padded cs))

/-- Joins the letters of the signs in the list. -/
def join (ss : List (List Char)) : List Char → List Char :=
  replaceAll (ss.map fun cs => (gapped cs, cs))

theorem spacing_eq : spacing.map (fun p => (p.1.toList, p.2.toList)) =
    (signs.map fun c => ([c], padded [c])) ++
      ((pairs.map fun cs => (cs, padded cs)) ++ joins.map fun cs => (gapped cs, cs)) := by
  decide +kernel

theorem spread_eq (cs : List Char) :
    spread cs = join joins (part pairs (part (signs.map ([·])) cs)) := by
  have hmap : spread cs = replaceAll (spacing.map fun p => (p.1.toList, p.2.toList)) cs := by
    rw [replaceAll, foldl_map, spread]
  have hsigns : (signs.map ([·])).map (fun cs => (cs, padded cs)) = signs.map fun c =>
      ([c], padded [c]) := by
    rw [map_map]
    rfl
  rw [hmap, spacing_eq, replaceAll_append, replaceAll_append, join, part, part, hsigns]

theorem replace_single (c : Char) (new cs : List Char) :
    Text.replace [c] new cs = cs.flatMap fun d => if d = c then new else [d] := by
  unfold Text.replace
  induction cs with
  | nil => rfl
  | cons d cs ih =>
    rw [replaceFrom, flatMap_cons]
    by_cases hd : d = c
    · simp [hd, ih]
    · simp [hd, Ne.symm hd, ih]

/-- Parting signs one after the other comes to parting all of them at once: a sign that was parted
does not occur in what is put in for another one. -/
theorem part_signs {ss : List Char} (hblank : ' ' ∉ ss) (hnodup : ss.Nodup) (cs : List Char) :
    part (ss.map ([·])) cs = cs.flatMap fun c => if c ∈ ss then padded [c] else [c] := by
  induction ss generalizing cs with
  | nil => simp [part, replaceAll]
  | cons s ss ih =>
    obtain ⟨hs, hnodup⟩ := List.nodup_cons.1 hnodup
    obtain ⟨_, hss⟩ := not_or.1 (mt List.mem_cons.2 hblank)
    have hstep := ih hss hnodup (Text.replace [s] (padded [s]) cs)
    rw [replace_single, flatMap_assoc] at hstep
    rw [map_cons, part, map_cons, replaceAll, foldl_cons, ← replaceAll, ← part,
      replace_single, hstep]
    refine congrArg (flatMap · cs) (funext fun c => ?_)
    by_cases hc : c = s
    · subst hc
      simp [padded, hs, hss]
    · simp [hc]

/-- A sign with blanks around it, and any other character alone. -/
def pad (c : Char) : List Char :=
  if c ∈ signs then padded [c] else [c]

/-- Code with its signs parted, before the longer ones are joined again. -/
def opened (cs : List Char) : List Char :=
  part pairs (cs.flatMap pad)

theorem spread_eq_join (cs : List Char) : spread cs = join joins (opened cs) := by
  rw [spread_eq, part_signs (by decide) (by decide)]
  rfl

/-! ## Both sides of a character -/

/-- Replacements are done apart on both sides of a character that none of them is about. -/
theorem replaceAll_parts {rs : List (List Char × List Char)} {x : Char}
    (h : ∀ p ∈ rs, p.1 ≠ [] ∧ x ∉ p.1) (a b : List Char) :
    replaceAll rs (a ++ x :: b) = replaceAll rs a ++ x :: replaceAll rs b := by
  induction rs generalizing a b with
  | nil => rfl
  | cons p rs ih =>
    obtain ⟨⟨hne, hx⟩, hrs⟩ := List.forall_mem_cons.1 h
    have hstep := ih hrs (Text.replace p.1 p.2 a) (Text.replace p.1 p.2 b)
    rwa [← replace_parts hne (parts_of_not_mem hx)] at hstep

theorem part_pairs_apart {x : Char} (hand : x ≠ '&') (hor : x ≠ '|') (a b : List Char) :
    part pairs (a ++ x :: b) = part pairs a ++ x :: part pairs b := by
  refine replaceAll_parts (fun p hp => ?_) a b
  simp only [pairs, map_cons, map_nil, mem_cons, not_mem_nil, or_false] at hp
  rcases hp with rfl | rfl
  · exact ⟨cons_ne_nil _ _, by simpa using hand⟩
  · exact ⟨cons_ne_nil _ _, by simpa using hor⟩

theorem opened_blank (a b : List Char) : opened (a ++ ' ' :: b) = opened a ++ ' ' :: opened b := by
  have hpad : pad ' ' = [' '] := rfl
  rw [opened, flatMap_append, flatMap_cons, hpad, singleton_append, part_pairs_apart
    (by decide) (by decide)]
  rfl

/-- Signs that stay alone: brackets, commas, semicolons and colons. -/
def separators : List Char :=
  [',', ';', '(', '[', '\x7b', ')', ']', '\x7d', ':']

theorem opened_separator {x : Char} (hx : x ∈ separators) (a b : List Char) :
    opened (a ++ x :: b) = opened a ++ ' ' :: x :: ' ' :: opened b := by
  have hsign : ∀ y ∈ separators, y ∈ signs ∧ y ≠ '&' ∧ y ≠ '|' := by decide
  obtain ⟨hmem, hand, hor⟩ := hsign x hx
  have hpad : pad x = [' ', x, ' '] := if_pos hmem
  rw [opened, flatMap_append, flatMap_cons, hpad]
  show part pairs (a.flatMap pad ++ ' ' :: ([] ++ x :: ([] ++ ' ' :: b.flatMap pad))) = _
  rw [part_pairs_apart (by decide) (by decide), part_pairs_apart hand hor, part_pairs_apart
    (by decide) (by decide)]
  rfl

/-! ## Joining signs again -/

/-- The letters of the signs that are joined. -/
def joiners : List Char :=
  ['=', '!', '>', '<', '+', '-', '*', '/', '%']

/-- A text neither starts nor ends with a sign that may be joined. -/
structure Loose (cs : List Char) : Prop where
  head : ∀ c, cs.head? = some c → c ∉ joiners
  last : ∀ c, cs.getLast? = some c → c ∉ joiners

theorem loose_nil : Loose [] :=
  ⟨by simp, by simp⟩

theorem loose_singleton {c : Char} (h : c ∉ joiners) : Loose [c] :=
  ⟨by simpa using h, by simpa using h⟩

theorem Loose.append {a b : List Char} (ha : Loose a) (hb : Loose b) : Loose (a ++ b) where
  head c hc := by
    rw [head?_append] at hc
    exact (Option.or_eq_some_iff.1 hc).elim (ha.head c) fun h => hb.head c h.2
  last c hc := by
    rw [getLast?_append] at hc
    exact (Option.or_eq_some_iff.1 hc).elim (hb.last c) fun h => ha.last c h.2

theorem loose_padded (cs : List Char) : Loose (padded cs) := by
  have hblank : ' ' ∉ joiners := by decide
  exact ⟨by simpa [padded] using hblank, by simpa [padded, getLast?_cons] using hblank⟩

theorem loose_pad (c : Char) : Loose (pad c) := by
  have hsub : ∀ y ∈ joiners, y ∈ signs := by decide
  unfold pad
  split
  · exact loose_padded [c]
  · next hc => exact loose_singleton (mt (hsub c) hc)

theorem loose_flatMap_pad (cs : List Char) : Loose (cs.flatMap pad) := by
  induction cs with
  | nil => exact loose_nil
  | cons c cs ih => exact (loose_pad c).append ih

/-- Parting a sign leaves a text loose. -/
theorem Loose.replace_padded {sign cs : List Char} (h : Loose cs) (hne : sign ≠ []) :
    Loose (Text.replace sign (padded sign) cs) where
  head c hc := by
    rcases (replaced_replace hne cs).head (cons_ne_nil _ _) with heq | ⟨heq, _⟩
    · exact h.head c (heq ▸ hc)
    · exact (loose_padded sign).head c (heq ▸ hc)
  last c hc := by
    rcases (replaced_replace hne cs).last (cons_ne_nil _ _) with heq | ⟨heq, _⟩
    · exact h.last c (heq ▸ hc)
    · exact (loose_padded sign).last c (heq ▸ hc)

theorem loose_opened (cs : List Char) : Loose (opened cs) :=
  ((loose_flatMap_pad cs).replace_padded (cons_ne_nil _ _)).replace_padded (cons_ne_nil _ _)

theorem gapped_cons {c : Char} {cs : List Char} (h : cs ≠ []) :
    gapped (c :: cs) = c :: ' ' :: ' ' :: gapped cs := by
  cases cs with
  | nil => exact absurd rfl h
  | cons d cs => rfl

/-- A text is seamed if it starts and ends with a sign that may be joined and has such a sign next
to every blank. -/
structure Seamed (old : List Char) : Prop where
  head : ∃ c ∈ joiners, old.head? = some c
  last : ∃ c ∈ joiners, old.getLast? = some c
  beside : ∀ i, old[i]? = some ' ' →
    (∃ c ∈ joiners, (old.take i).getLast? = some c) ∨ ∃ c ∈ joiners, old[i + 1]? = some c

theorem seamed_gapped {cs : List Char} (hne : cs ≠ []) (h : ∀ c ∈ cs, c ∈ joiners) :
    Seamed (gapped cs) := by
  induction cs with
  | nil => exact absurd rfl hne
  | cons c cs ih =>
    obtain ⟨hc, hcs⟩ := List.forall_mem_cons.1 h
    by_cases hnil : cs = []
    · subst hnil
      refine ⟨⟨c, hc, rfl⟩, ⟨c, hc, rfl⟩, fun i hi => ?_⟩
      have hblank : ' ' ∉ joiners := by decide
      have hmem : ' ' ∈ [c] := mem_of_getElem? hi
      exact absurd hc (List.mem_singleton.1 hmem ▸ hblank)
    · have hrest := ih hnil hcs
      rw [gapped_cons hnil]
      obtain ⟨d, hd, hdlast⟩ := hrest.last
      refine ⟨⟨c, hc, rfl⟩, ⟨d, hd, by simp [getLast?_cons, hdlast]⟩, fun i hi => ?_⟩
      -- the first blank follows `c`, the second one the rest, and the others are in the rest
      rcases i with _ | _ | _ | i
      · cases hi
        exact absurd hc (by decide)
      · exact .inl ⟨c, hc, rfl⟩
      · obtain ⟨e, he, hehead⟩ := hrest.head
        exact .inr ⟨e, he, by simpa [head?_eq_getElem?] using hehead⟩
      · refine (hrest.beside i (by simpa using hi)).imp ?_ ?_
        · rintro ⟨e, he, hlast⟩
          exact ⟨e, he, by simp [getLast?_cons, hlast]⟩
        · rintro ⟨e, he, hnext⟩
          exact ⟨e, he, by simpa using hnext⟩

namespace Seamed

variable {old new a b : List Char}

theorem ne_nil (h : Seamed old) : old ≠ [] := by
  obtain ⟨c, _, hc⟩ := h.head
  exact ne_nil_of_mem (mem_of_head? hc)

theorem not_prefix (h : Seamed old) (ha : Loose a) : ¬old <+: a := by
  rintro ⟨rest, rfl⟩
  obtain ⟨c, hc, hhead⟩ := h.head
  refine ha.head c ?_ hc
  rw [head?_append, hhead, Option.some_or]

theorem not_suffix (h : Seamed old) (ha : Loose a) : ¬old <:+ a := by
  rintro ⟨rest, rfl⟩
  obtain ⟨c, hc, hlast⟩ := h.last
  refine ha.last c ?_ hc
  rw [getLast?_append, hlast, Option.some_or]

/-- What is seamed does not stand at an end of a loose text, so the ends stay. -/
theorem loose_replace (h : Seamed old) (hnew : new ≠ []) (ha : Loose a) :
    Loose (Text.replace old new a) where
  head c hc := by
    rcases (replaced_replace h.ne_nil a).head hnew with heq | ⟨_, hp⟩
    · exact ha.head c (heq ▸ hc)
    · exact absurd hp (h.not_prefix ha)
  last c hc := by
    rcases (replaced_replace h.ne_nil a).last hnew with heq | ⟨_, hs⟩
    · exact ha.last c (heq ▸ hc)
    · exact absurd hs (h.not_suffix ha)

/-- Nothing seamed reaches over a blank between loose texts. -/
theorem parts (h : Seamed old) (ha : Loose a) (hb : Loose b) : Parts old a ' ' b := by
  intro a' ha' hp
  by_contra hlt
  have hlen : a'.length < old.length := by omega
  have hblank : old[a'.length]? = some ' ' := by
    rw [getElem_of_overlap hp _ hlen]
    simp
  have htake : old.take a'.length = a' := by
    obtain ⟨rest, hrest⟩ := hp
    have h := congrArg (take a'.length) hrest
    rw [take_append_of_le_length hlen.le] at h
    simpa using h
  rcases h.beside _ hblank with ⟨c, hc, hleft⟩ | ⟨c, hc, hright⟩
  · rw [htake] at hleft
    obtain ⟨front, rfl⟩ := ha'
    refine ha.last c ?_ hc
    rw [getLast?_append, hleft, Option.some_or]
  · have hlt' : a'.length + 1 < old.length := (List.getElem?_eq_some_iff.1 hright).1
    rw [getElem_of_overlap hp _ hlt', getElem?_append_right (by omega)] at hright
    refine hb.head c ?_ hc
    rw [head?_eq_getElem?]
    simpa using hright

end Seamed

theorem joins_joiners : ∀ cs ∈ joins, cs ≠ [] ∧ ∀ c ∈ cs, c ∈ joiners := by
  decide

theorem join_blank {ss : List (List Char)} (h : ∀ cs ∈ ss, cs ≠ [] ∧ ∀ c ∈ cs, c ∈ joiners)
    {a b : List Char} (ha : Loose a) (hb : Loose b) :
    join ss (a ++ ' ' :: b) = join ss a ++ ' ' :: join ss b := by
  induction ss generalizing a b with
  | nil => rfl
  | cons cs ss ih =>
    obtain ⟨⟨hne, hcs⟩, hss⟩ := List.forall_mem_cons.1 h
    have hseam := seamed_gapped hne hcs
    have hstep := ih hss (hseam.loose_replace hne ha) (hseam.loose_replace hne hb)
    rwa [← replace_parts hseam.ne_nil (hseam.parts ha hb)] at hstep

theorem mem_gapped {c : Char} {cs : List Char} (h : c ∈ gapped cs) : c = ' ' ∨ c ∈ cs := by
  fun_induction gapped cs with
  | case1 => cases h
  | case2 d => exact .inr h
  | case3 d cs _ ih => simp only [mem_cons] at h ⊢; tauto

/-- Joining is done apart on both sides of a character that is no blank and not joined to another.
-/
theorem join_apart {x : Char} (hblank : x ≠ ' ') (hjoin : x ∉ joiners) (a b : List Char) :
    join joins (a ++ x :: b) = join joins a ++ x :: join joins b := by
  refine replaceAll_parts (fun p hp => ?_) a b
  obtain ⟨cs, hcs, rfl⟩ := List.mem_map.1 hp
  obtain ⟨hne, hsub⟩ := joins_joiners cs hcs
  refine ⟨(seamed_gapped hne hsub).ne_nil, fun hmem => ?_⟩
  rcases mem_gapped hmem with heq | hin
  · exact hblank heq
  · exact hjoin (hsub x hin)

/-! ## The words of code -/

/-- What stands on the two sides of a blank is spread out apart. -/
theorem spread_blank (a b : List Char) : spread (a ++ ' ' :: b) = spread a ++ ' ' :: spread b := by
  rw [spread_eq_join, opened_blank, join_blank joins_joiners (loose_opened a) (loose_opened b),
    ← spread_eq_join, ← spread_eq_join]

/-- So the words of the two sides are found apart. -/
theorem codeWords_blank (a b : List Char) :
    codeWords (a ++ ' ' :: b) = codeWords a ++ codeWords b := by
  rw [codeWords, spread_blank, words_blank, map_append]
  rfl

theorem spread_separator {x : Char} (hx : x ∈ separators) (a b : List Char) :
    spread (a ++ x :: b) = spread a ++ ' ' :: x :: ' ' :: spread b := by
  have hlone : ∀ y ∈ separators, y ≠ ' ' ∧ y ∉ joiners := by decide
  obtain ⟨hblank, hjoin⟩ := hlone x hx
  have hmid : Loose (x :: ' ' :: opened b) := by
    have hone : Loose [x, ' '] := (loose_singleton hjoin).append (loose_singleton (by decide))
    exact hone.append (loose_opened b)
  have hnil : join joins [] = [] := rfl
  calc spread (a ++ x :: b)
      = join joins (opened a ++ ' ' :: (x :: ' ' :: opened b)) := by
        rw [spread_eq_join, opened_separator hx]
    _ = spread a ++ ' ' :: join joins ([] ++ x :: ([] ++ ' ' :: opened b)) := by
        rw [join_blank joins_joiners (loose_opened a) hmid, ← spread_eq_join,
          nil_append, nil_append]
    _ = spread a ++ ' ' :: x :: ' ' :: spread b := by
        rw [join_apart hblank hjoin, join_blank joins_joiners loose_nil (loose_opened b),
          ← spread_eq_join, hnil, nil_append, nil_append]

/-- A separator is a word of its own. -/
theorem codeWords_separator {x : Char} (hx : x ∈ separators) (a b : List Char) :
    codeWords (a ++ x :: b) = codeWords a ++ String.singleton x :: codeWords b := by
  have hword : ∀ y ∈ separators, isBlank y = false := by decide
  have hone : words [x] = [[x]] :=
    words_of_not_blank (cons_ne_nil _ _) (by simpa using hword x hx)
  have hsplit : spread (a ++ x :: b) = spread a ++ ' ' :: ([x] ++ ' ' :: spread b) :=
    spread_separator hx a b
  rw [codeWords, hsplit, words_blank, words_blank, hone, map_append, map_append]
  rfl

/-! ## Words without signs -/

/-- A character that is no blank, no sign and no part of one. -/
def isLetter (c : Char) : Bool :=
  !isBlank c && !signs.contains c && c != '&' && c != '|'

theorem isLetter_eq_true {c : Char} (h : isLetter c = true) :
    isBlank c = false ∧ c ∉ signs ∧ c ≠ '&' ∧ c ≠ '|' := by
  simpa [isLetter, and_assoc] using h

theorem words_of_letters {cs : List Char} (hne : cs ≠ []) (h : ∀ c ∈ cs, isLetter c = true) :
    words cs = [cs] :=
  words_of_not_blank hne fun c hc => (isLetter_eq_true (h c hc)).1

/-- Around a character that is neither a sign nor a space the two sides are spread out apart. -/
theorem spread_plain {x : Char} (hne : x ≠ ' ') (hsign : x ∉ signs) (hand : x ≠ '&') (hor : x ≠ '|')
    (a b : List Char) : spread (a ++ x :: b) = spread a ++ x :: spread b := by
  have hsub : ∀ y ∈ joiners, y ∈ signs := by decide
  have hpad : pad x = [x] := if_neg hsign
  have hopened : opened (a ++ x :: b) = opened a ++ x :: opened b := by
    rw [opened, flatMap_append, flatMap_cons, hpad, singleton_append, part_pairs_apart hand hor]
    rfl
  rw [spread_eq_join, hopened, join_apart hne (mt (hsub x) hsign), ← spread_eq_join,
    ← spread_eq_join]

theorem spread_letter {x : Char} (hx : isLetter x = true) (a b : List Char) :
    spread (a ++ x :: b) = spread a ++ x :: spread b := by
  obtain ⟨hblank, hsign, hand, hor⟩ := isLetter_eq_true hx
  have hne : x ≠ ' ' := by
    rintro rfl
    cases hblank
  exact spread_plain hne hsign hand hor a b

theorem spread_of_letters {cs : List Char} (h : ∀ c ∈ cs, isLetter c = true) : spread cs = cs := by
  have hnil : spread [] = [] := by rw [spread_eq_join]; rfl
  induction cs with
  | nil => exact hnil
  | cons c cs ih =>
    obtain ⟨hc, hcs⟩ := List.forall_mem_cons.1 h
    have hstep := spread_letter hc [] cs
    rwa [hnil, ih hcs] at hstep

/-- Letters in a row are one word. -/
theorem codeWords_of_letters {cs : List Char} (hne : cs ≠ []) (h : ∀ c ∈ cs, isLetter c = true) :
    codeWords cs = [String.ofList cs] := by
  rw [codeWords, spread_of_letters h, words_of_letters hne h]
  rfl

/-- A minus sign before letters is a word of its own. -/
theorem codeWords_minus {cs : List Char} (hne : cs ≠ []) (h : ∀ c ∈ cs, isLetter c = true) :
    codeWords ('-' :: cs) = ["-", String.ofList cs] := by
  have hminus : spread ['-'] = [' ', '-', ' '] := by rw [spread_eq_join]; rfl
  have hspread : spread ('-' :: cs) = [' ', '-'] ++ ' ' :: cs := by
    obtain ⟨d, ds, rfl⟩ := exists_cons_of_ne_nil hne
    obtain ⟨hd, hds⟩ := List.forall_mem_cons.1 h
    have hstep := spread_letter hd ['-'] ds
    rwa [hminus, spread_of_letters hds] at hstep
  rw [codeWords, hspread, words_blank, words_of_letters hne h]
  rfl

/-- Every symbol is one word. -/
theorem codeWords_symbol (y : Symbol) : codeWords y.text.toList = [y.text] := by
  rw [codeWords, spread_eq_join]
  cases y <;> decide +kernel

/-! ## What follows a sign -/

/-- Behind a sign there is a blank or another sign. -/
def Apart (a b : Char) : Prop :=
  a ∈ signs → b = ' ' ∨ b ∈ signs

theorem isChain_pad (c : Char) : (pad c).IsChain Apart ∧ ∀ d ∈ (pad c).getLast?, d ∉ signs := by
  unfold pad
  split
  · refine ⟨?_, by simp [padded, signs]⟩
    simp [padded, Apart, signs]
  · next hc => exact ⟨.singleton c, by simpa using hc⟩

theorem isChain_flatMap_pad (cs : List Char) : (cs.flatMap pad).IsChain Apart := by
  induction cs with
  | nil => exact .nil
  | cons c cs ih =>
    obtain ⟨hpad, hlast⟩ := isChain_pad c
    rw [flatMap_cons]
    exact List.isChain_append.2 ⟨hpad, ih, fun a ha b _ hsign => absurd hsign (hlast a ha)⟩

/-- Putting blanks around what has no signs keeps signs apart. -/
theorem isChain_replace_padded {word cs : List Char} (hne : word ≠ [])
    (hword : ∀ c ∈ word, c ∉ signs) (h : cs.IsChain Apart) :
    (Text.replace word (padded word) cs).IsChain Apart := by
  have hblank : ' ' ∉ signs := by decide
  have hpadded : ∀ c ∈ padded word, c ∉ signs := by
    intro c hc
    simp only [padded, cons_append, mem_cons, mem_append, not_mem_nil, or_false] at hc
    rcases hc with rfl | hc | rfl
    · exact hblank
    · exact hword c hc
    · exact hblank
  have hapart {a b : Char} (ha : a ∈ padded word) :
      Apart a b := fun hsign => absurd hsign (hpadded a ha)
  refine (replaced_replace hne cs).isChain hne (cons_ne_nil _ _) ?_ ?_ ?_ h
  · exact (pairwise_of_forall_mem_list fun a ha b _ => hapart ha).isChain
  · intro a b _ _ b' hb' _
    exact .inl (Option.some.inj hb').symm
  · intro c a _ _ a' ha'
    exact hapart (mem_of_getLast? ha')

theorem head_gapped (cs : List Char) : (gapped cs).head? = cs.head? := by
  fun_cases gapped cs <;> rfl

theorem getLast_gapped (cs : List Char) : (gapped cs).getLast? = cs.getLast? := by
  fun_induction gapped cs with
  | case1 => rfl
  | case2 c => rfl
  | case3 c cs hne ih =>
    obtain ⟨d, ds, rfl⟩ := exists_cons_of_ne_nil hne
    simp only [getLast?_cons, ih, Option.getD_some]

/-- Joining signs keeps them apart from what is none. -/
theorem isChain_join {ss : List (List Char)} (hss : ∀ word ∈ ss, word ≠ [] ∧ ∀ c ∈ word, c ∈ signs)
    {cs : List Char} (h : cs.IsChain Apart) : (join ss cs).IsChain Apart := by
  induction ss generalizing cs with
  | nil => exact h
  | cons word ss ih =>
    obtain ⟨⟨hne, hword⟩, hss⟩ := List.forall_mem_cons.1 hss
    have hgapped : gapped word ≠ [] := by
      intro hnil
      have hhead := head_gapped word
      rw [hnil] at hhead
      exact hne (List.head?_eq_none_iff.1 hhead.symm)
    refine ih hss ((replaced_replace hgapped cs).isChain hgapped hne ?_ ?_ ?_ h)
    · exact (pairwise_of_forall_mem_list fun _ _ b hb _ => .inr (hword b hb)).isChain
    · intro a b hb hab b' hb'
      rw [head_gapped, hb'] at hb
      cases hb
      exact hab
    · intro c a ha hac a' ha'
      rw [getLast_gapped, ha'] at ha
      cases ha
      exact hac

theorem isChain_spread (cs : List Char) : (spread cs).IsChain Apart := by
  have hpairs : ∀ word ∈ pairs, word ≠ [] ∧ ∀ c ∈ word, c ∉ signs := by decide
  have hjoins : ∀ word ∈ joins, word ≠ [] ∧ ∀ c ∈ word, c ∈ signs := by decide
  have hand := hpairs ['&', '&'] (by decide)
  have hor := hpairs ['|', '|'] (by decide)
  rw [spread_eq_join]
  refine isChain_join hjoins ?_
  exact isChain_replace_padded hor.1 hor.2
    (isChain_replace_padded hand.1 hand.2 (isChain_flatMap_pad cs))

/-- In a word a sign is followed by a sign or stands at the end. -/
theorem isChain_of_mem_codeWords {w : String} {cs : List Char} (h : w ∈ codeWords cs) :
    w.toList.IsChain fun a b => a ∈ signs → b ∈ signs := by
  obtain ⟨word, hword, rfl⟩ := List.mem_map.1 h
  obtain ⟨hpart, hblank⟩ := infix_of_mem_words hword
  have hchain := IsChain.infix (isChain_spread cs) hpart
  rw [String.toList_ofList]
  refine IsChain.imp_of_mem_imp (fun a b _ hb hab ha => ?_) hchain
  rcases hab ha with rfl | hsign
  · exact absurd (hblank ' ' hb) (by decide)
  · exact hsign

end Lexer

end LittleJ
