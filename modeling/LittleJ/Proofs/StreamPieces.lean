import LittleJ.Measure.Fingerprint
import LittleJ.Proofs.WholeNumber
import Mathlib.Data.List.Flatten

/-!
# What a fingerprint can tell apart

The stream that is digested for a fingerprint is made of *pieces*: a numeral for an integer, a
marked text for a string, and for a list a marked count before the pieces of its elements. As a row
of pieces a value can be read back, for a count says how many elements follow. But the pieces are
written one behind the other with nothing in between, so a reader of the stream does not see where a
piece ends.

**Two values with one stream are equal, or both are lists and their pieces end at different
places.** That happens: the numerals of `[1, 23]` and of `[12, 3]` run together to the same digits.
-/

namespace LittleJ.Measure.Fingerprint

open List Number

variable {c : Char} {d levels d' : Nat}

/-! ## Bytes of texts -/

theorem toList_loop (bs : ByteArray) (i : Nat) (acc : List UInt8) :
    ByteArray.toList.loop bs i acc = acc.reverse ++ bs.data.toList.drop i := by
  fun_induction ByteArray.toList.loop bs i acc with
  | case1 i acc hlt ih =>
    have hget : bs.get! i = bs.data.toList[i] := by
      rw [Array.getElem_toList]
      exact getElem!_pos bs.data i hlt
    have hlength : i < bs.data.toList.length := by simpa using hlt
    rw [ih, drop_eq_getElem_cons hlength, ← hget]
    simp
  | case2 i acc hge =>
    rw [drop_eq_nil_of_le (by simpa using Nat.le_of_not_lt hge), append_nil]

theorem textBytes_eq (s : String) : textBytes s = s.toByteArray.data.toList := by
  rw [textBytes, String.toUTF8, ByteArray.toList, toList_loop]
  rfl

theorem textBytes_inj {s t : String} : textBytes s = textBytes t ↔ s = t := by
  rw [textBytes_eq, textBytes_eq]
  constructor
  · intro h
    exact String.toByteArray_inj.1 (ByteArray.ext (Array.toList_inj.1 h))
  · rintro rfl
    rfl

/-- A text that starts with an ASCII character starts with its byte. -/
theorem head_textBytes {s : String} (hc : c.toNat < 128) (h : s.toList.head? = some c) :
    (textBytes s).head? = some c.toUInt8 := by
  obtain ⟨cs, hcs⟩ := List.head?_eq_some_iff.1 h
  have hsize : c.utf8Size = 1 := Char.utf8Size_eq_one_iff.2 (by
    show c.toNat ≤ 127
    omega)
  have hbytes : s.toByteArray =
      (String.utf8EncodeChar c ++ cs.flatMap String.utf8EncodeChar).toByteArray := by
    rw [← String.ofList_toList (s := s), hcs, String.toByteArray_ofList]
    rfl
  rw [textBytes_eq, hbytes, data_toByteArray, toList_toArray,
    String.utf8EncodeChar_eq_singleton hsize]
  rfl

/-- ASCII characters are told apart by their bytes. -/
theorem toUInt8_inj {d : Char} (hc : c.toNat < 128) (hd : d.toNat < 128)
    (h : c.toUInt8 = d.toUInt8) : c = d := by
  have hnat : c.toNat % 256 = d.toNat % 256 := congrArg UInt8.toNat h
  exact Char.toNat_inj.1 (by omega)

/-! ## Numerals -/

/-- A numeral starts with a sign or a digit. -/
theorem head_integerText (n : Int) (h : (integerText n).toList.head? = some c) :
    c = '-' ∨ Text.isDigit c = true := by
  rw [toList_integerText] at h
  split at h
  · exact .inl (Option.some.inj h).symm
  · exact .inr (isDigit_of_mem_digitsOf c (mem_of_head? h))

theorem integerText_inj {m n : Int} (h : integerText m = integerText n) : m = n := by
  have hlist : (integerText m).toList = (integerText n).toList := by rw [h]
  have hdigits {a b : Nat} (heq : digitsOf a = digitsOf b) : a = b := by
    rw [← valueOf_digitsOf a, heq, valueOf_digitsOf]
  -- a sign is no digit
  have hsign {a b : Nat} (heq : '-' :: digitsOf a = digitsOf b) : False := by
    have hminus := isDigit_of_mem_digitsOf (n := b) '-' (by rw [← heq]; exact mem_cons_self)
    exact absurd hminus (by decide)
  rw [toList_integerText, toList_integerText] at hlist
  by_cases hm : m < 0
  · by_cases hn : n < 0
    · rw [if_pos hm, if_pos hn] at hlist
      have habs := hdigits (cons.inj hlist).2
      omega
    · rw [if_pos hm, if_neg hn] at hlist
      exact (hsign hlist).elim
  · by_cases hn : n < 0
    · rw [if_neg hm, if_pos hn] at hlist
      exact (hsign hlist.symm).elim
    · rw [if_neg hm, if_neg hn] at hlist
      have habs := hdigits hlist
      omega

/-! ## Values and their pieces -/

/-- A value of integers, strings and lists, of lists at most `levels` deep, each short enough to be
written whole. -/
inductive Small : Nat → Datum → Prop where
  | int {levels : Nat} (n : Int) : Small levels (.int n)
  | str {levels : Nat} (s : String) : Small levels (.str s)
  | list {levels : Nat} {xs : List Datum} : xs.length ≤ longest → (∀ x ∈ xs, Small levels x) →
      Small (levels + 1) (.list xs)

/-- The text of the first piece of a value. -/
def mark : Datum → String
  | .list xs => "L" ++ integerText xs.length
  | .str s => "s" ++ s
  | v => v.print

mutual

/-- The pieces of a value: its mark and, for a list, the pieces of its elements. -/
def pieces (v : Datum) : List (List UInt8) :=
  textBytes (mark v) ::
    match v with
    | .list xs => piecesAll xs
    | _ => []

/-- The pieces of values, one behind the other. -/
def piecesAll : List Datum → List (List UInt8)
  | [] => []
  | x :: xs => pieces x ++ piecesAll xs

end

/-- The lengths of the pieces of a value, which say where each of them ends. -/
def cuts (v : Datum) : List Nat :=
  (pieces v).map length

/-- The stream of a small value is its pieces run together. -/
theorem stream_eq_flatten {depth : Nat} {v : Datum} (h : Small levels v)
    (hdepth : depth + levels ≤ deepest) :
    stream depth v = (pieces v).flatten := by
  induction h generalizing depth with
  | int n =>
    rw [stream.eq_def, if_neg (by omega), pieces.eq_def]
    simp [mark]
  | str s =>
    rw [stream.eq_def, if_neg (by omega), pieces.eq_def]
    simp [mark]
  | @list levels xs hlength hsmall ih =>
    have hitems (count : Nat) (hcount : xs.length ≤ count) :
        streamItems (depth + 1) count xs = (piecesAll xs).flatten := by
      clear hlength hsmall
      induction xs generalizing count with
      | nil => cases count <;> rfl
      | cons x xs ihxs =>
        rw [length_cons] at hcount
        obtain ⟨more, rfl⟩ : ∃ more, count = more + 1 := ⟨count - 1, by omega⟩
        have hx := ih x mem_cons_self (by omega : depth + 1 + levels ≤ deepest)
        have hxs := ihxs (fun y hy => ih y (mem_cons_of_mem _ hy)) more (by omega)
        rw [streamItems, hx, hxs, piecesAll, flatten_append]
    rw [stream.eq_def, if_neg (by omega), pieces.eq_def]
    simp [mark, opening, hitems _ hlength]

/-! ## Reading pieces back -/

theorem mark_int (n : Int) : mark (.int n) = integerText n := by
  rfl

/-- A mark starts with an ASCII character: the letter of a list or of a string, or what a numeral
starts with. -/
theorem head_mark {v : Datum} (h : Small levels v) : ∃ c, (mark v).toList.head? = some c ∧
    c.toNat < 128 ∧
      ((∃ xs, v = .list xs) ∧ c = 'L' ∨ (∃ s, v = .str s) ∧ c = 's' ∨ (∃ n, v = .int n) ∧ c ≠ 'L' ∧
        c ≠ 's') := by
  cases h with
  | list _ _ => exact ⟨'L', by simp [mark], by decide, .inl ⟨⟨_, rfl⟩, rfl⟩⟩
  | str s => exact ⟨'s', by simp [mark], by decide, .inr (.inl ⟨⟨s, rfl⟩, rfl⟩)⟩
  | int n =>
    obtain ⟨c, hc⟩ : ∃ c, (integerText n).toList.head? = some c := by
      rw [toList_integerText]
      split
      · exact ⟨'-', rfl⟩
      · exact ⟨_, head?_eq_some_head (digitsOf_ne_nil _)⟩
    have hstart := head_integerText n hc
    have hsmall : c.toNat < 128 := by
      rcases hstart with rfl | hdigit
      · decide
      · have hnine : c ≤ '9' := by simpa using (Bool.and_eq_true_iff.1 hdigit).2
        have hnat : c.toNat ≤ 57 := hnine
        omega
    refine ⟨c, mark_int n ▸ hc, hsmall, .inr (.inr ⟨⟨n, rfl⟩, ?_, ?_⟩)⟩ <;>
    · rintro rfl
      exact absurd hstart (by decide)

theorem isList_iff {v : Datum} (h : Small levels v) (hc : (mark v).toList.head? = some c) :
    (∃ xs, v = .list xs) ↔ c = 'L' := by
  obtain ⟨c', hc', -, hkind⟩ := head_mark h
  obtain rfl : c' = c := by
    rw [hc'] at hc
    exact Option.some.inj hc
  rcases hkind with ⟨hlist, hletter⟩ | ⟨⟨s, rfl⟩, rfl⟩ | ⟨⟨n, rfl⟩, hletter, -⟩
  · exact iff_of_true hlist hletter
  · exact iff_of_false (by simp) (by decide)
  · exact iff_of_false (by simp) hletter

/-- A mark is that of one value only, unless the value is a list; then it gives the length. -/
theorem mark_inj {u v : Datum} (hu : Small d u) (hv : Small d' v) (h : mark u = mark v) :
    u = v ∨ ∃ xs ys, u = .list xs ∧ v = .list ys ∧ xs.length = ys.length := by
  obtain ⟨c, hc, -, hkind⟩ := head_mark hu
  obtain ⟨c', hc', -, hkind'⟩ := head_mark hv
  obtain rfl : c' = c := by
    rw [h, hc'] at hc
    exact Option.some.inj hc
  rcases hkind with ⟨⟨xs, rfl⟩, rfl⟩ | ⟨⟨s, rfl⟩, rfl⟩ | ⟨⟨m, rfl⟩, hL, hs⟩ <;>
    rcases hkind' with ⟨⟨ys, rfl⟩, hletter⟩ | ⟨⟨t, rfl⟩, hletter⟩ | ⟨⟨n, rfl⟩, hL', hs'⟩
  · have hcount : integerText xs.length = integerText ys.length := by simpa [mark] using h
    exact .inr ⟨xs, ys, rfl, rfl, by exact_mod_cast integerText_inj hcount⟩
  · cases hletter
  · exact absurd rfl hL'
  · cases hletter
  · have htext : s = t := by simpa [mark] using h
    exact .inl (by rw [htext])
  · exact absurd rfl hs'
  · exact absurd hletter hL
  · exact absurd hletter hs
  · rw [mark_int, mark_int] at h
    exact .inl (by rw [integerText_inj h])

theorem first_piece {u v : Datum} (hu : Small d u) (hv : Small d' v) {a b : List (List UInt8)}
    (h : pieces u ++ a = pieces v ++ b) : u = v ∨ ∃ xs ys, u = .list xs ∧ v = .list ys ∧
    xs.length = ys.length := by
  rw [pieces.eq_def, pieces.eq_def] at h
  exact mark_inj hu hv (textBytes_inj.1 (cons.inj h).1)

/-- **From a row of pieces the value that it starts with can be read back.** -/
theorem pieces_append_inj {u v : Datum} (hu : Small d u) (hv : Small d' v) {a b : List (List UInt8)}
    (h : pieces u ++ a = pieces v ++ b) : u = v ∧ a = b := by
  induction hu generalizing d' v a b with
  | int n =>
    rcases first_piece (Small.int n : Small 0 _) hv h with rfl | ⟨_, _, heq, -⟩
    · exact ⟨rfl, append_cancel_left h⟩
    · cases heq
  | str s =>
    rcases first_piece (Small.str s : Small 0 _) hv h with rfl | ⟨_, _, heq, -⟩
    · exact ⟨rfl, append_cancel_left h⟩
    · cases heq
  | @list levels xs hlength hsmall ih =>
    rcases first_piece (.list hlength hsmall) hv h with rfl | ⟨_, ys, heq, rfl, hcount⟩
    · exact ⟨rfl, append_cancel_left h⟩
    obtain rfl := Datum.list.inj heq
    obtain ⟨e, hys⟩ : ∃ e, ∀ y ∈ ys, Small e y := by
      cases hv with
      | list _ hys => exact ⟨_, hys⟩
    -- the counts agree, so the elements can be read one after the other
    have hall : xs = ys ∧ a = b := by
      rw [pieces.eq_def, pieces.eq_def] at h
      have hrest : piecesAll xs ++ a = piecesAll ys ++ b := (cons.inj h).2
      clear h hlength hsmall hv heq
      induction xs generalizing ys with
      | nil =>
        obtain rfl := eq_nil_of_length_eq_zero hcount.symm
        exact ⟨rfl, hrest⟩
      | cons x xs ihxs =>
        obtain ⟨y, ys, rfl⟩ := exists_cons_of_length_eq_add_one hcount.symm
        rw [piecesAll, piecesAll, append_assoc, append_assoc] at hrest
        obtain ⟨hxy, hrest⟩ := ih x mem_cons_self (hys y mem_cons_self) hrest
        obtain ⟨hxys, hab⟩ := ihxs (fun z hz => ih z (mem_cons_of_mem _ hz)) ys
            (by simpa using hcount) (fun z hz => hys z (mem_cons_of_mem _ hz)) hrest
        exact ⟨by rw [hxy, hxys], hab⟩
    exact ⟨by rw [hall.1], hall.2⟩

theorem head_flatten {v : Datum} (hc : c.toNat < 128) (h : (mark v).toList.head? = some c) :
    (pieces v).flatten.head? = some c.toUInt8 := by
  rw [pieces.eq_def, flatten_cons, head?_append, head_textBytes hc h]
  rfl

/-- A value that is no list has one piece, its mark. -/
theorem flatten_of_not_list {v : Datum} (h : ∀ xs, v ≠ .list xs) :
    (pieces v).flatten = textBytes (mark v) := by
  rw [pieces.eq_def]
  split
  · exact absurd rfl (h _)
  · simp

/-- **A small value is determined by its stream and the places where its pieces end, and without
these places unless it is a list.** -/
theorem stream_tells_apart {u v : Datum} (hu : Small deepest u) (hv : Small deepest v) :
    (stream 0 u = stream 0 v ∧ cuts u = cuts v ↔ u = v) ∧
      (stream 0 u = stream 0 v → u ≠ v → ∃ xs ys, u = .list xs ∧ v = .list ys) := by
  rw [stream_eq_flatten hu (by omega), stream_eq_flatten hv (by omega)]
  refine ⟨⟨?_, ?_⟩, ?_⟩
  · rintro ⟨hstream, hcuts⟩
    have hpieces : pieces u = pieces v := List.eq_iff_flatten_eq.2 ⟨hstream, hcuts⟩
    exact (pieces_append_inj hu hv (congrArg (· ++ []) hpieces)).1
  · rintro rfl
    exact ⟨rfl, rfl⟩
  · intro hstream hne
    -- the first byte tells lists from other values
    obtain ⟨c, hc, hsmall, -⟩ := head_mark hu
    obtain ⟨c', hc', hsmall', -⟩ := head_mark hv
    obtain rfl : c = c' := by
      refine toUInt8_inj hsmall hsmall' (Option.some.inj ?_)
      rw [← head_flatten hsmall hc, ← head_flatten hsmall' hc', hstream]
    by_cases hletter : c = 'L'
    · obtain ⟨xs, hxs⟩ := (isList_iff hu hc).2 hletter
      obtain ⟨ys, hys⟩ := (isList_iff hv hc').2 hletter
      exact ⟨xs, ys, hxs, hys⟩
    · have hulist : ∀ xs, u ≠ .list xs := fun xs hxs => hletter ((isList_iff hu hc).1 ⟨xs, hxs⟩)
      have hvlist : ∀ ys, v ≠ .list ys := fun ys hys => hletter ((isList_iff hv hc').1 ⟨ys, hys⟩)
      rw [flatten_of_not_list hulist, flatten_of_not_list hvlist] at hstream
      rcases mark_inj hu hv (textBytes_inj.1 hstream) with heq | ⟨xs, _, hxs, _⟩
      · exact absurd heq hne
      · exact absurd hxs (hulist xs)

/-- Two lists of integers with one stream can only be cut at different places. -/
theorem stream_tells_apart_numerals :
    Small deepest (.list [.int 1, .int 23]) ∧ Small deepest (.list [.int 12, .int 3]) ∧
      stream 0 (.list [.int 1, .int 23]) = stream 0 (.list [.int 12, .int 3]) ∧
      cuts (.list [.int 1, .int 23]) ≠ cuts (.list [.int 12, .int 3]) := by
  have hpair (m n : Int) : Small deepest (.list [.int m, .int n]) :=
    .list (by simp [longest]) (by simp [Small.int])
  have hstream : stream 0 (.list [.int 1, .int 23]) = stream 0 (.list [.int 12, .int 3]) := by
    decide +kernel
  refine ⟨hpair 1 23, hpair 12 3, hstream, ?_⟩
  intro hcuts
  have heq := (stream_tells_apart (hpair 1 23) (hpair 12 3)).1.1 ⟨hstream, hcuts⟩
  simp at heq

/-- Numerals run together, and so do strings. -/
theorem stream_shared : stream 0 (.list [.int 1, .int 23]) = stream 0 (.list [.int 12, .int 3]) ∧
      stream 0 (.list [.str "a", .str "sb"]) = stream 0 (.list [.str "as", .str "b"]) := by
  decide +kernel

end LittleJ.Measure.Fingerprint
