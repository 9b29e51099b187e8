import LittleJ.Console

/-!
# What a console runs

The lines typed at a console fall into groups. A group ends at its first line that does not end in a
tab, and is one program: its lines, each behind a line break. The lines behind the last group, if
any, wait for a line that never came.

What a console does is a list of events. It asks for each line, with its own prompt at the start of
a group and with a dotted one inside, runs each group as soon as it is complete, and asks once more
before it meets the end of the input. Between two lines it keeps the prompt for the next one and the
text so far; `holding` says what these are after any number of lines of a group, and one line takes
one such state to the next.
-/

namespace LittleJ

open List

namespace Console

/-- The text is not empty and its last character is this one. -/
def EndsIn (c : Char) (s : String) : Prop :=
  s.toList.getLast? = some c

instance (c : Char) (s : String) : Decidable (EndsIn c s) :=
  inferInstanceAs (Decidable (_ = _))

theorem endsWith_eq_decide (c : Char) (s : String) :
    s.endsWith (String.ofList [c]) = decide (EndsIn c s) := by
  rw [Bool.eq_iff_iff, decide_eq_true_iff, String.endsWith_eq_endsWith_toSlice,
    String.Slice.endsWith_string_iff]
  rw [EndsIn, getLast?_eq_some_iff]
  simp [IsSuffix, eq_comm]

/-! ## Groups of lines -/

/-- Lines that end in a tab, and one behind them that does not. -/
@[ext]
structure Group where
  continued : List String
  last : String
  continued_tabbed : ∀ line ∈ continued, EndsIn '\t' line
  last_untabbed : ¬ EndsIn '\t' last

/-- The lines of a group. -/
def Group.lines (g : Group) : List String :=
  g.continued ++ [g.last]

/-- The lines are those of the groups, and behind these some that end in a tab each. -/
structure Grouped (lines : List String) (groups : List Group) (waiting : List String) : Prop where
  lines_eq : lines = groups.flatMap Group.lines ++ waiting
  waiting_tabbed : ∀ line ∈ waiting, EndsIn '\t' line

theorem exists_grouped (held lines : List String) (hheld : ∀ line ∈ held, EndsIn '\t' line) :
    ∃ groups waiting, Grouped (held ++ lines) groups waiting := by
  induction lines generalizing held with
  | nil => exact ⟨[], held, by simp, hheld⟩
  | cons line lines ih =>
    by_cases htab : EndsIn '\t' line
    · obtain ⟨groups, waiting, h⟩ :=
        ih (held ++ [line]) (by simpa [or_imp, forall_and] using ⟨hheld, htab⟩)
      exact ⟨groups, waiting, by simpa using h⟩
    · obtain ⟨groups, waiting, heq, hwaiting⟩ := ih [] (by simp)
      refine ⟨⟨held, line, hheld, htab⟩ :: groups, waiting, ?_, hwaiting⟩
      simp only [nil_append] at heq
      simp [Group.lines, heq]

/-- Where the first line without a tab stands is told by the lines alone. -/
theorem first_group_unique {g g' : Group} {lines lines' : List String}
    (h : g.lines ++ lines = g'.lines ++ lines') :
    g = g' ∧ lines = lines' := by
  have cut (g : Group) (lines : List String) :
      (g.lines ++ lines).takeWhile (decide <| EndsIn '\t' ·) = g.continued ∧
        (g.lines ++ lines).dropWhile (decide <| EndsIn '\t' ·) = g.last :: lines := by
    have hall : ∀ line ∈ g.continued, decide (EndsIn '\t' line) = true := by
      simpa using g.continued_tabbed
    have hlast := g.last_untabbed
    rw [Group.lines, append_assoc, takeWhile_append_of_pos hall, dropWhile_append_of_pos hall]
    simp [hlast]
  have hcontinued := (cut g lines).1.symm.trans (h ▸ (cut g' lines').1)
  have hlast := (cut g lines).2.symm.trans (h ▸ (cut g' lines').2)
  injection hlast with hlast hlines
  exact ⟨Group.ext hcontinued hlast, hlines⟩

theorem Grouped.unique {lines : List String} {groups groups' : List Group}
    {waiting waiting' : List String} (h : Grouped lines groups waiting)
    (h' : Grouped lines groups' waiting') :
    groups' = groups ∧ waiting' = waiting := by
  obtain ⟨rfl, hwaiting⟩ := h
  obtain ⟨heq, hwaiting'⟩ := h'
  induction groups generalizing groups' with
  | nil =>
    cases groups' with
    | nil => exact ⟨rfl, by simpa using heq.symm⟩
    | cons g groups' =>
      -- the last line of a group would be among the waiting ones
      have hmem : g.last ∈ waiting := by
        have : g.last ∈ [].flatMap Group.lines ++ waiting := by rw [heq]; simp [Group.lines]
        simpa using this
      exact absurd (hwaiting _ hmem) g.last_untabbed
  | cons g groups ih =>
    cases groups' with
    | nil =>
      have hmem : g.last ∈ waiting' := by
        have : g.last ∈ [].flatMap Group.lines ++ waiting' := by rw [← heq]; simp [Group.lines]
        simpa using this
      exact absurd (hwaiting' _ hmem) g.last_untabbed
    | cons g' groups' =>
      simp only [flatMap_cons, append_assoc] at heq
      obtain ⟨rfl, hrest⟩ := first_group_unique heq
      obtain ⟨rfl, rfl⟩ := ih hrest
      exact ⟨rfl, rfl⟩

/-! ## Events -/

/-- What a console does. -/
inductive Event where
  /-- Writes a prompt and takes a line. -/
  | ask (prompt : String)
  /-- Runs a program: the text, or the file that it is the name of. -/
  | program (text : String)
  /-- Ends the line of a prompt that was not answered. -/
  | close

/-- Lines as one text, a line break before each. -/
def joined (lines : List String) : String :=
  lines.foldl (fun text line => text ++ "\n" ++ line) ""

/-- The program that lines stand for. -/
def programOf (semify : Bool) (lines : List String) : String :=
  if semify = true ∧ ¬ EndsIn ';' (joined lines) ∧
    ¬ EndsIn '\x7d' (joined lines) then joined lines ++ ";"
  else joined lines

/-- The prompt for the line behind some lines of a group. -/
def promptAt (c : Console) (n : Nat) : String :=
  if n = 0 then c.prompt else String.ofList (replicate (c.prompt.length - 1) '.') ++ " "

/-- Asking for some lines of a group, behind others. -/
def asks (c : Console) (held count : Nat) : List Event :=
  (range' held count).map fun n => .ask (c.promptAt n)

/-- What is done for lines that fall into groups. -/
def events (c : Console) (groups : List Group) (waiting : List String) : List Event :=
  groups.flatMap (fun g => c.asks 0 g.lines.length ++ [.program (programOf c.semify g.lines)]) ++
    c.asks 0 (waiting.length + 1) ++ [.close]

/-- Does what an event says. -/
def perform (c : Console) : Event → Eval Unit
  | .ask prompt => modify (·.write prompt)
  | .program text => c.interpreter.run c.budget c.files (.text text) true
  | .close => modify (·.write "\n")

/-- Does what events say, one after the other. A failure that no program catches is the end. -/
def performAll (c : Console) (events : List Event) : Eval Unit :=
  events.forM c.perform

theorem performAll_append (c : Console) (before behind : List Event) :
    c.performAll (before ++ behind) = (do c.performAll before; c.performAll behind) :=
  forM_append

theorem performAll_cons (c : Console) (event : Event) (events : List Event) :
    c.performAll (event :: events) = (do c.perform event; c.performAll events) :=
  forM_cons

theorem performAll_singleton (c : Console) (event : Event) :
    c.performAll [event] = c.perform event := by
  simp [performAll]

theorem asks_succ (c : Console) (held count : Nat) :
    c.asks held (count + 1) = .ask (c.promptAt held) :: c.asks (held + 1) count := by
  simp [asks, range'_succ]

/-! ## One line -/

/-- The state in which the lines of a group typed so far are kept. -/
def holding (c : Console) (held : List String) : State :=
  ⟨c.promptAt held.length, joined held⟩

theorem joined_snoc (held : List String) (line : String) :
    joined (held ++ [line]) = joined held ++ "\n" ++ line := by
  simp [joined]

theorem ready_eq_holding (c : Console) : c.ready = c.holding [] := by
  rfl

/-- However often it is dotted, a prompt has the length that it had. -/
theorem continued_promptAt (c : Console) (n : Nat) :
    continued (c.promptAt n) = c.promptAt (n + 1) := by
  have hblank : " ".length = 1 := rfl
  cases n with
  | zero => simp [continued, promptAt, String.ofList_append]
  | succ n => simp [continued, promptAt, String.ofList_append, hblank]

theorem endsWith_tab (held : List String) (line : String) :
    (joined held ++ "\n" ++ line).endsWith "\t" = decide (EndsIn '\t' line) := by
  rw [show "\t" = String.ofList ['\t'] from rfl, endsWith_eq_decide, decide_eq_decide]
  cases h : line.toList.getLast? with
  | none =>
    simp only [getLast?_eq_none_iff] at h
    simp [EndsIn, h]
  | some c => simp [EndsIn, h, getLast?_append, getLast?_cons]

theorem finished_joined (semify : Bool) (lines : List String) :
    finished semify (joined lines) = programOf semify lines := by
  have hsemi : (joined lines).endsWith ";" = decide (EndsIn ';' (joined lines)) :=
    endsWith_eq_decide ';' _
  have hbrace : (joined lines).endsWith "\x7d" = decide (EndsIn '\x7d' (joined lines)) :=
    endsWith_eq_decide '\x7d' _
  simp [finished, programOf, hsemi, hbrace]

/-- A line with a tab at its end is kept. -/
theorem feed_tabbed (c : Console) (held : List String) {line : String} (h : EndsIn '\t' line) :
    c.feed (c.holding held) line = pure (c.holding (held ++ [line])) := by
  simp only [feed, holding, endsWith_tab, h, decide_true, if_true]
  rw [continued_promptAt, joined_snoc, length_append, length_singleton]

/-- Any other line completes its group. -/
theorem feed_untabbed (c : Console) (held : List String) {line : String} (h : ¬ EndsIn '\t' line) :
    c.feed (c.holding held) line =
      (do c.perform (.program (programOf c.semify (held ++ [line]))); return c.holding []) := by
  simp only [feed, holding, endsWith_tab, h, decide_false, Bool.false_eq_true, if_false]
  rw [← joined_snoc, finished_joined]
  rfl

/-! ## All lines -/

theorem write_append (a b : String) :
    (modify (·.write (a ++ b)) : Eval Unit) = (do modify (·.write a); modify (·.write b)) := by
  funext σ
  change EStateM.Result.ok () _ = EStateM.Result.ok () _
  simp [Store.write, String.append_assoc]

/-- Lines that complete no group are asked for and kept. -/
theorem feedAll_waiting (c : Console) (held : List String) {waiting : List String}
    (h : ∀ line ∈ waiting, EndsIn '\t' line) :
    c.feedAll (c.holding held) waiting =
      c.performAll (c.asks held.length (waiting.length + 1) ++ [.close]) := by
  induction waiting generalizing held with
  | nil =>
    simp only [asks_succ, cons_append, performAll_cons, length_nil]
    rw [feedAll, write_append]
    rfl
  | cons line waiting ih =>
    rw [feedAll, feed_tabbed c held (h line (by simp)), pure_bind,
      ih _ (fun l hl => h l (by simp [hl]))]
    rw [length_cons, asks_succ, cons_append, performAll_cons, length_append, length_singleton]
    rfl

/-- A group is asked for line by line and then run. -/
theorem feedAll_group (c : Console) (held : List String) {more : List String} {last : String}
    (lines : List String) (hmore : ∀ line ∈ more, EndsIn '\t' line) (hlast : ¬ EndsIn '\t' last) :
    c.feedAll (c.holding held) (more ++ last :: lines) = (do
      c.performAll (c.asks held.length (more.length + 1) ++
        [.program (programOf c.semify (held ++ more ++ [last]))])
      c.feedAll (c.holding []) lines) := by
  induction more generalizing held with
  | nil =>
    rw [nil_append, feedAll, feed_untabbed c held hlast]
    simp only [asks_succ, cons_append, performAll_cons, bind_assoc, pure_bind]
    simp [asks, performAll_singleton, perform, holding]
  | cons line more ih =>
    rw [cons_append, feedAll, feed_tabbed c held (hmore line (by simp)), pure_bind,
      ih _ (fun l hl => hmore l (by simp [hl]))]
    rw [length_cons, asks_succ, cons_append, performAll_cons, length_append, length_singleton,
      append_assoc held]
    simp only [bind_assoc]
    rfl

theorem feedAll_grouped (c : Console) (groups : List Group) {waiting : List String}
    (h : ∀ line ∈ waiting, EndsIn '\t' line) :
    c.feedAll (c.holding []) (groups.flatMap Group.lines ++ waiting) =
      c.performAll (c.events groups waiting) := by
  induction groups with
  | nil => simpa [events] using feedAll_waiting c [] h
  | cons g groups ih =>
    have hgroup := feedAll_group c [] (groups.flatMap Group.lines ++ waiting) g.continued_tabbed
        g.last_untabbed
    rw [ih, ← performAll_append] at hgroup
    simpa [events, Group.lines] using hgroup

/-- **A console runs what was typed.** Lines fall into groups in one way. The console asks for the
lines one by one, runs the program of each group once it has been asked for, and runs nothing else:
lines that wait for the end of their group are asked for only. A failure that no program catches
ends the console where it is met, with nothing done behind it. -/
theorem run_eq_performAll_events (c : Console) (lines : List String) :
    ∃ groups waiting, Grouped lines groups waiting ∧
      (∀ groups' waiting', Grouped lines groups' waiting' → groups' = groups ∧ waiting' = waiting) ∧
      c.run lines = c.performAll (c.events groups waiting) ∧
      ∀ before behind, c.events groups waiting = before ++ behind →
        ∀ σ e ρ, c.performAll before σ = .error e ρ → c.run lines σ = .error e ρ := by
  obtain ⟨groups, waiting, h⟩ := exists_grouped [] lines (by simp)
  have hrun : c.run lines = c.performAll (c.events groups waiting) := by
    obtain ⟨heq, hwaiting⟩ := h
    rw [run, ready_eq_holding, ← feedAll_grouped c groups hwaiting, ← heq, nil_append]
  refine ⟨groups, waiting, h, fun _ _ => h.unique, hrun, fun before behind hsplit σ e ρ hfail => ?_⟩
  rw [hrun, hsplit, performAll_append]
  change EStateM.bind _ _ _ = _
  simp only [EStateM.bind, hfail]

end Console

end LittleJ
