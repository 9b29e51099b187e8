import LittleJ.Code
import Mathlib.Data.List.Basic

/-!
# Code in its places

Putting code into memory uses new places only, each for one expression, and the code reads back as
what was put there. The lists inside a function literal lie below the list that the literal is in,
so reading comes to an end.

Some places are *kept*: nothing is written there any more. Memory is *sound* if the statements of
every literal lie in kept places. Then what kept code reads as stays the same, whatever is written
elsewhere and however much is added.
-/

namespace LittleJ

open Live

/-! ## Places -/

namespace Live

mutual

/-- The places of a statement's expressions and of those in its blocks. The code of a loop, which is
not run where it is, counts only if `deep` says so. -/
def places (deep : Bool) : Live → List Nat
  | .init _ k => [k]
  | .assign target k => [target, k]
  | .ladder arms => armPlaces deep arms
  | .loop k code => k :: if deep then blockPlaces deep code else []
  | .ret k => [k]
  | .brk => []
  | .exp k => [k]

def blockPlaces (deep : Bool) : List Live → List Nat
  | [] => []
  | s :: rest => places deep s ++ blockPlaces deep rest

def armPlaces (deep : Bool) : List (Nat × List Live) → List Nat
  | [] => []
  | (k, code) :: arms => k :: (blockPlaces deep code ++ armPlaces deep arms)

end

mutual

/-- The code of the loops that a statement may come to where it is. -/
def loops : Live → List (List Live)
  | .ladder arms => armLoops arms
  | .loop _ code => [code]
  | _ => []

def blockLoops : List Live → List (List Live)
  | [] => []
  | s :: rest => loops s ++ blockLoops rest

def armLoops : List (Nat × List Live) → List (List Live)
  | [] => []
  | (_, code) :: arms => blockLoops code ++ armLoops arms

end

/-- All places of some code. -/
abbrev allPlaces (b : List Live) : List Nat :=
  blockPlaces true b

/-- All of some code lies in places as `kept` says. -/
def LiesIn (kept : Nat → Prop) (b : List Live) : Prop :=
  ∀ k ∈ allPlaces b, kept k

/-- The places in the literals among some items. -/
def Item.places (ws : List Item) : List Nat :=
  ws.flatMap fun
    | .token _ => []
    | .literal f => allPlaces f.body

theorem Item.places_append (ws ws' : List Item) :
    Item.places (ws ++ ws') = Item.places ws ++ Item.places ws' :=
  List.flatMap_append

theorem Item.mem_places {ws : List Item} {f : Literal} (hf : .literal f ∈ ws) {j : Nat}
    (hj : j ∈ allPlaces f.body) : j ∈ Item.places ws :=
  List.mem_flatMap.2 ⟨_, hf, hj⟩

@[simp] theorem blockPlaces_append (deep : Bool) (b b' : List Live) :
    blockPlaces deep (b ++ b') = blockPlaces deep b ++ blockPlaces deep b' := by
  induction b with
  | nil => rfl
  | cons s b ih => simp [blockPlaces, ih]

@[simp] theorem blockLoops_append (b b' : List Live) :
    blockLoops (b ++ b') = blockLoops b ++ blockLoops b' := by
  induction b with
  | nil => rfl
  | cons s b ih => simp [blockLoops, ih]

theorem program_append (read : Nat → Expr) (b b' : List Live) :
    program read (b ++ b') = program read b ++ program read b' := by
  induction b with
  | nil => rfl
  | cons s b ih => simp [program, ih]

theorem length_program (read : Nat → Expr) (b : List Live) :
    (program read b).length = b.length := by
  induction b with
  | nil => rfl
  | cons s b ih => exact congrArg (· + 1) ih

/-! Every place of some code is one of an expression that is run there, or lies in a loop. -/

open List in
mutual

theorem places_perm (s : Live) :
    places true s ~ places false s ++ (loops s).flatMap allPlaces := by
  cases s with
  | ladder arms => exact armPlaces_perm arms
  | loop k code => simp [places, loops]
  | _ => simp [places, loops]

theorem blockPlaces_perm : ∀ b : List Live,
    blockPlaces true b ~ blockPlaces false b ++ (blockLoops b).flatMap allPlaces
  | [] => .refl _
  | s :: rest => by
    simp only [blockPlaces, blockLoops, flatMap_append]
    refine ((places_perm s).append (blockPlaces_perm rest)).trans ?_
    simp only [append_assoc]
    exact .append_left _ (perm_append_comm_assoc _ _ _)

theorem armPlaces_perm : ∀ arms : List (Nat × List Live),
    armPlaces true arms ~ armPlaces false arms ++ (armLoops arms).flatMap allPlaces
  | [] => .refl _
  | (k, code) :: arms => by
    simp only [armPlaces, armLoops, flatMap_append, cons_append]
    refine .cons _ (((blockPlaces_perm code).append (armPlaces_perm arms)).trans ?_)
    simp only [append_assoc]
    exact .append_left _ (perm_append_comm_assoc _ _ _)

end

/-! What code reads as depends on the lists at its places only. -/

mutual

theorem stmt_congr {read read' : Nat → Expr} (s : Live)
    (h : ∀ k ∈ places true s, read k = read' k) : stmt read s = stmt read' s := by
  cases s with
  | ladder arms => exact congrArg Stmt.ladder (armsOf_congr arms h)
  | loop k code =>
    simp only [places, if_true, List.forall_mem_cons] at h
    simp only [stmt, h.1, program_congr code h.2]
  | brk => rfl
  | _ => simp_all [places, stmt]

theorem program_congr {read read' : Nat → Expr} : ∀ b : List Live,
    (∀ k ∈ allPlaces b, read k = read' k) → program read b = program read' b
  | [], _ => rfl
  | s :: rest, h => by
    simp only [blockPlaces, List.forall_mem_append] at h
    simp only [program, stmt_congr s h.1, program_congr rest h.2]

theorem armsOf_congr {read read' : Nat → Expr} : ∀ arms : List (Nat × List Live),
    (∀ k ∈ armPlaces true arms, read k = read' k) → armsOf read arms = armsOf read' arms
  | [], _ => rfl
  | (k, code) :: arms, h => by
    simp only [armPlaces, List.forall_mem_cons, List.forall_mem_append] at h
    simp only [armsOf, h.1, program_congr code h.2.1, armsOf_congr arms h.2.2]

end

theorem Item.read_congr {read read' : Nat → Expr} {ws : List Item}
    (h : ∀ k ∈ Item.places ws, read k = read' k) :
    ws.map (Item.read read) = ws.map (Item.read read') := by
  refine List.map_congr_left fun w hw => ?_
  cases w with
  | token t => rfl
  | literal f =>
    simp only [Item.read, program_congr f.body fun k hk => h k (Item.mem_places hw hk)]

end Live

/-! ## Putting code into memory -/

namespace Code

variable {c c' c'' : Code} {P Q : List Nat} {v w : (Nat → Expr) → Prop}

/-- What was put into memory after `c`, up to `c'`: the expressions at the places `P`, which read as
`view` says. Function literals have their statements in new places too, not among `P`. -/
structure Added (c c' : Code) (P : List Nat) (view : (Nat → Expr) → Prop) : Prop where
  size : c.lists.size ≤ c'.lists.size
  list : ∀ k < c.lists.size, c'.list k = c.list k
  bodies : c'.bodies = c.bodies
  begun : c'.begun = c.begun
  nodup : P.Nodup
  bounds : ∀ k ∈ P, c.lists.size ≤ k ∧ k < c'.lists.size
  nested : ∀ k, c.lists.size ≤ k → ∀ j ∈ Item.places (c'.list k), c.lists.size ≤ j ∧ j < k ∧ j ∉ P
  plain : ∀ k, c.lists.size ≤ k → ∀ f, .token (.func f) ∉ c'.list k
  view : ∀ (d : Nat) (e : Code), c'.lists.size ≤ d → (∀ k < c'.lists.size, e.list k = c'.list k) →
    view (e.expr d)

theorem list_of_size_le {k : Nat} (h : c.lists.size ≤ k) : c.list k = [] := by
  simp [Code.list, Array.getD_eq_getD_getElem?, h]

theorem expr_succ (c : Code) (d k : Nat) :
    c.expr (d + 1) k = (c.list k).map (Item.read (c.expr d)) := rfl

theorem list_newList (ws : List Item) (c : Code) (k : Nat) :
    (c.newList ws).2.list k = if k = c.lists.size then ws else c.list k := by
  simp only [Code.list, newList, Array.getD_eq_getD_getElem?, Array.getElem?_push]
  split <;> rfl

theorem list_modifyList (c : Code) (k : Nat) (f : List Item → List Item) (j : Nat) :
    (c.modifyList k f).list j =
      if j = k ∧ k < c.lists.size then f (c.list k) else c.list j := by
  simp only [Code.list, modifyList, Array.getD_eq_getD_getElem?, Array.getElem?_modify]
  by_cases hj : k = j
  · subst hj
    by_cases hk : k < c.lists.size
    · simp [hk]
    · simp [hk]
  · simp [hj, Ne.symm hj]

namespace Added

theorem nothing (h : ∀ read, v read) : Added c c [] v where
  size := Nat.le_refl _
  list _ _ := rfl
  bodies := rfl
  begun := rfl
  nodup := .nil
  bounds := by simp
  nested k hk := by simp [list_of_size_le hk, Item.places]
  plain k hk := by simp [list_of_size_le hk]
  view _ _ _ _ := h _

theorem mono (h : Added c c' P v) (hP : Q = P) (hv : ∀ read, v read → w read) : Added c c' Q w := by
  subst hP
  exact { h with view := fun d e hd he => hv _ (h.view d e hd he) }

theorem seq (h : Added c c' P v) (h' : Added c' c'' Q w) :
    Added c c'' (P ++ Q) fun read => v read ∧ w read where
  size := Nat.le_trans h.size h'.size
  list k hk := (h'.list k (Nat.lt_of_lt_of_le hk h.size)).trans (h.list k hk)
  bodies := h'.bodies.trans h.bodies
  begun := h'.begun.trans h.begun
  nodup := by
    refine List.nodup_append.2 ⟨h.nodup, h'.nodup, fun k hk j hj hkj => ?_⟩
    exact absurd (hkj ▸ (h.bounds k hk).2) (Nat.not_lt.2 (h'.bounds j hj).1)
  bounds k hk := by
    rcases List.mem_append.1 hk with hk | hk
    · exact ⟨(h.bounds k hk).1, Nat.lt_of_lt_of_le (h.bounds k hk).2 h'.size⟩
    · exact ⟨Nat.le_trans h.size (h'.bounds k hk).1, (h'.bounds k hk).2⟩
  nested k hk j hj := by
    by_cases hk' : k < c'.lists.size
    · rw [h'.list k hk'] at hj
      obtain ⟨hle, hlt, hmem⟩ := h.nested k hk j hj
      refine ⟨hle, hlt, fun hj' => ?_⟩
      rcases List.mem_append.1 hj' with hj' | hj'
      · exact hmem hj'
      · have := (h'.bounds j hj').1
        omega
    · obtain ⟨hle, hlt, hmem⟩ := h'.nested k (Nat.not_lt.1 hk') j hj
      refine ⟨Nat.le_trans h.size hle, hlt, fun hj' => ?_⟩
      rcases List.mem_append.1 hj' with hj' | hj'
      · exact absurd (h.bounds j hj').2 (Nat.not_lt.2 hle)
      · exact hmem hj'
  plain k hk := by
    by_cases hk' : k < c'.lists.size
    · rw [h'.list k hk']
      exact h.plain k hk
    · exact h'.plain k (Nat.not_lt.1 hk')
  view d e hd he := by
    refine ⟨h.view d e (Nat.le_trans h'.size hd) fun k hk => ?_, h'.view d e hd he⟩
    exact (he k (Nat.lt_of_lt_of_le hk h'.size)).trans (h'.list k hk)

/-- Items that were put into memory become a list. -/
theorem newList {ws : List Item} {ts : Expr}
    (h : Added c c' (Item.places ws) fun read => ws.map (Item.read read) = ts)
    (hws : ∀ f, .token (.func f) ∉ ws) : Added c (c'.newList ws).2 [c'.lists.size] fun read =>
    read c'.lists.size = ts where
  size := by simpa [Code.newList] using Nat.le_succ_of_le h.size
  list k hk := by
    rw [list_newList, if_neg (by have := h.size; omega), h.list k hk]
  bodies := h.bodies
  begun := h.begun
  nodup := by simp
  bounds := by simpa [Code.newList] using h.size
  nested k hk j hj := by
    rw [list_newList] at hj
    split at hj
    · rename_i hk'
      obtain ⟨hle, hlt⟩ := h.bounds j hj
      exact ⟨hle, by omega, by simp; omega⟩
    · obtain ⟨hle, hlt, _⟩ := h.nested k hk j hj
      refine ⟨hle, hlt, ?_⟩
      have : k < c'.lists.size := by
        by_contra hk'
        simp [list_of_size_le (Nat.not_lt.1 hk'), Item.places] at hj
      simp
      omega
  plain k hk := by
    rw [list_newList]
    split
    · exact hws
    · exact h.plain k hk
  view d e hd he := by
    simp only [Code.newList, Array.size_push] at hd he
    obtain ⟨d, rfl⟩ : ∃ m, d = m + 1 := ⟨d - 1, by omega⟩
    have hlist := he c'.lists.size (Nat.lt_succ_self _)
    rw [expr_succ, hlist]
    have hws : ({ c' with lists := c'.lists.push ws } : Code).list c'.lists.size = ws := by
      simp [Code.list, Array.getD_eq_getD_getElem?]
    rw [hws]
    refine h.view d e (by omega) fun k hk => (he k (Nat.lt_succ_of_lt hk)).trans ?_
    exact (list_newList ws c' k).trans (if_neg (Nat.ne_of_lt hk))

end Added

/-- Function literals are put into memory as such, never as tokens. -/
theorem plain_loadTokens (ts : List Token) (c : Code) (f : Function) :
    .token (.func f) ∉ (loadTokens ts c).1 := by
  induction ts generalizing c with
  | nil => exact List.not_mem_nil
  | cons t ts ih =>
    have hrest := ih (loadToken t c).2
    cases t with
    | _ => exact List.not_mem_cons_of_ne_of_not_mem (by simp) hrest

/-! Each step of putting code into memory adds what it should. The recursion is that of the code. -/

mutual

theorem added_loadToken (t : Token) (c : Code) :
    Added c (loadToken t c).2 (Item.places [(loadToken t c).1])
      fun read => Item.read read (loadToken t c).1 = t := by
  cases t with
  | func f => exact added_loadFunction f c
  | _ => exact .nothing fun _ => rfl

theorem added_loadFunction (f : Function) (c : Code) :
    Added c (loadFunction f c).2 (Item.places [.literal (loadFunction f c).1])
      fun read => Item.read read (.literal (loadFunction f c).1) = .func f := by
  cases f with
  | mk params body source =>
    refine (added_load body c).mono (List.append_nil _) fun read h => ?_
    exact congrArg (fun b => Token.func (.mk params b source)) h

theorem added_loadTokens (ts : List Token) (c : Code) :
    Added c (loadTokens ts c).2 (Item.places (loadTokens ts c).1)
      fun read => (loadTokens ts c).1.map (Item.read read) = ts := by
  cases ts with
  | nil => exact .nothing fun _ => rfl
  | cons t ts =>
    refine ((added_loadToken t c).seq (added_loadTokens ts _)).mono ?_ fun read h => ?_
    · exact Item.places_append [_] _
    · exact congrArg₂ List.cons h.1 h.2

theorem added_list (ts : List Token) (c : Code) :
    Added c (newList (loadTokens ts c).1 (loadTokens ts c).2).2 [(loadTokens ts c).2.lists.size]
      fun read => read (loadTokens ts c).2.lists.size = ts :=
  (added_loadTokens ts c).newList (plain_loadTokens ts c)

theorem added_loadStmt (s : Stmt) (c : Code) :
    Added c (loadStmt s c).2 (places true (loadStmt s c).1)
      fun read => stmt read (loadStmt s c).1 = s := by
  cases s with
  | init name e => exact (added_list e c).mono rfl fun _ => congrArg (Stmt.init name)
  | assign target e =>
    refine ((added_list target c).seq (added_list e _)).mono rfl fun _ h => ?_
    exact congrArg₂ Stmt.assign h.1 h.2
  | ladder arms => exact (added_loadArms arms c).mono rfl fun _ => congrArg Stmt.ladder
  | loop condition code =>
    refine ((added_list condition c).seq (added_load code _)).mono rfl fun _ h => ?_
    exact congrArg₂ Stmt.loop h.1 h.2
  | ret e => exact (added_list e c).mono rfl fun _ => congrArg Stmt.ret
  | brk => exact .nothing fun _ => rfl
  | exp e => exact (added_list e c).mono rfl fun _ => congrArg Stmt.exp

theorem added_load (p : List Stmt) (c : Code) :
    Added c (load p c).2 (allPlaces (load p c).1) fun read => program read (load p c).1 = p := by
  cases p with
  | nil => exact .nothing fun _ => rfl
  | cons s rest =>
    refine ((added_loadStmt s c).seq (added_load rest _)).mono rfl fun _ h => ?_
    exact congrArg₂ List.cons h.1 h.2

theorem added_loadArms (arms : List (List Token × List Stmt)) (c : Code) :
    Added c (loadArms arms c).2 (armPlaces true (loadArms arms c).1)
      fun read => armsOf read (loadArms arms c).1 = arms := by
  cases arms with
  | nil => exact .nothing fun _ => rfl
  | cons arm arms =>
    cases arm with
    | mk condition code =>
      refine ((added_list condition c).seq ((added_load code _).seq (added_loadArms arms _))).mono
        rfl fun _ h => ?_
      exact congrArg₂ List.cons (congrArg₂ Prod.mk h.1 h.2.1) h.2.2

end

/-! ## Kept places -/

variable {kept kept' : Nat → Prop} {k : Nat}

/-- What the list at a place reads as. -/
def text (c : Code) (k : Nat) : Expr :=
  c.expr c.lists.size k

theorem read_eq (c : Code) (b : List Live) : c.read b = program c.text b := rfl

/-- The statements of every literal lie in kept places, below the list that the literal is in. -/
structure Sound (c : Code) (kept : Nat → Prop) : Prop where
  lt : ∀ k, kept k → k < c.lists.size
  nested : ∀ k, ∀ j ∈ Item.places (c.list k), kept j ∧ j < k
  plain : ∀ k f, .token (.func f) ∉ c.list k

/-- Reading a list needs no more depth than the place of the list. -/
theorem Sound.expr_eq (hc : c.Sound kept) {d d' k : Nat} (hd : k < d) (hd' : k < d') :
    c.expr d k = c.expr d' k := by
  induction k using Nat.strongRecOn generalizing d d' with
  | ind k ih =>
    obtain ⟨d, rfl⟩ : ∃ m, d = m + 1 := ⟨d - 1, by omega⟩
    obtain ⟨d', rfl⟩ : ∃ m, d' = m + 1 := ⟨d' - 1, by omega⟩
    rw [expr_succ, expr_succ]
    refine Item.read_congr fun j hj => ?_
    have hlt := (hc.nested k j hj).2
    exact ih j hlt (by omega) (by omega)

theorem Sound.text_eq (hc : c.Sound kept) (k : Nat) :
    c.text k = (c.list k).map (Item.read c.text) := by
  by_cases hk : k < c.lists.size
  · rw [text, hc.expr_eq hk (Nat.lt_succ_of_lt hk), expr_succ]
    rfl
  · have hlist := list_of_size_le (Nat.not_lt.1 hk)
    unfold text
    cases c.lists.size with
    | zero => simp [hlist, expr]
    | succ n => simp [hlist, expr]

/-- Memory has changed from `c` to `c'`: kept lists are the same, and in the others there can be
tokens only that were not there before. More places may be kept, but none that were in use. -/
structure Later (kept : Nat → Prop) (c : Code) (kept' : Nat → Prop) (c' : Code) : Prop where
  sound : c.Sound kept
  sound' : c'.Sound kept'
  size : c.lists.size ≤ c'.lists.size
  still : ∀ k, kept k → kept' k
  fresh : ∀ k, kept' k → k < c.lists.size → kept k
  same : ∀ k, kept k → c'.list k = c.list k
  items : ∀ k < c.lists.size, ∀ w ∈ c'.list k, w ∈ c.list k ∨ ∃ t, w = .token t

namespace Later

theorem expr (h : Later kept c kept' c') (hk : kept k) (d : Nat) : c'.expr d k = c.expr d k := by
  induction d generalizing k with
  | zero => rfl
  | succ d ih =>
    rw [expr_succ, expr_succ, h.same k hk]
    exact Item.read_congr fun j hj => ih (h.sound.nested k j hj).1

/-- Kept lists read the same as before. -/
theorem text_of_kept (h : Later kept c kept' c') (hk : kept k) : c'.text k = c.text k := by
  have hlt := h.sound.lt k hk
  have hlt' := h.sound'.lt k (h.still k hk)
  rw [text, h.sound'.expr_eq hlt' (Nat.lt_succ_self k), text,
    h.sound.expr_eq hlt (Nat.lt_succ_self k)]
  exact h.expr hk _

theorem read (h : Later kept c kept' c') {b : List Live} (hb : LiesIn kept b) :
    c'.read b = c.read b :=
  program_congr b fun k hk => h.text_of_kept (hb k hk)

theorem item (h : Later kept c kept' c') {w : Item} (hw : w ∈ c.list k) :
    w.read c'.text = w.read c.text := by
  cases w with
  | token t => rfl
  | literal f =>
    refine congrArg (fun b => Token.func (.mk f.params b f.source)) ?_
    exact h.read fun j hj => (h.sound.nested k j (Item.mem_places hw hj)).1

/-- A list that is the same as before reads the same too. -/
theorem text (h : Later kept c kept' c') (hk : c'.list k = c.list k) : c'.text k = c.text k := by
  rw [h.sound'.text_eq, h.sound.text_eq, hk]
  exact List.map_congr_left fun w hw => h.item hw

/-- No function literal comes into a list that is in use. -/
theorem func_mem (h : Later kept c kept' c') (hk : k < c.lists.size) {f : Function}
    (hf : .func f ∈ c'.text k) : .func f ∈ c.text k := by
  rw [h.sound'.text_eq] at hf
  obtain ⟨w, hw, hread⟩ := List.mem_map.1 hf
  rcases h.items k hk w hw with hold | ⟨t, rfl⟩
  · rw [h.sound.text_eq]
    exact List.mem_map.2 ⟨w, hold, (h.item hold).symm.trans hread⟩
  · rw [show t = .func f from hread] at hw
    exact absurd hw (h.sound'.plain k f)

/-- The lists are all the same. -/
theorem of_lists (hc : c.Sound kept) (hlists : c'.lists = c.lists) : Later kept c kept c' := by
  have hlist : ∀ k, c'.list k = c.list k := fun k => by rw [Code.list, hlists]; rfl
  exact {
    sound := hc
    sound' := ⟨fun k hk => hlists ▸ hc.lt k hk, fun k => hlist k ▸ hc.nested k,
      fun k => hlist k ▸ hc.plain k⟩
    size := Nat.le_of_eq (congrArg Array.size hlists.symm)
    still := fun _ => id
    fresh := fun _ h _ => h
    same := fun k _ => hlist k
    items := fun k _ w hw => .inl (hlist k ▸ hw) }

/-- A list that is not kept is written to. -/
theorem write (hc : c.Sound kept) (hk : ¬kept k) {f : List Item → List Item}
    (hf : ∀ w ∈ f (c.list k), w ∈ c.list k ∨ ∃ t, w = .token t ∧ ∀ g, t ≠ .func g) :
    Later kept c kept (c.modifyList k f) := by
  have hlist := list_modifyList c k f
  have hitems : ∀ j, ∀ w ∈ (c.modifyList k f).list j,
      w ∈ c.list j ∨ ∃ t, w = .token t ∧ ∀ g, t ≠ .func g := by
    intro j w hw
    rw [hlist] at hw
    split at hw
    · rename_i hj
      exact hj.1 ▸ hf w hw
    · exact .inl hw
  have hsize : (c.modifyList k f).lists.size = c.lists.size := by simp [modifyList]
  exact {
    sound := hc
    sound' := by
      refine ⟨fun j hj => hsize ▸ hc.lt j hj, fun j i hi => ?_, fun j g hg => ?_⟩
      · obtain ⟨w, hw, hmem⟩ := List.mem_flatMap.1 hi
        rcases hitems j w hw with hold | ⟨t, rfl, _⟩
        · exact hc.nested j i (List.mem_flatMap.2 ⟨w, hold, hmem⟩)
        · cases hmem
      · rcases hitems j _ hg with hold | ⟨t, ht, hne⟩
        · exact hc.plain j g hold
        · cases ht
          exact hne g rfl
    size := Nat.le_of_eq hsize.symm
    still := fun _ => id
    fresh := fun _ h _ => h
    same := fun j hj => by
      rw [hlist, if_neg]
      rintro ⟨rfl, _⟩
      exact hk hj
    items := fun j _ w hw => (hitems j w hw).imp_right fun ⟨t, ht, _⟩ => ⟨t, ht⟩ }

/-- Code is put into memory. All of its places are kept but those of expressions that are run where
they are. -/
theorem of_added (hc : c.Sound kept) {b : List Live} (h : Added c c' (allPlaces b) v) :
    Later kept c (fun k => kept k ∨ c.lists.size ≤ k ∧ k < c'.lists.size ∧ k ∉ blockPlaces false b)
      c' where
  sound := hc
  sound' := by
    refine ⟨?_, fun k j hj => ?_, fun k f hf => ?_⟩
    · rintro k (hk | ⟨_, hk, _⟩)
      · exact Nat.lt_of_lt_of_le (hc.lt k hk) h.size
      · exact hk
    · by_cases hk : k < c.lists.size
      · rw [h.list k hk] at hj
        exact ⟨.inl (hc.nested k j hj).1, (hc.nested k j hj).2⟩
      · obtain ⟨hle, hlt, hmem⟩ := h.nested k (Nat.not_lt.1 hk) j hj
        have hk' : k < c'.lists.size := by
          by_contra hk'
          simp [list_of_size_le (Nat.not_lt.1 hk'), Item.places] at hj
        refine ⟨.inr ⟨hle, Nat.lt_trans hlt hk', fun hj' => hmem ?_⟩, hlt⟩
        exact (blockPlaces_perm b).symm.subset (List.mem_append_left _ hj')
    · by_cases hk : k < c.lists.size
      · rw [h.list k hk] at hf
        exact hc.plain k f hf
      · exact h.plain k (Nat.not_lt.1 hk) f hf
  size := h.size
  still _ := .inl
  fresh k hk hlt := hk.resolve_right fun hnew => absurd hlt (Nat.not_lt.2 hnew.1)
  same k hk := h.list k (hc.lt k hk)
  items k hk w hw := .inl (h.list k hk ▸ hw)

end Later

end Code

end LittleJ
