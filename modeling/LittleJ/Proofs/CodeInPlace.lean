import LittleJ.Eval.InPlace
import LittleJ.Proofs.CodeMemory
import LittleJ.Proofs.CoupledRun
import LittleJ.Proofs.FunctionsRead

/-!
# Running code in place

Running code where it lies changes it, and yet it comes to the same as running a tree that never
changes. For what is run again is a copy: the statements of functions and the code of loops lie in
kept places all along.

The two runs go side by side with stores that are equal but for the code in memory. What is kept
there of the first run says which code is still to be run and what it reads as; each statement is
taken off this list when it is run.
-/

namespace LittleJ

open Code Live

/-! ## Texts and their code -/

/-- The function `f` is written in one of some programs. -/
def Program.AnyHolds (ps : List Program) (f : Function) : Prop :=
  ∃ p ∈ ps, p.Holds f

/-- A statement is written in one of some programs. -/
def Program.AnyWrites (ps : List Program) (s : Stmt) : Prop :=
  ∃ p ∈ ps, p.Writes s

/-- One of some programs has a loop with the code `q`. -/
def Program.AnyLoops (ps : List Program) (q : Program) : Prop :=
  ∃ condition, Program.AnyWrites ps (.loop condition q)

variable {ps : List Program}

theorem Program.AnyHolds.body {f : Function} (h : AnyHolds ps f) {s : Stmt} (hs : s ∈ f.body) :
    AnyWrites ps s :=
  h.imp fun _ h => ⟨h.1, writes_of_mem_body h.2 hs⟩

theorem Program.AnyLoops.code {q : Program} (h : AnyLoops ps q) {s : Stmt} (hs : s ∈ q) :
    AnyWrites ps s := by
  obtain ⟨condition, p, hp, h⟩ := h
  exact ⟨p, hp, h.block (List.mem_singleton_self _) hs⟩

/-- What stands in statements of the programs stands in the programs. -/
theorem Program.AnyWrites.standsIn {s u : Stmt} (h : AnyWrites ps u) (hs : s.StandsIn u) :
    AnyWrites ps s :=
  h.imp fun _ h => ⟨h.1, h.2.standsIn hs⟩

theorem Program.AnyWrites.holds {s : Stmt} (h : AnyWrites ps s) {e : Expr} (he : e ∈ s.exprs)
    {f : Function} (hf : .func f ∈ e) : AnyHolds ps f :=
  h.imp fun _ h => ⟨h.1, h.2.holds he hf⟩

/-! What code in memory reads as has its loops and its expressions. -/

namespace Live

variable {read : Nat → Expr}

mutual

theorem standsIn_of_mem_loops (s : Live) {q : List Live} (hq : q ∈ loops s) :
    ∃ e, (Stmt.loop e (program read q)).StandsIn (stmt read s) := by
  cases s with
  | ladder arms =>
    obtain ⟨a, ha, u, hu, e, h⟩ := standsIn_of_mem_armLoops arms hq
    exact ⟨e, .inBlock (List.mem_map_of_mem ha) hu h⟩
  | loop k code =>
    obtain rfl := List.mem_singleton.1 hq
    exact ⟨_, .self⟩
  | _ => cases hq

theorem standsIn_of_mem_blockLoops (b : List Live) {q : List Live} (hq : q ∈ blockLoops b) :
    ∃ u ∈ program read b, ∃ e, (Stmt.loop e (program read q)).StandsIn u := by
  cases b with
  | nil => cases hq
  | cons s rest =>
    rcases List.mem_append.1 hq with hq | hq
    · exact ⟨_, List.mem_cons_self, standsIn_of_mem_loops s hq⟩
    · obtain ⟨u, hu, h⟩ := standsIn_of_mem_blockLoops rest hq
      exact ⟨u, List.mem_cons_of_mem _ hu, h⟩

theorem standsIn_of_mem_armLoops (arms : List (Nat × List Live)) {q : List Live}
    (hq : q ∈ armLoops arms) : ∃ a ∈ armsOf read arms, ∃ u ∈ a.2, ∃ e,
      (Stmt.loop e (program read q)).StandsIn u := by
  cases arms with
  | nil => cases hq
  | cons arm arms =>
    cases arm with
    | mk k code =>
      rcases List.mem_append.1 hq with hq | hq
      · exact ⟨_, List.mem_cons_self, standsIn_of_mem_blockLoops code hq⟩
      · obtain ⟨a, ha, h⟩ := standsIn_of_mem_armLoops arms hq
        exact ⟨a, List.mem_cons_of_mem _ ha, h⟩

end

mutual

theorem standsIn_of_mem_places (s : Live) {k : Nat} (hk : k ∈ places false s) :
    ∃ w : Stmt, w.StandsIn (stmt read s) ∧ read k ∈ w.exprs := by
  cases s with
  | ladder arms =>
    rcases standsIn_of_mem_armPlaces arms hk with h | ⟨a, ha, u, hu, w, hw, h⟩
    · exact ⟨_, .self, h⟩
    · exact ⟨w, .inBlock (List.mem_map_of_mem ha) hu hw, h⟩
  | assign target value =>
    refine ⟨_, .self, ?_⟩
    rcases List.mem_cons.1 hk with rfl | hk
    · exact List.mem_cons_self
    · obtain rfl := List.mem_singleton.1 hk
      exact List.mem_cons_of_mem _ List.mem_cons_self
  | brk => cases hk
  | _ =>
    obtain rfl := List.mem_singleton.1 hk
    exact ⟨_, .self, List.mem_cons_self⟩

theorem standsIn_of_mem_blockPlaces (b : List Live) {k : Nat} (hk : k ∈ blockPlaces false b) :
    ∃ u ∈ program read b, ∃ w : Stmt, w.StandsIn u ∧ read k ∈ w.exprs := by
  cases b with
  | nil => cases hk
  | cons s rest =>
    rcases List.mem_append.1 hk with hk | hk
    · exact ⟨_, List.mem_cons_self, standsIn_of_mem_places s hk⟩
    · obtain ⟨u, hu, h⟩ := standsIn_of_mem_blockPlaces rest hk
      exact ⟨u, List.mem_cons_of_mem _ hu, h⟩

theorem standsIn_of_mem_armPlaces (arms : List (Nat × List Live)) {k : Nat}
    (hk : k ∈ armPlaces false arms) : read k ∈ (armsOf read arms).map Prod.fst ∨
      ∃ a ∈ armsOf read arms, ∃ u ∈ a.2, ∃ w : Stmt, w.StandsIn u ∧ read k ∈ w.exprs := by
  cases arms with
  | nil => cases hk
  | cons arm arms =>
    cases arm with
    | mk j code =>
      rcases List.mem_cons.1 hk with rfl | hk
      · exact .inl List.mem_cons_self
      · rcases List.mem_append.1 hk with hk | hk
        · exact .inr ⟨_, List.mem_cons_self, standsIn_of_mem_blockPlaces code hk⟩
        · rcases standsIn_of_mem_armPlaces arms hk with h | ⟨a, ha, h⟩
          · exact .inl (List.mem_cons_of_mem _ h)
          · exact .inr ⟨a, List.mem_cons_of_mem _ ha, h⟩

end

end Live

/-! ## Code that can be run where it is -/

/-- The expressions of `b` have lists of their own, which are not kept; the code of its loops is.
All of its literals and loops are written in the programs. -/
structure Live.Ready (ps : List Program) (kept : Nat → Prop) (c : Code) (b : List Live) : Prop where
  nodup : (blockPlaces false b).Nodup
  place : ∀ k ∈ blockPlaces false b, ¬kept k ∧ k < c.lists.size
  function : ∀ k ∈ blockPlaces false b, ∀ f, .func f ∈ c.text k → Program.AnyHolds ps f
  loop : ∀ q ∈ blockLoops b, LiesIn kept q ∧ Program.AnyLoops ps (c.read q)

namespace Live.Ready

variable {kept kept' : Nat → Prop} {c c' : Code} {b b' : List Live}

theorem later (h : Ready ps kept c b) (hl : Later kept c kept' c') : Ready ps kept' c' b where
  nodup := h.nodup
  place k hk :=
    have ⟨hkept, hlt⟩ := h.place k hk
    ⟨fun hkept' => hkept (hl.fresh k hkept' hlt), Nat.lt_of_lt_of_le hlt hl.size⟩
  function k hk f hf := h.function k hk f (hl.func_mem (h.place k hk).2 hf)
  loop q hq :=
    have ⟨hlies, hloop⟩ := h.loop q hq
    ⟨fun k hk => hl.still k (hlies k hk), hl.read hlies ▸ hloop⟩

/-- Code reads the same as before if the lists are the same that would be run where they are. -/
theorem read (h : Ready ps kept c b) (hl : Later kept c kept' c')
    (hsame : ∀ k ∈ blockPlaces false b, c'.list k = c.list k) : c'.read b = c.read b := by
  refine program_congr b fun k hk => ?_
  rcases List.mem_append.1 ((blockPlaces_perm b).subset hk) with hk | hk
  · exact hl.text (hsame k hk)
  · obtain ⟨q, hq, hk⟩ := List.mem_flatMap.1 hk
    exact hl.text_of_kept ((h.loop q hq).1 k hk)

/-- A part of code that can be run can be run too. -/
theorem part (h : Ready ps kept c b)
    (hplaces : (blockPlaces false b').Subperm (blockPlaces false b))
    (hloops : blockLoops b' ⊆ blockLoops b) : Ready ps kept c b' where
  nodup :=
    have ⟨_, hperm, hsub⟩ := hplaces
    hperm.nodup_iff.1 (h.nodup.sublist hsub)
  place k hk := h.place k (hplaces.subset hk)
  function k hk := h.function k (hplaces.subset hk)
  loop q hq := h.loop q (hloops hq)

/-- Code that was just put into memory can be run. -/
theorem of_added {p : Program} (hc : c.Sound kept)
    (h : Added c c' (allPlaces b) fun read => program read b = p)
    (hp : ∀ s ∈ p, Program.AnyWrites ps s) : Ready ps
      (fun k => kept k ∨ c.lists.size ≤ k ∧ k < c'.lists.size ∧ k ∉ blockPlaces false b) c' b := by
  have hread : program c'.text b = p := h.view _ c' (Nat.le_refl _) fun _ _ => rfl
  have hnodup := (blockPlaces_perm b).nodup_iff.1 h.nodup
  refine ⟨(List.nodup_append.1 hnodup).1, fun k hk => ?_, fun k hk f hf => ?_, fun q hq => ⟨?_, ?_⟩⟩
  · have hbounds := h.bounds k ((blockPlaces_perm b).symm.subset (List.mem_append_left _ hk))
    refine ⟨?_, hbounds.2⟩
    rintro (hkept | hnew)
    · exact absurd (hc.lt k hkept) (Nat.not_lt.2 hbounds.1)
    · exact hnew.2.2 hk
  · obtain ⟨u, hu, w, hw, he⟩ := @standsIn_of_mem_blockPlaces c'.text b k hk
    exact ((hp u (hread ▸ hu)).standsIn hw).holds he hf
  · intro k hk
    have hmem : k ∈ (blockLoops b).flatMap allPlaces := List.mem_flatMap.2 ⟨q, hq, hk⟩
    have hbounds := h.bounds k ((blockPlaces_perm b).symm.subset (List.mem_append_right _ hmem))
    exact .inr ⟨hbounds.1, hbounds.2, fun hk' => (List.nodup_append.1 hnodup).2.2 k hk' k hmem rfl⟩
  · obtain ⟨u, hu, e, hloop⟩ := @standsIn_of_mem_blockLoops c'.text b q hq
    exact ⟨e, (hp u (hread ▸ hu)).standsIn hloop⟩

/-- Code beside other code that was there before. -/
theorem append (h : Ready ps kept c b) (h' : Ready ps kept c b')
    (hapart : ∀ k ∈ blockPlaces false b, k ∉ blockPlaces false b') : Ready ps kept c (b ++ b') where
  nodup := by
    rw [blockPlaces_append]
    exact List.nodup_append.2 ⟨h.nodup, h'.nodup, fun k hk j hj hkj => hapart k hk (hkj ▸ hj)⟩
  place := by
    rw [blockPlaces_append]
    exact List.forall_mem_append.2 ⟨h.place, h'.place⟩
  function := by
    rw [blockPlaces_append]
    exact List.forall_mem_append.2 ⟨h.function, h'.function⟩
  loop := by
    rw [blockLoops_append]
    exact List.forall_mem_append.2 ⟨h.loop, h'.loop⟩

end Live.Ready

/-! ## The two stores -/

/-- The code in memory is as it was read: the statements of every function are those of its literal,
which is written in one of the programs; and so is every loop in code that was begun to be run. -/
structure Store.Pristine (ps : List Program) (σ : Store) : Prop where
  body : ∀ r < σ.closures.size, σ.code.read (σ.code.body r) = (σ.closure r).function.body
  function : ∀ r < σ.closures.size, Program.AnyHolds ps (σ.closure r).function
  loop : ∀ b ∈ σ.code.begun, ∀ q ∈ blockLoops b, Program.AnyLoops ps (σ.code.read q)

namespace Live

/-- What holds of the store of a run in place: `todo` is still to be run and reads as `p`, the trees
are there to be run another time, and `held` is code that is to be copied. -/
structure State (ps : List Program) (trees : List (List Live)) (held : List (List Live × Program))
    (todo : List Live) (p : Program) (kept : Nat → Prop) (σ : Store) : Prop where
  sound : σ.code.Sound kept
  size : σ.code.bodies.size = σ.closures.size
  body : ∀ r < σ.closures.size, LiesIn kept (σ.code.body r) ∧
    σ.code.read (σ.code.body r) = (σ.closure r).function.body
  function : ∀ r < σ.closures.size, Program.AnyHolds ps (σ.closure r).function
  begun : ∀ b ∈ σ.code.begun, ∀ q ∈ blockLoops b,
    LiesIn kept q ∧ Program.AnyLoops ps (σ.code.read q)
  trees : ∀ b ∈ trees, Ready ps kept σ.code b
  held : ∀ q ∈ held, LiesIn kept q.1 ∧ σ.code.read q.1 = q.2 ∧ Program.AnyLoops ps q.2
  ready : Ready ps kept σ.code todo
  reads : σ.code.read todo = p

variable {trees : List (List Live)} {held : List (List Live × Program)} {todo : List Live}
  {p : Program} {kept kept' : Nat → Prop} {σ σ₁ σ₂ : Store}

theorem State.pristine (h : State ps trees held todo p kept σ) : σ.Pristine ps :=
  ⟨fun r hr => (h.body r hr).2, h.function, fun b hb q hq => (h.begun b hb q hq).2⟩

/-- Memory has changed, functions may have been made, and code may have begun to be run. -/
theorem State.later (h : State ps trees held todo p kept σ) {τ : Store}
    (hl : Later kept σ.code kept' τ.code) (hsize : τ.code.bodies.size = τ.closures.size)
    (hmade : ∀ r < τ.closures.size, (r < σ.closures.size ∧ τ.code.body r = σ.code.body r ∧
        (τ.closure r).function = (σ.closure r).function) ∨
      LiesIn kept' (τ.code.body r) ∧ τ.code.read (τ.code.body r) = (τ.closure r).function.body ∧
        Program.AnyHolds ps (τ.closure r).function)
    (hbegun : ∀ b ∈ τ.code.begun, b ∈ σ.code.begun ∨ ∀ q ∈ blockLoops b,
      LiesIn kept' q ∧ Program.AnyLoops ps (τ.code.read q))
    {b : List Live} (hready : Ready ps kept' τ.code b) :
    State ps trees held b (τ.code.read b) kept' τ where
  sound := hl.sound'
  size := hsize
  body r hr := by
    rcases hmade r hr with ⟨hr', hbody, hfunction⟩ | ⟨hlies, hread, _⟩
    · obtain ⟨hlies, hread⟩ := h.body r hr'
      rw [hbody, hfunction]
      exact ⟨fun k hk => hl.still k (hlies k hk), (hl.read hlies).trans hread⟩
    · exact ⟨hlies, hread⟩
  function r hr := by
    rcases hmade r hr with ⟨hr', _, hfunction⟩ | ⟨_, _, hholds⟩
    · exact hfunction ▸ h.function r hr'
    · exact hholds
  begun b hb q hq := by
    rcases hbegun b hb with hb | hnew
    · obtain ⟨hlies, hloop⟩ := h.begun b hb q hq
      exact ⟨fun k hk => hl.still k (hlies k hk), hl.read hlies ▸ hloop⟩
    · exact hnew q hq
  trees b hb := (h.trees b hb).later hl
  held q hq :=
    have ⟨hlies, hread, hloop⟩ := h.held q hq
    ⟨fun k hk => hl.still k (hlies k hk), (hl.read hlies).trans hread, hloop⟩
  ready := hready
  reads := rfl

/-- The lists in memory have changed, and nothing else. -/
theorem State.code (h : State ps trees held todo p kept σ) {c : Code}
    (hl : Later kept σ.code kept' c) (hbodies : c.bodies = σ.code.bodies)
    (hbegun : c.begun = σ.code.begun) {b : List Live} (hready : Ready ps kept' c b) :
    State ps trees held b (c.read b) kept' { σ with code := c } := by
  refine h.later (τ := { σ with code := c }) hl (hbodies ▸ h.size) (fun r hr => ?_) (fun b hb => ?_)
    hready
  · exact .inl ⟨hr, by rw [Code.body, hbodies]; rfl, rfl⟩
  · exact .inl (hbegun ▸ hb)

/-- Nothing has changed that code in memory has to do with. -/
theorem State.of_eq (h : State ps trees held todo p kept σ) {τ : Store} (hcode : τ.code = σ.code)
    (hsize : τ.closures.size = σ.closures.size)
    (hfunction : ∀ r, (τ.closure r).function = (σ.closure r).function) :
    State ps trees held todo p kept τ where
  sound := hcode ▸ h.sound
  size := hcode ▸ hsize ▸ h.size
  body r hr := by
    rw [hcode, hfunction]
    exact h.body r (hsize ▸ hr)
  function r hr := by
    rw [hfunction]
    exact h.function r (hsize ▸ hr)
  begun := hcode ▸ h.begun
  trees := hcode ▸ h.trees
  held := hcode ▸ h.held
  ready := hcode ▸ h.ready
  reads := hcode ▸ h.reads

/-- What is to be run is taken in another form, or part of it is dropped. -/
theorem State.reshape (h : State ps trees held todo p kept σ) {b : List Live}
    (hplaces : (blockPlaces false b).Subperm (blockPlaces false todo))
    (hloops : blockLoops b ⊆ blockLoops todo) :
    State ps trees held b (program σ.code.text b) kept σ :=
  { h with ready := h.ready.part hplaces hloops, reads := rfl }

/-- Runs side by side, in place and off a tree. -/
def beside (ps : List Program) (trees : List (List Live)) (held : List (List Live × Program))
    (todo : List Live) (p : Program) : Coupling where
  rel σ₁ σ₂ := σ₁ = { σ₂ with code := σ₁.code } ∧ ∃ kept, State ps trees held todo p kept σ₁
  excused _ := False
  brk := id
  ret _ := id
  shared _ := True
  sharing _ _ := trivial

open Coupling

/-- A change of both stores that code in memory has nothing to do with. -/
theorem beside_map (h : (beside ps trees held todo p).rel σ₁ σ₂) (f : Store → Store)
    (hf : ∀ σ c, f { σ with code := c } = { f σ with code := c })
    (hsize : ∀ σ, (f σ).closures.size = σ.closures.size)
    (hfunction : ∀ σ r, ((f σ).closure r).function = (σ.closure r).function) :
    (beside ps trees held todo p).rel (f σ₁) (f σ₂) := by
  obtain ⟨heq, kept, hstate⟩ := h
  have hcode : ∀ σ, (f σ).code = σ.code := fun σ => by
    have h := congrArg Store.code (hf σ σ.code)
    exact h
  refine ⟨?_, kept, hstate.of_eq (hcode σ₁) (hsize σ₁) (hfunction σ₁)⟩
  rw [hcode, ← hf, ← heq]

theorem hosts (scope : Nat) : (beside ps trees held todo p).Hosts scope fun _ => False where
  agree := by
    rintro σ₁ σ₂ ⟨heq, _⟩
    rw [heq]
    exact ⟨rfl, rfl, rfl, rfl, rfl, rfl, rfl, fun _ => rfl, fun _ => rfl, fun _ => rfl⟩
  arrays xs h := beside_map h ({ · with arrays := xs }) (fun _ _ => rfl) (fun _ => rfl) fun _ _ =>
    rfl
  objects ts h := beside_map h ({ · with objects := ts }) (fun _ _ => rfl) (fun _ => rfl) fun _ _ =>
    rfl
  seed n h := beside_map h ({ · with seed := n }) (fun _ _ => rfl) (fun _ => rfl) fun _ _ => rfl
  out s h := beside_map h ({ · with out := s }) (fun _ _ => rfl) (fun _ => rfl) fun _ _ => rfl
  adopt r h := beside_map h (·.adopt scope r) (fun _ _ => rfl) (fun _ => by simp [Store.adopt])
    fun _ _ => Store.function_adopt _ _ _ _
  closure h := h.elim
  makeVar _ h := beside_map h (·.putVar scope _ _) (fun _ _ => rfl) (fun _ => rfl) fun _ _ => rfl
  setVar _ h := beside_map h (·.putVar _ _ _) (fun _ _ => rfl) (fun _ => rfl) fun _ _ => rfl

end Live

end LittleJ
