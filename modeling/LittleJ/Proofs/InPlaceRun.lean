import LittleJ.Proofs.CodeInPlace

/-!
# Running in place and off a tree

Running in place comes to the same as running off a tree, step by step: evaluating an expression in
its list, calling a function whose statements are copied first, running a loop whose code is copied
for each round. An observer that has nothing to say about code as it was read says nothing at all.
-/

namespace LittleJ.Live

open Code Coupling

variable {ps : List Program} {trees : List (List Live)} {held : List (List Live × Program)}
  {todo : List Live} {p : Program} {kept : Nat → Prop} {σ σ₁ σ₂ : Store} {o : Observer} {k : Nat}
  {e : Expr}

/-! ## Changes of memory -/

theorem look_bind {α : Type} {m : Unit → Eval α} (h : o σ = none) :
    (look o >>= m) σ = m () σ := by
  simp only [look, bind, EStateM.bind, h]

theorem change_bind {α : Type} {f : Code → Code} {m : Unit → Eval α}
    (h : o { σ with code := f σ.code } = none) :
    (change o f >>= m) σ = m () { σ with code := f σ.code } := by
  simp only [change, look, bind, EStateM.bind, Eval.modify_apply, h]

/-- The list of the next expression is written to. -/
theorem State.write (h : State ps trees held (.exp k :: todo) (.exp e :: p) kept σ)
    {f : List Item → List Item}
    (hf : ∀ w ∈ f (σ.code.list k), w ∈ σ.code.list k ∨ ∃ t, w = .token t ∧ ∀ g, t ≠ .func g) :
    State ps trees held (.exp k :: todo) (.exp ((σ.code.modifyList k f).text k) :: p) kept
      { σ with code := σ.code.modifyList k f } := by
  have hk := (h.ready.place k List.mem_cons_self).1
  have hl : Later kept σ.code kept (σ.code.modifyList k f) := .write h.sound hk hf
  have hrest : (σ.code.modifyList k f).read todo = σ.code.read todo := by
    have hready : Ready ps kept σ.code todo :=
      h.ready.part (List.sublist_append_right [k] _).subperm (List.subset_append_right _ _)
    refine hready.read hl fun j hj => ?_
    rw [list_modifyList, if_neg]
    rintro ⟨rfl, _⟩
    exact (List.nodup_cons.1 h.ready.nodup).1 hj
  have hp : σ.code.read todo = p := (List.cons.inj h.reads).2
  have hstate := h.code hl rfl rfl (h.ready.later hl)
  rw [← hp, ← hrest]
  exact hstate

/-- The store after the function of a literal was made. -/
def made (σ : Store) (f : Literal) : Store :=
  { (σ.newClosure ⟨.mk f.params (σ.code.read f.body) f.source, none⟩).2 with
    code := { σ.code with bodies := σ.code.bodies.push f.body } }

theorem State.make (h : State ps trees held todo p kept σ) {f : Literal}
    (hlies : LiesIn kept f.body)
    (hholds : Program.AnyHolds ps (.mk f.params (σ.code.read f.body) f.source)) :
    State ps trees held todo p kept (made σ f) := by
  have hl : Later kept σ.code kept (made σ f).code := .of_lists h.sound rfl
  have hbody : ∀ r, (made σ f).code.body r =
      if r = σ.closures.size then f.body else σ.code.body r := by
    intro r
    rw [← h.size, Code.body, Code.body, Array.getD_eq_getD_getElem?, Array.getD_eq_getD_getElem?]
    simp only [made, Array.getElem?_push]
    split <;> rfl
  have hclosure : ∀ r, (made σ f).closure r = if r = σ.closures.size then
      ⟨.mk f.params (σ.code.read f.body) f.source, none⟩ else σ.closure r :=
    Store.closure_newClosure σ _
  have hsize : (made σ f).closures.size = σ.closures.size + 1 := by simp [made, Store.newClosure]
  have hread : (made σ f).code.read todo = p :=
    (h.ready.read hl fun _ _ => rfl).trans h.reads
  rw [← hread]
  refine h.later hl ?_ (fun r hr => ?_) (fun b hb => .inl hb) (h.ready.later hl)
  · simp [made, Store.newClosure, h.size]
  · by_cases hr' : r = σ.closures.size
    · refine .inr ?_
      rw [hbody, hclosure, if_pos hr', if_pos hr']
      exact ⟨hlies, hl.read hlies, hholds⟩
    · refine .inl ⟨by omega, ?_, ?_⟩
      · rw [hbody, if_neg hr']
      · rw [hclosure, if_neg hr']

/-- Code is put into memory to be run before the rest. -/
theorem State.add (h : State ps trees held todo p kept σ) {q : Program}
    (hq : ∀ s ∈ q, Program.AnyWrites ps s) : ∃ kept',
    State ps trees held ((Code.load q σ.code).1 ++ todo) (q ++ p) kept'
      { σ with code := (Code.load q σ.code).2 } := by
  have hadd := added_load q σ.code
  have hl := Later.of_added h.sound hadd
  have hready := (Ready.of_added h.sound hadd hq).append (h.ready.later hl) fun k hk hk' => by
    have hbounds := hadd.bounds k ((blockPlaces_perm _).symm.subset (List.mem_append_left _ hk))
    exact absurd (h.ready.place k hk').2 (Nat.not_lt.2 hbounds.1)
  have hread : (Code.load q σ.code).2.read ((Code.load q σ.code).1 ++ todo) = q ++ p := by
    rw [read_eq, program_append, ← read_eq, ← read_eq, ← h.reads]
    congr 1
    · exact hadd.view _ _ (Nat.le_refl _) fun _ _ => rfl
    · exact h.ready.read hl fun k hk => hadd.list k (h.ready.place k hk).2
  have hstate := h.code hl hadd.bodies hadd.begun hready
  rw [hread] at hstate
  exact ⟨_, hstate⟩

/-- The store after some code has begun to be run. -/
def started (σ : Store) (b : List Live) : Store :=
  { σ with code := { σ.code with begun := b :: σ.code.begun } }

theorem State.start {b : List Live} (h : State ps trees held (b ++ todo) p kept σ) :
    State ps trees held (b ++ todo) p kept (started σ b) := by
  have hl : Later kept σ.code kept (started σ b).code := .of_lists h.sound rfl
  have hread : (started σ b).code.read (b ++ todo) = p :=
    (h.ready.read hl fun _ _ => rfl).trans h.reads
  rw [← hread]
  refine h.later hl h.size (fun r hr => .inl ⟨hr, rfl, rfl⟩) (fun b' hb' => ?_) (h.ready.later hl)
  rcases List.mem_cons.1 hb' with rfl | hb'
  · refine .inr fun q hq => ?_
    have hmem : q ∈ blockLoops (b' ++ todo) := by
      rw [blockLoops_append]
      exact List.mem_append_left _ hq
    exact (h.ready.later hl).loop q hmem
  · exact .inl hb'

/-- The stores are still equal when the code in memory of the first has changed. -/
theorem rel_code (heq : σ₁ = { σ₂ with code := σ₁.code }) {c : Code}
    (h : State ps trees held todo p kept { σ₁ with code := c }) :
    (beside ps trees held todo p).rel { σ₁ with code := c } σ₂ :=
  ⟨congrArg (fun σ : Store => { σ with code := c }) heq, kept, h⟩

/-- What is to be run is taken in another form. -/
theorem reshape (h : (beside ps trees held todo p).rel σ₁ σ₂) {b : List Live}
    (hplaces : (blockPlaces false b).Subperm (blockPlaces false todo))
    (hloops : blockLoops b ⊆ blockLoops todo) :
    (beside ps trees held b (program σ₁.code.text b)).rel σ₁ σ₂ :=
  ⟨h.1, h.2.imp fun _ h => h.reshape hplaces hloops⟩

/-- What is to be run reads as the other run has it. -/
theorem reads (h : (beside ps trees held todo p).rel σ₁ σ₂) : program σ₁.code.text todo = p :=
  h.2.elim fun _ h => h.reads

/-- The next statements are left out. -/
theorem drop_append {b : List Live} {q : Program} (hlen : b.length = q.length)
    (h : (beside ps trees held (b ++ todo) (q ++ p)).rel σ₁ σ₂) :
    (beside ps trees held todo p).rel σ₁ σ₂ := by
  have hread := reads h
  rw [program_append] at hread
  obtain rfl := (List.append_inj hread ((length_program _ b).trans hlen)).2
  refine reshape h ?_ ?_
  · rw [blockPlaces_append]
    exact (List.sublist_append_right _ _).subperm
  · rw [blockLoops_append]
    exact List.subset_append_right _ _

/-- The code of a loop is held, to be copied for its rounds. -/
theorem hold {code : List Live}
    (h :
      (beside ps trees held (.loop k code :: todo) (.loop e (program σ₁.code.text code) :: p)).rel
      σ₁ σ₂) :
    (beside ps trees ((code, program σ₁.code.text code) :: held) (.exp k :: todo) (.exp e :: p)).rel
      σ₁ σ₂ := by
  obtain ⟨heq, kept, h⟩ := h
  obtain ⟨hlies, hloop⟩ := h.ready.loop code List.mem_cons_self
  have hnext := h.reshape (b := .exp k :: todo) (.refl _) (List.subset_cons_self _ _)
  refine ⟨heq, kept, { hnext with held := ?_, reads := ?_ }⟩
  · exact List.forall_mem_cons.2 ⟨⟨hlies, rfl, hloop⟩, h.held⟩
  · obtain ⟨hhead, hrest⟩ := List.cons.inj h.reads
    exact congrArg₂ List.cons (congrArg Stmt.exp (Stmt.loop.inj hhead).1) hrest

theorem release {q : List Live × Program} (h : (beside ps trees (q :: held) todo p).rel σ₁ σ₂) :
    (beside ps trees held todo p).rel σ₁ σ₂ :=
  ⟨h.1, h.2.imp fun _ h => { h with held := fun q hq => h.held q (List.mem_cons_of_mem _ hq) }⟩

theorem drop {s : Live} {st : Stmt} (h : (beside ps trees held (s :: todo) (st :: p)).rel σ₁ σ₂) :
    (beside ps trees held todo p).rel σ₁ σ₂ :=
  drop_append (b := [s]) (q := [st]) rfl h

/-! ## Expressions in their lists -/

/-- What replacing names comes to: the tokens as they are then, or an error. -/
def settled (r : List Token × Option Error) : Eval Expr :=
  match r.2 with
  | none => pure r.1
  | some x => Eval.raise x

theorem settled_cons (t : Token) (r : List Token × Option Error) :
    settled (t :: r.1, r.2) = do return t :: (← settled r) := by
  obtain ⟨ts, x⟩ := r
  cases x with
  | none => rfl
  | some x => rfl

theorem load_cons {t : Token} (ht : ∀ f, t ≠ .func f) (ts : Expr) :
    Statement.load (t :: ts) = do return t :: (← Statement.load ts) := by
  cases t with
  | func f => exact absurd rfl (ht f)
  | _ => rfl

theorem load_plain {ts : Expr} (h : ∀ f, .func f ∉ ts) : Statement.load ts = pure ts := by
  induction ts with
  | nil => rfl
  | cons t ts ih =>
    rw [load_cons fun f hf => h f (hf ▸ List.mem_cons_self),
      ih fun f hf => h f (List.mem_cons_of_mem _ hf), pure_bind]

theorem load_func (f : Function) (ts : Expr) (σ : Store) :
    Statement.load (.func f :: ts) σ =
      (do return .val (.fn σ.closures.size) :: (← Statement.load ts) : Eval Expr)
        (σ.newClosure ⟨f, none⟩).2 := rfl

section

variable (ho : ∀ σ : Store, σ.Pristine ps → o σ = none)

include ho

theorem makeFunction_eq (h : State ps trees held todo p kept σ) {f : Literal}
    (hlies : LiesIn kept f.body)
    (hholds : Program.AnyHolds ps (.mk f.params (σ.code.read f.body) f.source)) :
    makeFunction o f σ = .ok σ.closures.size (made σ f) :=
  change_bind (σ := (σ.newClosure ⟨.mk f.params (σ.code.read f.body) f.source, none⟩).2)
    (m := fun _ => pure σ.closures.size) (ho _ (h.make hlies hholds).pristine)

/-- Functions are made of the literals in a list as they are made of the tokens it reads as. -/
theorem makeFunctions_eq {ws : List Item} (hws : ∀ w ∈ ws, w ∈ σ₁.code.list k)
    (hk : k ∈ blockPlaces false todo) (hrel : (beside ps trees held todo p).rel σ₁ σ₂) :
    ∃ ts τ₁ τ₂, makeFunctions o ws σ₁ = .ok ts τ₁ ∧
      Statement.load (ws.map (Item.read σ₁.code.text)) σ₂ = .ok ts τ₂ ∧ (∀ f, .func f ∉ ts) ∧
      (beside ps trees held todo p).rel τ₁ τ₂ ∧ τ₁.code.lists = σ₁.code.lists := by
  induction ws generalizing σ₁ σ₂ with
  | nil => exact ⟨[], σ₁, σ₂, rfl, rfl, fun _ => List.not_mem_nil, hrel, rfl⟩
  | cons w ws ih =>
    obtain ⟨hw, hrest⟩ := List.forall_mem_cons.1 hws
    cases w with
    | token t =>
      obtain ⟨ts, τ₁, τ₂, hmake, hload, hplain, hτ, hlists⟩ := ih hrest hrel
      have ht : ∀ f, t ≠ .func f := by
        rintro f rfl
        exact hrel.2.elim fun _ h => h.sound.plain k f hw
      refine ⟨t :: ts, τ₁, τ₂, ?_, ?_, fun f => ?_, hτ, hlists⟩
      · exact Eval.bind_eq_ok.2 ⟨ts, τ₁, hmake, rfl⟩
      · rw [List.map_cons, Item.read, load_cons ht]
        exact Eval.bind_eq_ok.2 ⟨ts, τ₂, hload, rfl⟩
      · exact List.not_mem_cons_of_ne_of_not_mem (ht f).symm (hplain f)
    | literal f =>
      obtain ⟨heq, kept, h⟩ := hrel
      have hlies : LiesIn kept f.body := fun j hj => (h.sound.nested k j (Item.mem_places hw hj)).1
      have hholds : Program.AnyHolds ps (.mk f.params (σ₁.code.read f.body) f.source) := by
        refine h.ready.function k hk _ ?_
        rw [h.sound.text_eq]
        exact List.mem_map.2 ⟨_, hw, rfl⟩
      -- both runs make the same function, and the literals that are left read as before
      have hl : Later kept σ₁.code kept (made σ₁ f).code := .of_lists h.sound rfl
      have hrel' : (beside ps trees held todo p).rel (made σ₁ f)
          (σ₂.newClosure ⟨.mk f.params (σ₁.code.read f.body) f.source, none⟩).2 :=
        ⟨congrArg (made · f) heq, kept, h.make hlies hholds⟩
      obtain ⟨ts, τ₁, τ₂, hmake, hload, hplain, hτ, hlists⟩ :=
        @ih (made σ₁ f) _ hrest hrel'
      have hmap : ws.map (Item.read (made σ₁ f).code.text) = ws.map (Item.read σ₁.code.text) :=
        List.map_congr_left fun w hw => hl.item (hrest w hw)
      have hsize : σ₁.closures.size = σ₂.closures.size := by rw [heq]
      rw [hmap] at hload
      refine ⟨.val (.fn σ₁.closures.size) :: ts, τ₁, τ₂, ?_, ?_, fun g => ?_, hτ, hlists⟩
      · refine Eval.bind_eq_ok.2 ⟨_, _, makeFunction_eq ho h hlies hholds, ?_⟩
        exact Eval.bind_eq_ok.2 ⟨ts, τ₁, hmake, rfl⟩
      · rw [hsize]
        exact (load_func _ _ _).trans (Eval.bind_eq_ok.2 ⟨ts, τ₂, hload, rfl⟩)
      · exact List.not_mem_cons_of_ne_of_not_mem (by simp) (hplain g)

/-- The tokens at the place of the next expression, as both runs come to them. -/
theorem tokensAt_eq
    (hrel : (beside ps trees held (.exp k :: todo) (.exp e :: p)).rel σ₁ σ₂) :
    ∃ ts τ₁ τ₂, tokensAt o k σ₁ = .ok ts τ₁ ∧ Statement.load e σ₂ = .ok ts τ₂ ∧
      (∀ f, .func f ∉ ts) ∧ (beside ps trees held (.exp k :: todo) (.exp ts :: p)).rel τ₁ τ₂ := by
  have he : e = (σ₁.code.list k).map (Item.read σ₁.code.text) := by
    obtain ⟨_, kept, h⟩ := hrel
    rw [← h.sound.text_eq]
    exact (Stmt.exp.inj (List.cons.inj h.reads).1).symm
  obtain ⟨ts, τ₁, τ₂, hmake, hload, hplain, ⟨heq, kept, h⟩, hlists⟩ :=
    makeFunctions_eq ho (fun _ hw => hw) List.mem_cons_self hrel
  -- the functions are written back in place of their literals
  have hwritten := h.write (f := fun _ => ts.map .token) fun w hw => by
    obtain ⟨t, ht, rfl⟩ := List.mem_map.1 hw
    exact .inr ⟨t, rfl, fun g hg => hplain g (hg ▸ ht)⟩
  have htext : (τ₁.code.modifyList k fun _ => ts.map .token).text k = ts := by
    rw [hwritten.sound.text_eq, list_modifyList,
      if_pos ⟨rfl, (h.ready.place k List.mem_cons_self).2⟩, List.map_map]
    exact List.map_id ts
  rw [htext] at hwritten
  refine ⟨ts, _, τ₂, ?_, he ▸ hload, hplain, rel_code heq hwritten⟩
  refine Eval.bind_eq_ok.2 ⟨σ₁, σ₁, rfl, Eval.bind_eq_ok.2 ⟨ts, τ₁, hmake, ?_⟩⟩
  exact change_bind (m := fun _ => pure ts) (ho _ hwritten.pristine)

/-- Names are replaced in the list of the next expression as they are in a list of tokens. -/
theorem replaceNames_matches (scope : Nat) (ts : List Token) (j : Nat) (depth : Int)
    (hrel : (beside ps trees held (.exp k :: todo) (.exp e :: p)).rel σ₁ σ₂) :
    (beside ps trees held todo p).Matches (fun _ => True) (replaceNames o scope k j depth ts σ₁)
      (settled (Expression.substitute (σ₂.lookup scope) depth ts) σ₂) := by
  have hkeep : ∀ (t : Token) {τ₁ : Store} {m : Eval Expr} {r : List Token × Option Error},
      (beside ps trees held todo p).Matches (fun _ => True) (m τ₁) (settled r σ₂) →
      (beside ps trees held todo p).Matches (fun _ => True) ((do return t :: (← m) : Eval Expr) τ₁)
        (settled (t :: r.1, r.2) σ₂) := by
    intro t τ₁ m r h
    rw [settled_cons]
    exact h.bind fun _ _ => Coupled.pure trivial
  induction ts generalizing e σ₁ j depth with
  | nil => exact .ok trivial (drop hrel)
  | cons t ts ih =>
    cases t with
    | name s =>
      simp only [replaceNames, Expression.substitute]
      split
      · have hlookup := congrFun (((hosts scope).agree hrel).lookup scope) s
        show (beside ps trees held todo p).Matches _
          ((Eval.ofError (σ₁.lookup scope s) >>= fun v => _) σ₁) _
        rw [hlookup]
        cases σ₂.lookup scope s with
        | error x => exact .failure (drop hrel)
        | ok v =>
          obtain ⟨kept, h⟩ := hrel.2
          have hwritten := h.write (f := (·.set j (.token (.val v)))) fun w hw =>
            (List.mem_or_eq_of_mem_set hw).imp_right fun h => ⟨_, h, by simp⟩
          show (beside ps trees held todo p).Matches _ ((change o _ >>= fun _ => _) σ₁) _
          rw [change_bind (ho _ hwritten.pristine)]
          exact hkeep _ (ih _ _ (rel_code hrel.1 hwritten))
      · exact hkeep _ (ih _ _ hrel)
    | sym y =>
      cases y with
      | _ => exact hkeep _ (ih _ _ hrel)
    | _ => exact hkeep _ (ih _ _ hrel)

/-- An observer has nothing to say. -/
theorem look_matches (hrel : (beside ps trees held todo p).rel σ₁ σ₂) {c : Coupling} {α : Type}
    {P : α → Prop} {m : Unit → Eval α} {r : EStateM.Result Stop Store α}
    (h : c.Matches P (m () σ₁) r) : c.Matches P ((look o >>= m) σ₁) r := by
  obtain ⟨_, _, hstate⟩ := hrel
  rw [look_bind (ho _ hstate.pristine)]
  exact h

/-- Evaluating an expression begins in its list as it does with the tokens the list reads as. -/
theorem resolve_matches (scope : Nat)
    (hrel : (beside ps trees held (.exp k :: todo) (.exp e :: p)).rel σ₁ σ₂) :
    (beside ps trees held todo p).Matches (fun _ => True) (resolve o scope k σ₁)
      ((do Expression.resolve scope (← Statement.load e)) σ₂) := by
  obtain ⟨ts, τ₁, τ₂, htokens, hload, _, hτ⟩ := tokensAt_eq ho hrel
  have hadopt := (hosts scope).adoptAll ts hτ
  have hlook : o (Expression.adoptAll scope ts τ₁) = none :=
    hadopt.2.elim fun _ h => ho _ h.pristine
  have hnames := replaceNames_matches ho scope ts 0 0 hadopt
  simp only [resolve, Expression.resolve, Expression.resolveWith, bind, EStateM.bind,
    htokens, hload, Eval.modify_apply, look, hlook]
  exact hnames

end

/-! ## Layer by layer -/

/-- A layer that runs code in place comes to the same as one that runs it off a tree. -/
structure Layer.Follows (ps : List Program) (trees : List (List Live)) (l₁ : Layer)
    (l₂ : LittleJ.Layer) : Prop where
  evaluate : ∀ {held todo p} (scope : Nat) (e : Expr),
    (beside ps trees held todo p).Together (l₁.evaluate scope e) (l₂.evaluate scope e)
  value : ∀ {held todo p σ₁ σ₂} (scope : Nat) {k : Nat} {e : Expr},
    (beside ps trees held (.exp k :: todo) (.exp e :: p)).rel σ₁ σ₂ →
    (beside ps trees held todo p).Matches (fun _ => True) (l₁.value scope k σ₁)
      ((do l₂.evaluate scope (← Statement.load e)) σ₂)
  call : ∀ {held todo p} (caller r : Nat) (args : List Value),
    (beside ps trees held todo p).Together (l₁.call caller r args) (l₂.call caller r args)
  exec : ∀ {held todo p σ₁ σ₂} (scope : Nat) {s : Live} {st : Stmt},
    (beside ps trees held (s :: todo) (st :: p)).rel σ₁ σ₂ →
    (beside ps trees held todo p).Matches (fun _ => True) (l₁.exec scope s σ₁) (l₂.exec scope st σ₂)

/-- The store when the scope of a call has been made. -/
def entered (inner : Scope) (caller : Nat) (σ : Store) : Store :=
  (σ.newScope inner).2.setDepth σ.scopes.size (((σ.newScope inner).2.scope caller).depth + 1)

section

variable (ho : ∀ σ : Store, σ.Pristine ps → o σ = none)

include ho

theorem follows_spent : (Layer.spent o).Follows ps trees LittleJ.Layer.spent where
  evaluate _ _ _ _ hrel := .stop trivial hrel
  value _ _ _ hrel := by
    obtain ⟨ts, τ₁, τ₂, htokens, hload, _, hτ⟩ := tokensAt_eq ho hrel
    simp only [Layer.spent, LittleJ.Layer.spent, bind, EStateM.bind, htokens, hload]
    exact .stop trivial (drop hτ)
  call _ _ _ _ _ hrel := .stop trivial hrel
  exec _ _ _ hrel := .stop trivial (drop hrel)

variable {l₁ : Layer} {l₂ : LittleJ.Layer} (hl : l₁.Follows ps trees l₂)

include hl

omit ho in
theorem execAll_matches (scope : Nat) {b : List Live} {q : Program} (hlen : b.length = q.length)
    (hrel : (beside ps trees held (b ++ todo) (q ++ p)).rel σ₁ σ₂) :
    (beside ps trees held todo p).Matches (fun _ => True) (execAll (l₁.exec scope) b σ₁)
      (runAll (l₂.exec scope) q σ₂) := by
  induction b generalizing q σ₁ σ₂ with
  | nil =>
    obtain rfl := List.length_eq_zero_iff.1 hlen.symm
    exact .ok trivial hrel
  | cons s b ih =>
    cases q with
    | nil => cases hlen
    | cons st q =>
      have hlen' : b.length = q.length := Nat.succ.inj hlen
      exact (hl.exec scope hrel).andThen ⟨drop_append hlen', id, id⟩ fun _ _ _ _ hτ => ih hlen' hτ

/-- Code that begins to be run. -/
theorem run_matches (scope : Nat) {b : List Live} {q : Program} (hlen : b.length = q.length)
    (hrel : (beside ps trees held (b ++ todo) (q ++ p)).rel σ₁ σ₂) :
    (beside ps trees held todo p).Matches (fun _ => True) (run o (l₁.exec scope) b σ₁)
      (runAll (l₂.exec scope) q σ₂) := by
  obtain ⟨heq, kept, h⟩ := hrel
  have hstart := h.start
  rw [run, change_bind (ho _ hstart.pristine)]
  exact execAll_matches hl scope hlen (rel_code heq hstart)

omit hl in
/-- A copy of code is made, to be run next. -/
theorem copy_eq {b : List Live} {q : Program} (hread : σ₁.code.read b = q)
    (hq : ∀ s ∈ q, Program.AnyWrites ps s) (hrel : (beside ps trees held todo p).rel σ₁ σ₂) :
    ∃ b' τ₁, copy o b σ₁ = .ok b' τ₁ ∧ b'.length = q.length ∧
      (beside ps trees held (b' ++ todo) (q ++ p)).rel τ₁ σ₂ := by
  obtain ⟨heq, kept, h⟩ := hrel
  obtain ⟨kept', hadd⟩ := h.add hq
  have hlen : (Code.load q σ₁.code).1.length = q.length := by
    have h := congrArg List.length ((added_load q σ₁.code).view _ _ (Nat.le_refl _) fun _ _ => rfl)
    rwa [length_program] at h
  refine ⟨_, _, ?_, hlen, rel_code heq hadd⟩
  subst hread
  exact change_bind (m := fun _ => pure _) (ho _ hadd.pristine)

theorem above_evaluate (ctx : Context) (scope : Nat) (e : Expr) :
    (beside ps trees held todo p).Together ((l₁.above o ctx).evaluate scope e)
      ((l₂.above ctx).evaluate scope e) := by
  intro σ₁ σ₂ hrel
  refine look_matches ho hrel ?_
  refine Coupled.bind ((hosts scope).resolve e) (fun ts _ => ?_) _ _ hrel
  exact (hosts scope).reduce (n := ts.length) (fun e _ => hl.evaluate scope e) (hl.call scope) ts
    (Nat.le_refl _)

theorem above_value (ctx : Context) (scope : Nat)
    (hrel : (beside ps trees held (.exp k :: todo) (.exp e :: p)).rel σ₁ σ₂) :
    (beside ps trees held todo p).Matches (fun _ => True) ((l₁.above o ctx).value scope k σ₁)
      ((do (l₂.above ctx).evaluate scope (← Statement.load e)) σ₂) := by
  simp only [Layer.above, LittleJ.Layer.above]
  rw [← bind_assoc]
  refine (resolve_matches ho scope hrel).bind fun ts _ => ?_
  exact (hosts scope).reduce (n := ts.length) (fun e _ => hl.evaluate scope e) (hl.call scope) ts
    (Nat.le_refl _)

omit ho hl in
theorem enter_of_ok {caller home : Nat} {params : List String} {args : List Value} {inner : Scope}
    (h : σ.childScope home params args = .ok inner) : Statement.enter caller home params args σ =
      if (entered inner caller σ).atLimit σ.scopes.size then
        .error (.failure (.error .callDepth)) (entered inner caller σ)
      else .ok σ.scopes.size (entered inner caller σ) := by
  rw [Statement.enter_eq, h]
  rfl

omit ho hl in
/-- Entering a call leaves the code in memory as it is. -/
theorem enter_matches {α : Type} {caller home : Nat} {params : List String} {args : List Value}
    {m₁ m₂ : Nat → Eval α}
    (hm : ∀ scope τ₁ τ₂, (beside ps trees held todo p).rel τ₁ τ₂ → τ₁.code = σ₁.code →
      (beside ps trees held todo p).Matches (fun _ => True) (m₁ scope τ₁) (m₂ scope τ₂))
    (hrel : (beside ps trees held todo p).rel σ₁ σ₂) :
    (beside ps trees held todo p).Matches (fun _ => True)
      ((Statement.enter caller home params args >>= m₁) σ₁)
      ((Statement.enter caller home params args >>= m₂) σ₂) := by
  obtain ⟨heq, kept, h⟩ := id hrel
  have hchild : σ₁.childScope home params args = σ₂.childScope home params args := by rw [heq]; rfl
  cases h₂ : σ₂.childScope home params args with
  | error x =>
    simp only [bind, EStateM.bind, Statement.enter_eq, hchild, h₂]
    exact .failure hrel
  | ok inner =>
    have h₁ := hchild.trans h₂
    have hτ :
        (beside ps trees held todo p).rel (entered inner caller σ₁) (entered inner caller σ₂) :=
      beside_map hrel (entered inner caller) (fun _ _ => rfl) (fun _ => rfl) fun _ _ => rfl
    have hlimit : (entered inner caller σ₁).atLimit σ₁.scopes.size =
        (entered inner caller σ₂).atLimit σ₂.scopes.size := by rw [heq]; rfl
    have hsize : σ₁.scopes.size = σ₂.scopes.size := by rw [heq]
    simp only [bind, EStateM.bind, enter_of_ok h₁, enter_of_ok h₂, hlimit]
    cases (entered inner caller σ₂).atLimit σ₂.scopes.size with
    | true => exact .failure hτ
    | false =>
      simp only [Bool.false_eq_true, if_false, hsize]
      exact hm _ _ _ hτ rfl

/-- A call runs a copy of the statements of the function. -/
theorem above_call (ctx : Context) (caller r : Nat) (args : List Value) :
    (beside ps trees held todo p).Together ((l₁.above o ctx).call caller r args)
      ((l₂.above ctx).call caller r args) := by
  intro σ₁ σ₂ hrel
  refine look_matches ho hrel ?_
  have hclosure := ((hosts caller).agree hrel).closure r
  show (beside ps trees held todo p).Matches _
    ((if args.length != (σ₁.closure r).function.params.length then _ else _ : Eval Value) σ₁)
    ((if args.length != (σ₂.closure r).function.params.length then _ else _ : Eval Value) σ₂)
  rw [hclosure]
  split
  · refine Together.bind ((hosts caller).shownArguments args) (fun s => ?_) _ _ hrel
    exact Coupled.throw_bind (by simp)
  · cases hhome : (σ₂.closure r).home with
    | none => exact Coupled.breakdown _ _ hrel
    | some home =>
      obtain ⟨heq, kept, h⟩ := id hrel
      have hr : r < σ₁.closures.size := by
        by_contra hr
        rw [← hclosure, Store.closure, Array.getD_eq_getD_getElem?,
          Array.getElem?_eq_none (Nat.not_lt.1 hr)] at hhome
        cases hhome
      have hread := (h.body r hr).2
      have hq := fun s hs => (h.function r hr).body (s := s) hs
      rw [hclosure] at hread hq
      refine enter_matches (fun scope τ₁ τ₂ hτ hcode => ?_) hrel
      obtain ⟨b, ρ₁, hcopy, hlen, hρ⟩ := copy_eq ho (hcode ▸ hread) hq hτ
      show (beside ps trees held todo p).Matches _ ((copy o (τ₁.code.body r) >>= fun b => _) τ₁) _
      rw [hcode] at hcopy ⊢
      simp only [bind, EStateM.bind, hcopy]
      exact Hosts.returned_of_matches (run_matches ho hl scope hlen hρ)

/-! Each kind of statement takes its expressions as they are needed. -/

omit ho in
/-- An element or a property is set. The target is evaluated in its list, if at all. -/
theorem assign_matches (scope : Nat) {ts : Expr} (hplain : ∀ f, .func f ∉ ts)
    (source : Expr) (v : Value)
    (hrel : (beside ps trees held (.exp k :: todo) (.exp ts :: p)).rel σ₁ σ₂) :
    (beside ps trees held todo p).Matches (fun _ => True)
      (Statement.assign (l₁.evaluate scope) scope ts (l₁.value scope k) source v σ₁)
      (Statement.assign (l₂.evaluate scope) scope ts (l₂.evaluate scope ts) source v σ₂) := by
  have hwhole : ∀ {τ₁ τ₂}, (beside ps trees held (.exp k :: todo) (.exp ts :: p)).rel τ₁ τ₂ →
      (beside ps trees held todo p).Matches (fun _ => True) (l₁.value scope k τ₁)
        (l₂.evaluate scope ts τ₂) := by
    intro τ₁ τ₂ hτ
    have hvalue := hl.value scope hτ
    rwa [load_plain hplain, pure_bind] at hvalue
  unfold Statement.assign
  split
  · exact (hosts scope).assignName _ _ _ _ (drop hrel)
  · cases Bracket.opener? ts with
    | none => exact Coupled.raise _ _ (drop hrel)
    | some j =>
      refine (hl.evaluate scope _ _ _ hrel).andThen ⟨drop, id, id⟩ fun base τ₁ τ₂ _ hτ => ?_
      refine (hl.evaluate scope _ _ _ hτ).andThen ⟨drop, id, id⟩ fun key ρ₁ ρ₂ _ hρ => ?_
      have hrest : ∀ (m₁ m₂ : Eval Unit), (beside ps trees held todo p).Together m₁ m₂ →
          (beside ps trees held todo p).Matches (fun _ => True) (m₁ ρ₁) (m₂ ρ₂) :=
        fun _ _ h => h _ _ (drop hρ)
      cases base with
      | obj r =>
        cases key with
        | str name => exact hrest _ _ ((hosts scope).modifyObject _ _)
        | _ => exact hrest _ _ (hosts scope).raiseAt
      | arr r =>
        cases key with
        | num x =>
          refine (hwhole hρ).bind fun _ _ => Coupled.read fun τ₁ τ₂ hτ => ?_
          rw [((hosts scope).agree hτ).array]
          exact Together.bind (Hosts.settingPosition _ _)
            (fun i => (hosts scope).modifyArray _ _) _ _ hτ
        | _ => exact hrest _ _ (hosts scope).raiseAt
      | _ => exact hrest _ _ (hosts scope).raiseAt

/-- The arms of a ladder are run where they are. -/
theorem ladder_matches (scope : Nat) {arms : List (Nat × List Live)} {as : List (Expr × Program)}
    (hrel : (beside ps trees held (.ladder arms :: todo) (.ladder as :: p)).rel σ₁ σ₂) :
    (beside ps trees held todo p).Matches (fun _ => True)
      (Statement.ladder (fun k => l₁.value scope k >>= Eval.truth) (run o (l₁.exec scope)) arms σ₁)
      (Statement.ladder (fun e => (Statement.load e >>= l₂.evaluate scope) >>= Eval.truth)
        (runAll (l₂.exec scope)) as σ₂) := by
  induction arms generalizing as σ₁ σ₂ with
  | nil =>
    obtain ⟨h, _⟩ := List.cons.inj (reads hrel)
    obtain rfl : [] = as := Stmt.ladder.inj h
    exact .ok trivial (drop hrel)
  | cons arm arms ih =>
    obtain ⟨j, code⟩ := arm
    obtain ⟨h, rfl⟩ := List.cons.inj (reads hrel)
    obtain rfl : (_, _) :: armsOf σ₁.code.text arms = as := Stmt.ladder.inj h
    -- the condition comes first, then the code of the arm, then the other arms
    have hnext := reshape (b := .exp j :: (code ++ .ladder arms :: todo)) hrel (by
        simp only [blockPlaces, places, armPlaces, blockPlaces_append, List.cons_append,
          List.nil_append, List.append_assoc]
        exact .refl _) (by
        simp only [blockLoops, loops, armLoops, blockLoops_append, List.nil_append,
          List.append_assoc]
        exact fun _ => id)
    rw [program, program_append] at hnext
    have hlen := (length_program σ₁.code.text code).symm
    have hcondition : Matches _ (fun _ => True) ((l₁.value scope j >>= Eval.truth) σ₁)
        (((Statement.load _ >>= l₂.evaluate scope) >>= Eval.truth) σ₂) :=
      (hl.value scope hnext).bind fun v _ => Coupled.truth
    refine hcondition.andThen ⟨fun h => drop (drop_append hlen h), id, id⟩ fun b τ₁ τ₂ _ hτ => ?_
    cases b with
    | true => exact (run_matches ho hl scope hlen hτ).weaken ⟨drop, id, id⟩
    | false => exact ih (drop_append hlen hτ)

/-- A loop runs a copy of its code in each round. -/
theorem loop_matches (ctx : Context) (scope : Nat) (ts : Expr) {code : List Live} {q : Program} :
    (beside ps trees ((code, q) :: held) todo p).Together
      (Statement.loop ctx.loopLimit ctx.rounds (l₁.evaluate scope ts >>= Eval.truth)
        (copy o code >>= run o (l₁.exec scope)))
      (Statement.loop ctx.loopLimit ctx.rounds (l₂.evaluate scope ts >>= Eval.truth)
        (runAll (l₂.exec scope) q)) := by
  have htick : (beside ps trees ((code, q) :: held) todo p).Together (modifyGet Store.tick)
      (modifyGet Store.tick) := by
    intro σ₁ σ₂ hrel
    have hclock : (Store.tick σ₁).1 = (Store.tick σ₂).1 := by rw [hrel.1]; rfl
    rw [Eval.modifyGet_apply, Eval.modifyGet_apply, hclock]
    exact .ok trivial
      (beside_map hrel (fun σ => (Store.tick σ).2) (fun _ _ => rfl) (fun _ => rfl) fun _ _ => rfl)
  unfold Statement.loop
  refine Together.bind htick fun start => ?_
  refine Together.iterate_of_shared trivial (Together.round htick _ start ?_ ?_) _
  · exact Together.bind (hl.evaluate scope ts) fun v => Coupled.truth
  · intro σ₁ σ₂ hrel
    obtain ⟨hread, hloop⟩ := (hrel.2.elim fun _ h => (h.held _ List.mem_cons_self).2 :
      σ₁.code.read code = q ∧ Program.AnyLoops ps q)
    obtain ⟨b, τ₁, hcopy, hlen, hτ⟩ := copy_eq ho hread (fun s hs => hloop.code hs) hrel
    simp only [bind, EStateM.bind, hcopy]
    exact run_matches ho hl scope hlen hτ

/-- A statement is run where it is. -/
theorem above_exec (ctx : Context) (scope : Nat) {s : Live} {st : Stmt}
    (hrel : (beside ps trees held (s :: todo) (st :: p)).rel σ₁ σ₂) :
    (beside ps trees held todo p).Matches (fun _ => True) ((l₁.above o ctx).exec scope s σ₁)
      ((l₂.above ctx).exec scope st σ₂) := by
  refine look_matches ho hrel ?_
  obtain ⟨rfl, rfl⟩ := List.cons.inj (reads hrel)
  cases s with
  | init name j =>
    have hnext := reshape hrel (b := .exp j :: todo) (.refl _) (fun _ => id)
    exact (hl.value scope hnext).bind fun v _ => (hosts scope).initialise name v
  | assign target j =>
    have hnext := reshape hrel (b := .exp j :: .exp target :: todo)
      (List.Perm.swap target j _).subperm (fun _ => id)
    simp only [LittleJ.Layer.above, stmt]
    rw [← bind_assoc]
    refine (resolve_matches ho scope hnext).andThen ⟨drop, id, id⟩ fun source τ₁ τ₂ _ hτ => ?_
    have hreduce := (hosts scope).reduce (n := source.length) (fun e _ => hl.evaluate scope e)
      (hl.call scope) source (Nat.le_refl _) _ _ hτ
    refine hreduce.andThen ⟨drop, id, id⟩ fun v ρ₁ ρ₂ _ hρ => ?_
    obtain ⟨ts, ρ₁', ρ₂', htokens, hload, hplain, hρ'⟩ := tokensAt_eq ho hρ
    simp only [bind, EStateM.bind, htokens, hload]
    exact assign_matches hl scope hplain source v hρ'
  | ladder arms => exact ladder_matches ho hl scope hrel
  | loop j code =>
    -- the code of the loop is held from now on, and copied for each round
    have hnext := hold hrel
    obtain ⟨ts, τ₁, τ₂, htokens, hload, _, hτ⟩ := tokensAt_eq ho hnext
    simp only [LittleJ.Layer.above, stmt, bind, EStateM.bind, htokens, hload]
    refine (loop_matches ho hl ctx scope ts _ _ (drop hτ)).weaken ⟨release, id, id⟩
  | ret j =>
    have hnext := reshape hrel (b := .exp j :: todo) (.refl _) (fun _ => id)
    exact (hl.value scope hnext).bind fun v _ => Coupled.throw (by simp)
  | brk => exact Coupled.throw (by simp) _ _ (drop hrel)
  | exp j => exact (hl.value scope hrel).bind fun v _ => (hosts scope).echo _ _ v

theorem follows_above (ctx : Context) : (l₁.above o ctx).Follows ps trees (l₂.above ctx) where
  evaluate scope e := above_evaluate ho hl ctx scope e
  value scope _ _ hrel := above_value ho hl ctx scope hrel
  call caller r args := above_call ho hl ctx caller r args
  exec scope _ _ hrel := above_exec ho hl ctx scope hrel

omit hl in
/-- **Running in place comes to the same as running off a tree, within every budget.** -/
theorem follows_within (ctx : Context) (fuel : Nat) :
    (Layer.within o ctx fuel).Follows ps trees (LittleJ.Layer.within ctx fuel) := by
  induction fuel with
  | zero =>
    rw [LittleJ.Layer.within_zero]
    exact follows_spent ho
  | succ fuel ih =>
    rw [LittleJ.Layer.within_succ]
    exact follows_above ho ih ctx

end

end LittleJ.Live
