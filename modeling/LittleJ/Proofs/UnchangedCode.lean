import LittleJ.Proofs.InPlaceRun

/-!
# Code stays as it was read

A session puts texts into memory and runs their trees there, in any order, in any scopes and as
often as one likes. Running a tree replaces names in it by values and literals by functions. Yet at
every moment, however the runs end, the statements of every function are those of its literal as it
was read, and so is the code of every loop that is about to run. For calls and rounds run copies,
and that is why the runs come to the same as if no code ever changed.
-/

namespace LittleJ

open Code Live Coupling

namespace Live

variable {ps : List Program} {trees : List (List Live)} {σ : Store}

/-- An observer that has nothing to say. -/
def silent : Observer := fun _ => none

/-- The stores that come up in a session: `ps` are the programs whose texts were put into memory,
and `trees` what was made of them there. Between runs everything may change but functions and code.
-/
inductive Session : List Program → List (List Live) → Store → Prop
  | start {σ : Store} : σ.closures = #[] → σ.code = .empty → Session [] [] σ
  | load {ps : List Program} {trees : List (List Live)} {σ : Store} {source : String}
      {p : Program} :
      Session ps trees σ → parseText source = .ok p →
      Session (p :: ps) ((Code.load p σ.code).1 :: trees) { σ with code := (Code.load p σ.code).2 }
  | run {ps : List Program} {trees : List (List Live)} {σ : Store} {b : List Live} (ctx : Context)
      (fuel scope : Nat) : Session ps trees σ → b ∈ trees →
      Session ps trees (finish (runTree silent ctx fuel scope b) σ)
  | host {ps : List Program} {trees : List (List Live)} {σ τ : Store} : Session ps trees σ →
      τ.closures = σ.closures → τ.code = σ.code → Session ps trees τ

/-- Two runs end in the same way, in stores that differ in the code in memory only. -/
def SameButCode (r₁ r₂ : EStateM.Result Stop Store Unit) : Prop :=
  match r₁, r₂ with
  | .ok _ τ₁, .ok _ τ₂ => τ₁ = { τ₂ with code := τ₁.code }
  | .error e₁ τ₁, .error e₂ τ₂ => e₁ = e₂ ∧ τ₁ = { τ₂ with code := τ₁.code }
  | _, _ => False

/-! ## What holds in a session -/

theorem Sound.empty : Code.empty.Sound fun _ => False where
  lt _ h := h.elim
  nested _ _ h := by simp [Code.list, Code.empty, Item.places] at h
  plain _ _ h := by simp [Code.list, Code.empty] at h

theorem state_start (hclosures : σ.closures = #[]) (hcode : σ.code = .empty) :
    State [] [] [] [] [] (fun _ => False) σ where
  sound := hcode ▸ Sound.empty
  size := by simp [hcode, hclosures, Code.empty]
  body r hr := by simp [hclosures] at hr
  function r hr := by simp [hclosures] at hr
  begun b hb := by simp [hcode, Code.empty] at hb
  trees b hb := by cases hb
  held q hq := by cases hq
  ready := ⟨.nil, by simp [blockPlaces], by simp [blockPlaces], by simp [blockLoops]⟩
  reads := rfl

/-- More programs may have been read. -/
theorem State.mono {ps' : List Program} (hps : ps ⊆ ps') {held : List (List Live × Program)}
    {todo : List Live} {p : Program} {kept : Nat → Prop} (h : State ps trees held todo p kept σ) :
    State ps' trees held todo p kept σ := by
  have hholds : ∀ {f}, Program.AnyHolds ps f → Program.AnyHolds ps' f :=
    fun ⟨q, hq, hf⟩ => ⟨q, hps hq, hf⟩
  have hloops : ∀ {q}, Program.AnyLoops ps q → Program.AnyLoops ps' q :=
    fun ⟨e, q, hq, hs⟩ => ⟨e, q, hps hq, hs⟩
  have hready : ∀ {b}, Ready ps kept σ.code b → Ready ps' kept σ.code b := fun hb =>
    ⟨hb.nodup, hb.place, fun k hk f hf => hholds (hb.function k hk f hf),
      fun q hq => (hb.loop q hq).imp_right hloops⟩
  exact { h with
    function := fun r hr => hholds (h.function r hr)
    begun := fun b hb q hq => (h.begun b hb q hq).imp_right hloops
    trees := fun b hb => hready (h.trees b hb)
    held := fun q hq => (h.held q hq).imp_right (And.imp_right hloops)
    ready := hready h.ready }

/-- A text is put into memory. -/
theorem state_load {kept : Nat → Prop} (h : State ps trees [] [] [] kept σ) (p : Program) :
    ∃ kept', State (p :: ps) ((Code.load p σ.code).1 :: trees) [] [] [] kept'
      { σ with code := (Code.load p σ.code).2 } := by
  have hwrites : ∀ s ∈ p, Program.AnyWrites (p :: ps) s :=
    fun s hs => ⟨p, List.mem_cons_self, Program.writes_of_mem hs⟩
  obtain ⟨kept', hadd⟩ := (h.mono (List.subset_cons_self p ps)).add hwrites
  rw [List.append_nil] at hadd
  refine ⟨kept', { hadd with trees := ?_, ready := ?_, reads := rfl }⟩
  · exact List.forall_mem_cons.2 ⟨hadd.ready, hadd.trees⟩
  · exact ⟨.nil, by simp [blockPlaces], by simp [blockPlaces], by simp [blockLoops]⟩

/-- **A tree in memory is run as the program is that it reads as then.** -/
theorem runTree_matches {o : Observer} (ho : ∀ σ : Store, σ.Pristine ps → o σ = none)
    {kept : Nat → Prop} (h : State ps trees [] [] [] kept σ) {b : List Live} (hb : b ∈ trees)
    (ctx : Context) (fuel scope : Nat) :
    (beside ps trees [] [] []).Matches (fun _ => True) (runTree o ctx fuel scope b σ)
      (runProgram ctx fuel scope (σ.code.read b) σ) := by
  have hrel : (beside ps trees [] (b ++ []) (σ.code.read b ++ [])).rel σ σ := by
    rw [List.append_nil, List.append_nil]
    exact ⟨rfl, kept, { h with ready := h.trees b hb, reads := rfl }⟩
  exact run_matches ho (follows_within ho ctx fuel) scope (length_program _ b).symm hrel

theorem Session.state (h : Session ps trees σ) : ∃ kept, State ps trees [] [] [] kept σ := by
  induction h with
  | start hclosures hcode => exact ⟨_, state_start hclosures hcode⟩
  | @load ps trees σ source p _ _ ih =>
    obtain ⟨kept, h⟩ := ih
    exact state_load h p
  | @run ps trees σ b ctx fuel scope _ hb ih =>
    obtain ⟨kept, h⟩ := ih
    have hends := runTree_matches (o := silent) (fun _ _ => rfl) h hb ctx fuel scope
    unfold finish
    revert hends
    generalize runTree silent ctx fuel scope b σ = r₁
    generalize runProgram ctx fuel scope (σ.code.read b) σ = r₂
    intro hends
    cases hends with
    | ok _ hrel => exact hrel.2
    | stop _ hrel => exact hrel.2
    | excused he => exact he.elim
  | host _ hclosures hcode ih =>
    obtain ⟨kept, h⟩ := ih
    refine ⟨kept, h.of_eq hcode (congrArg Array.size hclosures) fun r => ?_⟩
    rw [Store.closure, Store.closure, hclosures]

theorem Session.wasRead (h : Session ps trees σ) {f : Function} (hf : Program.AnyHolds ps f) :
    f.WasRead := by
  obtain ⟨p, hp, hf⟩ := hf
  induction h with
  | start => cases hp
  | load _ hparse ih =>
    rcases List.mem_cons.1 hp with rfl | hp
    · exact wasRead_of_parseText hparse hf
    · exact ih hp
  | run _ _ _ _ _ ih => exact ih hp
  | host _ _ _ ih => exact ih hp

end Live

open Live in
/-- **Code stays as it was read.** In every store that comes up in a session

* the statements of every function are those of its literal, which is written in one of the texts,
  just as it was read; and every loop in code that was begun to be run is a loop of one of the
  texts;
* a text that is put into memory reads back as the program it was;
* and running a tree, in any scope, with any limits and budget, keeps this at every moment: an
  observer that is silent about such stores has nothing to say. The run ends, with an error or
  without, as running the program does that the tree read as, where no code changes. -/
theorem code_stays_as_read {ps : List Program} {trees : List (List Live)} {σ : Store}
    (h : Session ps trees σ) : σ.Pristine ps ∧
    (∀ r < σ.closures.size, (σ.closure r).function.WasRead) ∧
    (∀ p, (Code.load p σ.code).2.read (Code.load p σ.code).1 = p) ∧
    ∀ b ∈ trees, ∀ (ctx : Context) (fuel scope : Nat) (o : Observer),
      (∀ τ : Store, τ.Pristine ps → o τ = none) →
      SameButCode (runTree o ctx fuel scope b σ) (runProgram ctx fuel scope (σ.code.read b) σ) ∧
      (finish (runTree o ctx fuel scope b) σ).Pristine ps := by
  obtain ⟨kept, hstate⟩ := h.state
  refine ⟨hstate.pristine, fun r hr => h.wasRead (hstate.function r hr), fun p => ?_, ?_⟩
  · exact (added_load p σ.code).view _ _ (Nat.le_refl _) fun _ _ => rfl
  · intro b hb ctx fuel scope o ho
    have hends := runTree_matches ho hstate hb ctx fuel scope
    unfold finish SameButCode
    revert hends
    generalize runTree o ctx fuel scope b σ = r₁
    generalize runProgram ctx fuel scope (σ.code.read b) σ = r₂
    intro hends
    cases hends with
    | ok _ hrel => exact ⟨hrel.1, hrel.2.elim fun _ h => h.pristine⟩
    | stop _ hrel => exact ⟨⟨rfl, hrel.1⟩, hrel.2.elim fun _ h => h.pristine⟩
    | excused he => exact he.elim

/-! ## A loop that makes functions -/

/-- A text with a loop that makes a function in each of its rounds. -/
def roundText : String :=
  "while (a) \x7b f = function () \x7b return a; \x7d; \x7d"

/-- The program of this text. -/
def roundProgram : Program :=
  [.loop [.name "a"] [.assign [.name "f"]
    [.func (.mk [] [.ret [.name "a"]] [.sym .kwReturn, .name "a", .sym .semi])]]]

/-- A store with the two variables of the text. -/
def roundStart : Store :=
  (Store.empty.newScope ⟨[("a", .bool true), ("f", .null)], none, 0, none⟩).2

/-- The tree of the text in memory. -/
def roundTree : List Live :=
  (Code.load roundProgram roundStart.code).1

/-- The store when the text was put into memory. -/
def roundStore : Store :=
  { roundStart with code := (Code.load roundProgram roundStart.code).2 }

/-- Three rounds make three functions, each with the statements that are in the text. -/
theorem code_stays_as_read_rounds : Live.Session [roundProgram] [roundTree] roundStore ∧
    (finish (Live.runTree Live.silent ⟨none, false, 3⟩ 5 0 roundTree) roundStore).closures.size =
      3 ∧
    (finish (Live.runTree Live.silent ⟨none, false, 3⟩ 5 0 roundTree) roundStore).Pristine
      [roundProgram] := by
  have hparse : parseText roundText = .ok roundProgram := by rfl
  have hsession : Live.Session [roundProgram] [roundTree] roundStore :=
    .load (.start rfl rfl) hparse
  refine ⟨hsession, by decide +kernel, ?_⟩
  exact ((code_stays_as_read hsession).2.2.2 _ List.mem_cons_self _ _ _ _ fun _ _ => rfl).2

/-- The tree that is run does change: in the tree of `a;` the name has given way to its value. -/
example :
    let made := Code.load [.exp [.name "a"]] .empty
    ((finish (Live.runTree Live.silent ⟨none, false, 0⟩ 3 0 made.1)
      { roundStart with code := made.2 }).code.read made.1 matches [.exp [.val (.bool true)]]) := by
  decide +kernel

end LittleJ
