import LittleJ.Proofs.FunctionsRead
import LittleJ.Proofs.WatchedTree
import LittleJ.Session

/-!
# Isolation

An interpreter runs a program in its global scope, in a scope inside it, or in an interpreter made
for this one run. The second kind may set variables of the global scope but makes no name there and
removes none. The third kind touches nothing that was there before: no variable, no array, no object
and no function.

Both are read off what a run may hold. New variables are made only in scopes in which code runs, and
those are new. And a program text brings no value but plain ones, so in an interpreter of its own it
can never come to hold anything older than itself.
-/

namespace LittleJ

open LittleJ.Lexer Store Interpreter Watch

/-- Everything in the first store is in the second one as it was. -/
structure Store.Untouched (σ τ : Store) : Prop where
  array : ∀ r, r < σ.arrays.size → r < τ.arrays.size ∧ τ.array r = σ.array r
  object : ∀ r, r < σ.objects.size → r < τ.objects.size ∧ τ.object r = σ.object r
  closure : ∀ r, r < σ.closures.size → r < τ.closures.size ∧ τ.closure r = σ.closure r
  scope : ∀ s, s < σ.scopes.size → s < τ.scopes.size ∧ τ.scope s = σ.scope s

namespace Watch

variable {g : Watch} {σ τ ρ : Store}

/-! ## What a run leaves alone -/

/-- What a run does not do: nothing goes away, what may not be held is not changed, and where no
code may run no name comes or goes. -/
structure Frame (g : Watch) (σ τ : Store) : Prop where
  arrays : σ.arrays.size ≤ τ.arrays.size
  objects : σ.objects.size ≤ τ.objects.size
  closures : σ.closures.size ≤ τ.closures.size
  scopes : σ.scopes.size ≤ τ.scopes.size
  array : ∀ r, r < σ.arrays.size → ¬g.array r → τ.array r = σ.array r
  object : ∀ r, r < σ.objects.size → ¬g.object r → τ.object r = σ.object r
  closure : ∀ r, r < σ.closures.size → ¬g.closure r → τ.closure r = σ.closure r
  scope : ∀ s, s < σ.scopes.size → ¬g.home s → τ.scope s = σ.scope s
  names : ∀ s, s < σ.scopes.size → ¬g.active s → (τ.scope s).vars.keys = (σ.scope s).vars.keys

namespace Frame

theorem refl (g : Watch) (σ : Store) : g.Frame σ σ where
  arrays := Nat.le_refl _
  objects := Nat.le_refl _
  closures := Nat.le_refl _
  scopes := Nat.le_refl _
  array _ _ _ := rfl
  object _ _ _ := rfl
  closure _ _ _ := rfl
  scope _ _ _ := rfl
  names _ _ _ := rfl

theorem trans (h : g.Frame σ τ) (h' : g.Frame τ ρ) : g.Frame σ ρ where
  arrays := Nat.le_trans h.arrays h'.arrays
  objects := Nat.le_trans h.objects h'.objects
  closures := Nat.le_trans h.closures h'.closures
  scopes := Nat.le_trans h.scopes h'.scopes
  array r hr hg := (h'.array r (Nat.lt_of_lt_of_le hr h.arrays) hg).trans (h.array r hr hg)
  object r hr hg := (h'.object r (Nat.lt_of_lt_of_le hr h.objects) hg).trans (h.object r hr hg)
  closure r hr hg := (h'.closure r (Nat.lt_of_lt_of_le hr h.closures) hg).trans (h.closure r hr hg)
  scope s hs hg := (h'.scope s (Nat.lt_of_lt_of_le hs h.scopes) hg).trans (h.scope s hs hg)
  names s hs hg := (h'.names s (Nat.lt_of_lt_of_le hs h.scopes) hg).trans (h.names s hs hg)

/-- New scopes change none that were there. -/
theorem addScopes {xs : Array Scope} (hsize : σ.scopes.size ≤ xs.size)
    (hsame : ∀ r, r < σ.scopes.size → xs.getD r default = σ.scope r) :
    g.Frame σ { σ with scopes := xs } :=
  { refl g σ with
    scopes := hsize
    scope := fun r hr _ => hsame r hr
    names := fun r hr _ => congrArg (·.vars.keys) (hsame r hr) }

theorem newScope (s : Scope) : g.Frame σ (σ.newScope s).2 :=
  addScopes (by simp) fun r hr => by rw [getD_push, if_neg (Nat.ne_of_lt hr)]; rfl

/-- The scope of a call is new, also when its depth has been set. -/
theorem enter (s : Scope) (depth : Int) :
    g.Frame σ ((σ.newScope s).2.setDepth σ.scopes.size depth) := by
  refine addScopes (by simp [Store.newScope]) fun r hr => ?_
  rw [getD_modify, if_neg (by rintro ⟨rfl, _⟩; exact Nat.lt_irrefl _ hr)]
  exact (scope_newScope σ s r).trans (if_neg (Nat.ne_of_lt hr))

/-- A change to one scope changes no other. -/
theorem modifyScope {s : Nat} {f : Scope → Scope} (hhome : s < σ.scopes.size → g.home s)
    (hnames : g.active s ∨ (f (σ.scope s)).vars.keys = (σ.scope s).vars.keys) :
    g.Frame σ (σ.modifyScope s f) :=
  { refl g σ with
    scopes := Nat.le_of_eq (size_modifyScope σ s f).symm
    scope := by
      intro r hr hg
      rw [scope_modifyScope, if_neg]
      rintro ⟨rfl, hs⟩
      exact hg (hhome hs)
    names := by
      intro r hr hg
      rw [scope_modifyScope]
      split
      · rename_i hsr
        obtain rfl := hsr.1
        exact hnames.resolve_left hg
      · rfl }

end Frame

theorem Step.frame (h : g.Step σ τ) : g.Frame σ τ := by
  cases h with
  | newArray _ =>
    exact { Frame.refl g σ with
      arrays := by simp [Store.newArray]
      array := fun r hr _ => by rw [Store.array_newArray, if_neg (Nat.ne_of_lt hr)] }
  | newObject _ =>
    exact { Frame.refl g σ with
      objects := by simp [Store.newObject]
      object := fun r hr _ => by rw [Store.object_newObject, if_neg (Nat.ne_of_lt hr)] }
  | newClosure _ =>
    exact { Frame.refl g σ with
      closures := by simp [Store.newClosure]
      closure := fun r hr _ => by rw [Store.closure_newClosure, if_neg (Nat.ne_of_lt hr)] }
  | modifyArray hr _ =>
    exact { Frame.refl g σ with
      arrays := by simp [Store.modifyArray]
      array := fun q _ hq => by
        rw [Store.array_modifyArray, if_neg]
        rintro ⟨rfl, _⟩
        exact hq hr }
  | modifyObject hr _ =>
    exact { Frame.refl g σ with
      objects := by simp [Store.modifyObject]
      object := fun q _ hq => by
        rw [Store.object_modifyObject, if_neg]
        rintro ⟨rfl, _⟩
        exact hq hr }
  | adopt _ hr =>
    exact { Frame.refl g σ with
      closures := by simp [Store.adopt]
      closure := fun q _ hq => by
        rw [Store.closure_adopt, if_neg]
        rintro ⟨rfl, _⟩
        exact hq hr }
  | makeVar hactive _ _ => exact .modifyScope (fun _ => g.home_of_active hactive) (.inl hactive)
  | setVar hhome hhas _ => exact .modifyScope (fun _ => hhome) (.inr (Table.keys_put_of_has hhas _))
  | global => exact .newScope _
  | child _ _ _ => exact .newScope _
  | enter _ _ _ _ => exact .enter _ _
  | newSlot => exact { Frame.refl g σ with }
  | setSlot => exact { Frame.refl g σ with }
  | seed => exact { Frame.refl g σ with }
  | tick => exact { Frame.refl g σ with }
  | write => exact { Frame.refl g σ with }

theorem Steps.frame (h : g.Steps σ τ) : g.Frame σ τ := by
  induction h with
  | refl => exact .refl g σ
  | tail _ hstep ih => exact ih.trans hstep.frame

/-! ## Interpreters under a watch -/

variable {α : Type} {place : Option Bool} {P : α → Prop} {scope : Nat}

/-- A computation keeps to the watch if it does so beside a watched one. -/
theorem Keeps.alone {m₁ m₂ : Eval α} (h : g.Keeps place P m₁ m₂) (hg : g.Quiet) :
    g.Keeps place P m₂ m₂ :=
  fun σ hσ => .same ((h σ hσ).fine hg)

theorem runProgram (hg : g.Quiet) (ctx : Context) (fuel : Nat)
    (hscope : g.active scope) {p : Program} (hp : ∀ s ∈ p, g.stmt false s) :
    g.Runs (some false) (LittleJ.runProgram ctx fuel scope p)
    (LittleJ.runProgram ctx fuel scope p) :=
  ((beside_within hg ctx fuel).runAll hscope hp).alone hg

theorem execAll (hg : g.Quiet) (ctx : Context) (fuel : Nat) (hvalues : ∀ v, g.value v)
    (hloose : g.loose) (hcode : ∀ b s, g.stmt b s) (hscope : g.active scope) (ks : List Kept) :
    g.Runs (some false) (Kept.execAll ctx fuel scope ks) (Kept.execAll ctx fuel scope ks) := by
  have hrun : g.Runs (some false) (Layer.execTree ctx _ scope ks) (Layer.execTree ctx _ scope ks) :=
    (beside_within hg ctx fuel).execTree hg hvalues hloose hscope ks fun _ _ s _ => hcode true s
  rw [Layer.execTree_within] at hrun
  exact hrun.alone hg

/-- The errors and jumps that are reported are gone. -/
theorem reporting (hg : g.Quiet) {code : Eval Unit} (h : g.Runs place code code) :
    g.Runs none (Interpreter.reporting code) (Interpreter.reporting code) := by
  intro σ hσ
  have hfine := (h σ hσ).fine hg
  have hwrite {ρ : Store} (hρ : g.Reached σ ρ) (s : String) : g.Reached σ (ρ.write s) :=
    hρ.trans (.step hρ.1 .write)
  refine .same ?_
  unfold Interpreter.reporting
  revert hfine
  generalize code σ = r
  intro hfine
  cases hfine with
  | ok ha hρ => exact .ok ha hρ
  | @stop e ρ he hρ =>
    cases e with
    | failure f =>
      cases f with
      | error e => exact .ok trivial (hwrite hρ _)
      | fault f => exact .stop trivial hρ
    | ret v => exact .ok trivial (hwrite hρ _)
    | brk => exact .ok trivial (hwrite hρ _)
    | exhausted => exact .stop trivial hρ

end Watch

/-- A source text, or the file that it names, is read as a program. -/
def Program.IsReadFrom (p : Program) (files : Table String) (text : String) : Prop :=
  ∃ content, contentOf files text = .ok content ∧ parseText content = .ok p

namespace Watch

variable {g : Watch} {σ τ : Store} {place : Option Bool} {scope : Nat} {files : Table String}
    {text : String}

theorem runText (hg : g.Quiet) (ctx : Context) (budget : Budget) (hscope : g.active scope)
    (hcode : ∀ p : Program, p.IsReadFrom files text → ∀ s ∈ p, g.stmt false s) :
    g.Runs (some false) (Interpreter.runText ctx budget files scope text)
      (Interpreter.runText ctx budget files scope text) := by
  unfold Interpreter.runText
  refine .bind (.ofFault_of (P := fun content => contentOf files text = .ok content) fun _ h => h)
    fun content hcontent => ?_
  refine .bind (.ofFailure_of (P := fun p => parseText content = .ok p) fun _ h => h) fun p hp => ?_
  exact runProgram hg ctx budget.depth hscope (hcode p ⟨content, hcontent, hp⟩)

theorem runElement (v : Value) :
    g.Runs (some true) (Interpreter.runElement v) (Interpreter.runElement v) := by
  unfold Interpreter.runElement
  cases v with
  | str s => exact .ite (fun _ => .breakdown) fun _ => .pure trivial
  | arr r =>
    refine .read fun σ hσ => ?_
    refine (?_ : g.Runs (some true) _ _) σ hσ
    split
    · exact .breakdown
    · exact .throw (Or.inl rfl)
    · exact .pure trivial
    · exact .ite (fun _ => .breakdown) fun _ => .pure trivial
    · exact .pure trivial
  | _ => exact .breakdown

theorem runElements (vs : List Value) :
    g.Runs (some true) (Interpreter.runElements vs) (Interpreter.runElements vs) := by
  induction vs with
  | nil => exact .pure trivial
  | cons v vs ih => exact .bind (runElement v) fun _ _ => ih

theorem makeChild {parent : Nat} (params : List String) {args : List Value}
    (hparent : g.home parent) (hargs : ∀ v ∈ args, g.value v) :
    g.Keeps place g.active (Statement.makeChild parent params args)
    (Statement.makeChild parent params args) := by
  refine .read fun σ hσ => ?_
  cases hinner : σ.childScope parent params args with
  | error x => exact .same (.stop trivial (.refl hσ))
  | ok inner =>
    exact .same (.ok (hσ.newScopes (Nat.le_refl _)) (.step hσ (.child hparent hargs hinner)))

/-- Where code may run, a variable may be made and set. -/
theorem Step.putVar (hscope : g.active scope) {v : Value} (hv : g.value v) (σ : Store)
    (name : String) :
    g.Step σ (σ.putVar scope name v) := by
  cases hhas : (σ.scope scope).vars.has name with
  | true => exact .setVar (g.home_of_active hscope) hhas hv
  | false => exact .makeVar hscope hhas hv

theorem value_properties {e : String × Value} (h : e ∈ Math.properties) : g.value e.2 := by
  rcases List.mem_append.1 h with h | h
  · obtain ⟨name, v⟩ := e
    cases v with
    | num x => exact g.numbers.constants h
    | null => trivial
    | _ =>
      -- a constant is a number, or null where none comes out
      simp only [Math.constants, List.mem_cons, List.not_mem_nil, or_false, Prod.mk.injEq] at h
      rcases h with ⟨-, h⟩ | ⟨-, h⟩ | ⟨-, h⟩ | ⟨-, h⟩ | ⟨-, h⟩ | ⟨-, h⟩ | ⟨-, h⟩ | ⟨-, h⟩
      all_goals first | cases h | (split at h <;> cases h)
  · obtain ⟨p, _, rfl⟩ := List.mem_map.1 h
    trivial

theorem addBuiltins (hscope : g.active scope) :
    g.Runs place (Interpreter.addBuiltins scope) (Interpreter.addBuiltins scope) := by
  have hnatives (natives : List (String × Native)) (σ : Store) :
      g.Steps σ (natives.foldl (fun σ p => σ.putVar scope p.1 (.native p.2)) σ) := by
    induction natives generalizing σ with
    | nil => exact .refl
    | cons p natives ih => exact .head (.putVar (v := .native p.2) hscope trivial σ p.1) (ih _)
  unfold Interpreter.addBuiltins
  refine .bind
    (.make fun σ hσ => ⟨hσ.newObjects (Nat.le_refl _), .newObject fun _ => value_properties⟩)
    fun math hmath => ?_
  refine .bind (.modifyAll fun σ _ => hnatives _ σ) fun _ _ => ?_
  exact .modify fun σ _ => .putVar (v := .obj math) hscope hmath σ "math"

/-- An interpreter is made with a new scope to run code in. -/
theorem make (loopLimit depthLimit : Option Rat) (writes : Bool) :
    g.Keeps place (fun i => g.active i.global) (Interpreter.make loopLimit depthLimit writes)
      (Interpreter.make loopLimit depthLimit writes) := by
  have hglobal : g.Keeps place g.active (makeGlobal depthLimit writes)
      (makeGlobal depthLimit writes) := by
    unfold makeGlobal
    refine .bind (.ofError_of (P := fun s => s = ⟨[], none, 0, depthLimit⟩) fun s hs => ?_) ?_
    · unfold globalScope at hs
      split at hs
      · cases hs
      · exact (Except.ok.inj hs).symm
    · rintro _ rfl
      refine .bind (.make fun σ hσ => ⟨hσ.newScopes (Nat.le_refl _), .global⟩) fun global hactive =>
        ?_
      exact .ensure (.bind (addBuiltins hactive) fun _ _ => .pure hactive)
  exact .bind hglobal fun _ hactive => .pure hactive

/-- A watch that allows any value and any code. -/
structure Open (g : Watch) : Prop where
  quiet : g.Quiet
  values : ∀ v, g.value v
  homes : ∀ s, g.home s
  code : ∀ b s, g.stmt b s
  loose : g.loose

theorem Open.runIn (hg : g.Open) (hscope : g.active scope) (i : Interpreter) (budget : Budget)
    (p : Source) (console : Bool) :
    g.Runs none (i.runIn budget files scope p console) (i.runIn budget files scope p console) := by
  have htext (text : String) := @Watch.runText g scope files text hg.quiet
      (i.context budget console) budget hscope
    fun _ _ s _ => hg.code false s
  cases p with
  | text s => exact reporting hg.quiet (htext s)
  | tree ks => exact reporting hg.quiet (execAll hg.quiet _ _ hg.values hg.loose hg.code hscope ks)
  | value v =>
    cases v with
    | str s => exact reporting hg.quiet (htext s)
    | arr r =>
      have helements : g.Runs (some true) (do Interpreter.runElements ((← get).array r).toList) _ :=
        .read fun σ hσ => runElements _ σ hσ
      exact reporting hg.quiet helements
    | _ =>
      have hwrong : g.Runs none (Eval.breakdown .wrongKind : Eval Unit) _ := .breakdown
      exact reporting hg.quiet hwrong

theorem Open.runChild (hg : g.Open) (i : Interpreter) (budget : Budget) (p : Source)
    (console : Bool) :
    g.Runs none (i.runChild budget files p console) (i.runChild budget files p console) :=
  .bind (makeChild [] (hg.homes _) (by simp)) fun _ hscope => hg.runIn hscope i budget p console

theorem Open.runApart (hg : g.Open) (i : Interpreter) (budget : Budget) (p : Source)
    (console : Bool) :
    g.Runs none (i.runApart budget files p console) (i.runApart budget files p console) :=
  .bind (make _ _ true) fun other hactive => hg.runIn hactive other budget p console

theorem open_free : free.Open where
  quiet := rfl
  values := Region.value_whole
  homes _ := trivial
  code _ _ := trivial
  loose := trivial

theorem addNatives (i : Interpreter) (values : List (String × Token)) :
    free.Runs place (i.addNatives values) (i.addNatives values) := by
  induction values with
  | nil => exact .pure trivial
  | cons p values ih =>
    obtain ⟨name, t⟩ := p
    have hput (v : Value) : free.Runs place (modify (·.putVar i.global name v)) _ :=
      .modify fun σ _ => .putVar trivial (Region.value_whole v) σ name
    rw [Interpreter.addNatives]
    refine .read fun σ hσ => ?_
    refine (?_ : free.Runs place _ _) σ hσ
    refine .ite (fun _ => .bind (.modify fun _ _ => .write) fun _ _ => ?_) fun _ => ?_
    all_goals
      cases t with
      | val v =>
        refine .ite (fun _ => .bind (hput v) fun _ _ => ih) fun _ => ?_
        exact .bind (P := fun _ => False) .breakdown fun _ h => h.elim
      | _ => exact .bind (P := fun _ => False) .breakdown fun _ h => h.elim

theorem tree (s : Session) (name : String) : free.Runs place (s.tree name) (s.tree name) := by
  unfold Session.tree
  split
  · exact .pure trivial
  · exact .breakdown

theorem source (s : Session) (subject : Session.Subject) :
    free.Runs place (s.source subject) (s.source subject) := by
  cases subject with
  | tree name => exact .bind (tree s name) fun _ _ => .pure trivial
  | _ => exact .pure trivial

/-- Whatever a session does, its interpreter stays the same. -/
theorem session_step (s : Session) (budget : Budget) (st : Session.Step) :
    free.Keeps none (fun r => r.1.interpreter = s.interpreter) (s.step budget st)
    (s.step budget st) := by
  cases st with
  | run place subject console =>
    refine .bind (source s subject) fun p _ => ?_
    cases place with
    | global => exact .bind (open_free.runIn trivial _ _ _ _) fun _ _ => .pure rfl
    | child => exact .bind (open_free.runChild _ _ _ _) fun _ _ => .pure rfl
    | apart => exact .bind (open_free.runApart _ _ _ _) fun _ _ => .pure rfl
  | parse text name =>
    refine .bind (.ofFailure_of (P := fun _ => True) fun _ _ => trivial) fun p _ => ?_
    refine .bind
      (ofProgram ⟨fun _ _ _ => trivial, fun _ e _ => Region.tokens_whole e, fun _ _ _ _ _ =>
        trivial⟩ p
      fun _ _ => trivial) fun _ _ => .pure rfl
  | copy name other => exact .bind (tree s name) fun ks _ => .bind (copyAll ks) fun _ _ => .pure rfl
  | «show» name => exact .bind (tree s name) fun _ _ => .pure rfl
  | natives values => exact .bind (addNatives _ values) fun _ _ => .pure rfl
  | get name =>
    refine .read fun σ hσ => ?_
    refine (?_ : free.Keeps none _ _ _) σ hσ
    exact .bind (.ofError_of (P := fun _ => True) fun _ _ => trivial) fun _ _ => .pure rfl

/-- Code may run only in scopes from `n` on. -/
def runningSince (n : Nat) : Watch where
  toRegion := { Region.whole with
    active := fun s => n ≤ s
    home_of_active := fun _ => trivial }
  alarm _ _ := none
  gauge := .silent
  passed _ := trivial
  function _ := True
  stmt _ _ := True
  loose := True
  body _ _ _ := trivial
  values _ _ _ v _ := by cases v <;> trivial
  functions _ _ _ _ _ := trivial
  arms _ _ _ _ _ := trivial
  code _ _ _ := trivial
  jump _ := trivial

theorem value_runningSince (n : Nat) (v : Value) : (runningSince n).value v := by
  cases v <;> trivial

theorem open_runningSince (n : Nat) : (runningSince n).Open where
  quiet := rfl
  values := value_runningSince n
  homes _ := trivial
  code _ _ := trivial
  loose := trivial

theorem closed_runningSince (σ : Store) : (runningSince σ.scopes.size).Closed σ where
  arrays _ v _ := value_runningSince _ v
  objects _ e _ := value_runningSince _ e.2
  bodies _ _ _ _ := trivial
  homes _ _ := trivial
  vars _ e _ := value_runningSince _ e.2
  parents _ _ := trivial
  newArrays _ := trivial
  newObjects _ := trivial
  newClosures _ := trivial
  newScopes h := h

end Watch

/-! ## Texts -/

/-- The values in the code of a text are plain ones. -/
theorem Program.IsReadFrom.tokens {g : Region} (hg : ∀ x, g.number x) {p : Program}
    {files : Table String} {text : String} (hp : p.IsReadFrom files text) {s : Stmt}
    (hs : p.Writes s) {e : Expr} (he : e ∈ s.exprs) :
    g.tokens e := by
  obtain ⟨content, -, hparse⟩ := hp
  obtain ⟨ts, hlex, -⟩ := Parser.ok_of_bind hparse
  have hvalues : p.Values fun v => Lexed (.val v) :=
    values_of_parseText (.bool true) hlex (fun v hv => lexed_lex hlex _ hv) hparse
  intro v hv
  cases hvalues s hs e he v hv with
  | num _ => exact hg _
  | _ => trivial

namespace Watch

/-- A run may hold only what is made after `σ`, and run only what is read from a text. -/
def apart (σ : Store) (files : Table String) (text : String) : Watch where
  number _ := True
  numbers := Number.closed_all
  array r := σ.arrays.size ≤ r
  object r := σ.objects.size ≤ r
  closure r := σ.closures.size ≤ r
  home s := σ.scopes.size ≤ s
  active s := σ.scopes.size ≤ s
  home_of_active h := h
  alarm _ _ := none
  gauge := .silent
  passed _ := trivial
  function f := ∃ p : Program, p.IsReadFrom files text ∧ p.Holds f
  stmt _ s := ∃ p : Program, p.IsReadFrom files text ∧ p.Writes s
  loose := True
  body := fun ⟨p, hp, hf⟩ _ hs => ⟨p, hp, Program.writes_of_mem_body hf hs⟩
  values := fun ⟨_, hp, hs⟩ _ he => hp.tokens (fun _ => trivial) hs he
  functions := fun ⟨p, hp, hs⟩ _ he _ hf => ⟨p, hp, hs.holds he hf⟩
  arms := fun ⟨p, hp, hs⟩ _ ha _ hmem => ⟨p, hp, hs.block (List.mem_map_of_mem ha) hmem⟩
  code := fun ⟨p, hp, hs⟩ _ hmem => ⟨p, hp, hs.block (List.mem_singleton_self _) hmem⟩
  jump _ := trivial

/-- Nothing can be held yet, so nothing leads to what was there before. -/
theorem closed_apart (σ : Store) (files : Table String) (text : String) :
    (apart σ files text).Closed σ where
  arrays := by
    intro r hr v hv
    rw [Store.array, Array.getD, dif_neg (Nat.not_lt.2 hr)] at hv
    exact absurd hv (Array.not_mem_empty v)
  objects := by
    intro r hr e he
    rw [Store.object, Array.getD, dif_neg (Nat.not_lt.2 hr)] at he
    cases he
  bodies hr hlt := absurd hlt (Nat.not_lt.2 hr)
  homes hr hh := absurd (lt_size_of_home hh) (Nat.not_lt.2 hr)
  vars := by
    intro s hs e he
    rw [Store.scope, Array.getD, dif_neg (Nat.not_lt.2 hs)] at he
    cases he
  parents := by
    intro s p hs hp
    rw [Store.scope, Array.getD, dif_neg (Nat.not_lt.2 hs)] at hp
    cases hp
  newArrays h := h
  newObjects h := h
  newClosures h := h
  newScopes h := h

theorem apart_runApart (σ : Store) (files : Table String) (text : String) (i : Interpreter)
    (budget : Budget) (console : Bool) :
    (apart σ files text).Runs none (i.runApart budget files (.text text) console)
      (i.runApart budget files (.text text) console) := by
  have hquiet : (apart σ files text).Quiet := rfl
  refine .bind (make _ _ true) fun other hactive => ?_
  refine reporting hquiet (runText hquiet _ budget hactive fun p hp s hs => ?_)
  exact ⟨p, hp, Program.writes_of_mem hs⟩

theorem untouched_of_frame {σ τ : Store} {files : Table String} {text : String}
    (h : (apart σ files text).Frame σ τ) : σ.Untouched τ where
  array r hr := ⟨Nat.lt_of_lt_of_le hr h.arrays, h.array r hr (Nat.not_le.2 hr)⟩
  object r hr := ⟨Nat.lt_of_lt_of_le hr h.objects, h.object r hr (Nat.not_le.2 hr)⟩
  closure r hr := ⟨Nat.lt_of_lt_of_le hr h.closures, h.closure r hr (Nat.not_le.2 hr)⟩
  scope s hs := ⟨Nat.lt_of_lt_of_le hs h.scopes, h.scope s hs (Nat.not_le.2 hs)⟩

end Watch

/-! ## Sessions -/

/-- The states that a session comes to. It starts with an interpreter made in any store and takes
steps, which may fail; and its host may make arrays and objects. -/
inductive Session.Reachable : Session → Store → Prop
  | start {loopLimit depthLimit : Option Rat} {files : Table String} {i : Interpreter}
      {σ τ : Store} :
      Interpreter.make loopLimit depthLimit true σ = .ok i τ → Reachable ⟨i, files, []⟩ τ
  | step {s s' : Session} {budget : Budget} {st : Step} {reply : Reply} {σ τ : Store} :
      Reachable s σ → s.step budget st σ = .ok (s', reply) τ → Reachable s' τ
  | failed {s : Session} {budget : Budget} {st : Step} {e : Stop} {σ τ : Store} :
      Reachable s σ → s.step budget st σ = .error e τ → Reachable s τ
  | newArray {s : Session} {σ : Store} (xs : Array Value) :
      Reachable s σ → Reachable s (σ.newArray xs).2
  | newObject {s : Session} {σ : Store} (t : Table Value) :
      Reachable s σ → Reachable s (σ.newObject t).2

theorem Interpreter.global_lt_of_make {loopLimit depthLimit : Option Rat} {writes : Bool}
    {i : Interpreter} {σ τ : Store} (h : make loopLimit depthLimit writes σ = .ok i τ) :
    i.global < τ.scopes.size := by
  obtain ⟨global, ρ, hglobal, h⟩ := Eval.bind_eq_ok.1 h
  cases h
  obtain ⟨scope, σ', -, hglobal⟩ := Eval.bind_eq_ok.1 hglobal
  obtain ⟨r, ρ, hmake, hglobal⟩ := Eval.bind_eq_ok.1 hglobal
  cases hmake
  split at hglobal
  · cases hglobal
  · obtain ⟨_, _, hadd, hglobal⟩ := Eval.bind_eq_ok.1 hglobal
    cases hglobal
    have hruns : Watch.free.Runs none (addBuiltins σ'.scopes.size) _ := Watch.addBuiltins trivial
    have hframe := (hruns.result rfl (closed_free _) hadd).2.2.frame
    exact Nat.lt_of_lt_of_le (by simp) hframe.scopes

theorem Session.Reachable.global_lt {s : Session} {σ : Store} (h : s.Reachable σ) :
    s.interpreter.global < σ.scopes.size := by
  induction h with
  | start hmake => exact global_lt_of_make hmake
  | @step s s' budget st reply σ τ _ hstep ih =>
    obtain ⟨hsame, hreached⟩ := (session_step s budget st).result rfl (closed_free σ) hstep
    replace hsame : s'.interpreter = s.interpreter := hsame
    rw [hsame]
    exact Nat.lt_of_lt_of_le ih hreached.2.frame.scopes
  | @failed s budget st e σ τ _ hstep ih =>
    have hreached := (session_step s budget st).finish rfl (closed_free σ)
    rw [finish, hstep] at hreached
    exact Nat.lt_of_lt_of_le ih hreached.2.frame.scopes
  | newArray xs _ ih => exact ih
  | newObject t _ ih => exact ih

/-- **Runs in isolation.** Take a session in any state it can come to, and let its interpreter run a
program; the run may end or fail in any way.

* In a scope of its own inside the global one, no program makes a name in the global scope or
  removes one.
* In an interpreter of its own, no text changes the global scope, or any other scope, array, object
  or function that was there before. -/
theorem runs_in_isolation {s : Session} {σ : Store} (h : s.Reachable σ) (budget : Budget)
    (files : Table String) (console : Bool) : s.interpreter.global < σ.scopes.size ∧ (∀ p : Source,
      ((finish (s.interpreter.runChild budget files p console) σ).scope
        s.interpreter.global).vars.keys =
        (σ.scope s.interpreter.global).vars.keys) ∧
    ∀ text : String,
    σ.Untouched (finish (s.interpreter.runApart budget files (.text text) console) σ) := by
  have hglobal := h.global_lt
  refine ⟨hglobal, fun p => ?_, fun text => ?_⟩
  · have hruns :
      (runningSince σ.scopes.size).Runs none (s.interpreter.runChild budget files p console) _ :=
      (open_runningSince σ.scopes.size).runChild s.interpreter budget p console
    have hreached := hruns.finish rfl (closed_runningSince σ)
    exact hreached.2.frame.names _ hglobal (Nat.not_le.2 hglobal)
  · have hruns := apart_runApart σ files text s.interpreter budget console
    exact untouched_of_frame (hruns.finish rfl (closed_apart σ files text)).2.frame

/-- A new session, and the state it is in when its host has put an array into the global scope. -/
def hostedSession : Session :=
  ⟨⟨0, none, none⟩, [], []⟩

def hostedStore : Store :=
  ((finish (Interpreter.make none none true) empty).newArray #[.null]).2.putVar 0 "a" (.arr 0)

theorem runs_in_isolation_hosted : hostedSession.Reachable hostedStore ∧
    hostedStore.lookup 0 "a" = .ok (.arr 0) ∧ hostedStore.array 0 = #[.null] ∧
    (∀ text : String, "a" ∈
      ((finish (hostedSession.interpreter.runChild ⟨10, 5⟩ [] (.text text) false)
      hostedStore).scope 0).vars.keys) ∧
    ∀ text : String, (finish (hostedSession.interpreter.runApart ⟨10, 5⟩ [] (.text text) false)
      hostedStore).array 0 = #[.null] := by
  have hstart : hostedSession.Reachable (finish (Interpreter.make none none true) empty) :=
    .start (show Interpreter.make none none true empty = .ok _ _ from rfl)
  have hstep : hostedSession.step ⟨10, 5⟩ (.natives [("a", .val (.arr 0))])
      ((finish (Interpreter.make none none true) empty).newArray #[.null]).2 =
        .ok (hostedSession, .nothing) hostedStore := rfl
  have hreach : hostedSession.Reachable hostedStore := .step (.newArray #[.null] hstart) hstep
  have hnames : "a" ∈ (hostedStore.scope 0).vars.keys := by decide
  obtain ⟨-, hchild, hapart⟩ := runs_in_isolation hreach ⟨10, 5⟩ [] false
  exact ⟨hreach, rfl, rfl, fun text => (hchild (.text text)).symm ▸ hnames,
    fun text => ((hapart text).array 0 (by decide)).2⟩

end LittleJ
