import LittleJ.Proofs.Changes
import LittleJ.Proofs.CoupledStatement

/-!
# Scopes are lexical

Scopes form a forest that only grows. What a name means in a scope could depend on everything that
was ever done: which scopes were made around it, which variables came to be there, before or after
the name was last looked up, and what was tried in vain. It is settled by two things alone, the way
outwards from the scope and the writes that succeeded: a name stands for what was last written to it
in the nearest scope that has it.

The history of a forest records just these two, and never looks at the store. After any sequence of
acts the store answers as the history says.
-/

namespace LittleJ

open Eval Store Statement EStateM Table List

variable {scope r o : Nat} {name : String} {v : Value}

/-! ## Acts -/

/-- What can be done with the scopes of a forest. -/
inductive ScopeAct
  /-- Makes an outermost scope. -/
  | root (limit : Option Rat)
  /-- Makes a scope inside another one. -/
  | child (outer : Nat) (params : List String) (args : List Value)
  | init (scope : Nat) (name : String) (v : Value)
  | assign (scope : Nat) (name : String) (v : Value)
  | lookup (scope : Nat) (name : String)
  /-- Asks for the scope that a variable belongs to. -/
  | find (scope : Nat) (name : String)
  | deepen (scope : Nat) (depth : Int)

/-- What an act gives. -/
inductive ScopeAnswer
  | done
  | scope (r : Nat)
  | value (v : Value)
deriving DecidableEq

namespace ScopeAct

/-- Refuses a scope that is not there. -/
def demand (scope : Nat) : Eval Unit := do
  if (← get).scopes.size ≤ scope then breakdown .position

/-- Carries out an act. -/
def perform : ScopeAct → Eval ScopeAnswer
  | root limit => do
    let s ← ofError (globalScope limit)
    return .scope (← make (·.newScope s))
  | child outer params args => do
    demand outer
    return .scope (← makeChild outer params args)
  | init scope name v => do
    demand scope
    initialise scope name v
    return .done
  | assign scope name v => do
    demand scope
    assignName scope name v
    return .done
  | lookup scope name => do
    demand scope
    return .value (← ofError ((← get).lookup scope name))
  | find scope name => do
    demand scope
    return .scope (← ofError ((← get).owner scope name))
  | deepen scope depth => do
    demand scope
    Statement.deepen scope depth
    return .done

end ScopeAct

/-! ## Histories -/

/-- A value that was written to a variable of a scope. -/
structure ScopeWrite where
  scope : Nat
  name : String
  value : Value

/-- Whether a write went to a variable. -/
def ScopeWrite.isTo (scope : Nat) (name : String) (w : ScopeWrite) : Bool :=
  w.scope == scope && w.name == name

/-- What has been done to a forest of scopes. -/
structure ScopeHistory where
  /-- For each scope the way outwards: itself first, and the outermost scope last. -/
  chains : List (List Nat)
  /-- The writes, newest first. -/
  writes : List ScopeWrite

namespace ScopeHistory

/-- Nothing has been done. -/
def empty : ScopeHistory :=
  ⟨[], []⟩

/-- The way outwards from a scope. -/
def chain (h : ScopeHistory) (scope : Nat) : List Nat :=
  h.chains.getD scope []

/-- Whether a variable was ever written to in a scope. -/
def defines (h : ScopeHistory) (name : String) (scope : Nat) : Bool :=
  h.writes.any (·.isTo scope name)

/-- What was last written to a variable of a scope. -/
def last? (h : ScopeHistory) (scope : Nat) (name : String) : Option Value :=
  (h.writes.find? (·.isTo scope name)).map (·.value)

/-- The nearest scope on the way outwards that has a variable. -/
def nearest? (h : ScopeHistory) (scope : Nat) (name : String) : Option Nat :=
  (h.chain scope).find? (h.defines name)

/-- What a name stands for in a scope. -/
def value? (h : ScopeHistory) (scope : Nat) (name : String) : Option Value := do
  h.last? (← h.nearest? scope name) name

/-- The history after an act that succeeded. -/
def record (h : ScopeHistory) : ScopeAct → ScopeHistory
  | .root _ => { h with chains := h.chains ++ [[h.chains.length]] }
  | .child outer params args =>
    { chains := h.chains ++ [h.chains.length :: h.chain outer]
      writes := ((params.zip args).map fun b => ⟨h.chains.length, b.1, b.2⟩).reverse ++ h.writes }
  | .init scope name v => { h with writes := ⟨scope, name, v⟩ :: h.writes }
  | .assign scope name v =>
    match h.nearest? scope name with
    | some o => { h with writes := ⟨o, name, v⟩ :: h.writes }
    | none => h
  | .lookup _ _ | .find _ _ | .deepen _ _ => h

end ScopeHistory

/-- A forest of scopes, and what was done to it. -/
structure Forest where
  history : ScopeHistory
  store : Store

namespace Forest

/-- No scopes. -/
def empty : Forest :=
  ⟨.empty, .empty⟩

/-- Carries out an act. If it fails that is no part of the history, and the forest goes on with the
store as it was left. -/
def act (w : Forest) (a : ScopeAct) : Forest :=
  match a.perform w.store with
  | .ok _ τ => ⟨w.history.record a, τ⟩
  | .error _ τ => ⟨w.history, τ⟩

/-- Carries out acts one after the other. -/
def grow (acts : List ScopeAct) : Forest :=
  acts.foldl act empty

end Forest

/-! ## What an act does -/

namespace ScopeAct

theorem demand_apply (scope : Nat) (σ : Store) :
    demand scope σ = if σ.scopes.size ≤ scope then .error (.failure (.fault .position)) σ
    else .ok () σ := by
  simp only [demand, bind, EStateM.bind, Eval.get_apply]
  split <;> rfl

/-- How an act that succeeds changes the store. -/
inductive Effect (σ : Store) : ScopeAct → Store → Prop
  | root {limit : Option Rat} : Effect σ (.root limit) (σ.newScope ⟨[], none, 0, limit⟩).2
  | child {outer : Nat} {params : List String} {args : List Value} {depth : Int}
      {limit : Option Rat} :
      outer < σ.scopes.size → Effect σ (.child outer params args)
        (σ.newScope ⟨putAll (params.zip args) [], some outer, depth, limit⟩).2
  | init {scope : Nat} {name : String} {v : Value} :
      scope < σ.scopes.size → (σ.scope scope).vars.has name = false →
      Effect σ (.init scope name v) (σ.putVar scope name v)
  | assign {scope owner : Nat} {name : String} {v : Value} :
      scope < σ.scopes.size → σ.owner scope name = .ok owner →
      Effect σ (.assign scope name v) (σ.putVar owner name v)
  | lookup {scope : Nat} {name : String} : Effect σ (.lookup scope name) σ
  | find {scope : Nat} {name : String} : Effect σ (.find scope name) σ
  | deepen {scope : Nat} {depth : Int} : Effect σ (.deepen scope depth) (σ.setDepth scope depth)

/-- An act that fails changes nothing, except perhaps the depth of a scope. -/
def Idle (σ τ : Store) : Prop :=
  τ = σ ∨ ∃ scope depth, τ = σ.setDepth scope depth

/-- All that an act can come to. -/
inductive Outcome (σ : Store) (a : ScopeAct) : Result Stop Store ScopeAnswer → Prop
  | ok {x : ScopeAnswer} {τ : Store} : a.Effect σ τ → Outcome σ a (.ok x τ)
  | error {e : Stop} {τ : Store} : Idle σ τ → Outcome σ a (.error e τ)

/-- After a scope was demanded it is there, or the act has failed. -/
theorem Outcome.demand {σ : Store} {a : ScopeAct} {m : Eval ScopeAnswer}
    (h : scope < σ.scopes.size → Outcome σ a (m σ)) :
    Outcome σ a ((do ScopeAct.demand scope; m : Eval ScopeAnswer) σ) := by
  simp only [bind, EStateM.bind, demand_apply]
  by_cases hs : σ.scopes.size ≤ scope
  · rw [if_pos hs]
    exact .error (.inl rfl)
  · rw [if_neg hs]
    exact h (Nat.not_le.1 hs)

/-- **Acts do what their names say, or nothing.** -/
theorem outcome_perform (a : ScopeAct) (σ : Store) : Outcome σ a (a.perform σ) := by
  cases a with
  | root limit =>
    simp only [perform, Store.globalScope]
    split
    · exact .error (.inl rfl)
    · exact .ok .root
  | child outer params args =>
    refine .demand fun houter => ?_
    simp only [Statement.makeChild, Store.childScope, bind, EStateM.bind, Eval.get_apply]
    cases params.length != args.length with
    | true => exact .error (.inl rfl)
    | false =>
      cases Store.tooDeep (σ.scope outer).limit ((σ.scope outer).depth + 1) with
      | true => exact .error (.inl rfl)
      | false => exact .ok (.child houter)
  | init scope name v =>
    refine .demand fun hscope => ?_
    simp only [Statement.initialise, Store.checkNew, bind, EStateM.bind, Eval.get_apply]
    cases hhas : (σ.scope scope).vars.has name with
    | true => exact .error (.inl rfl)
    | false => exact .ok (.init hscope hhas)
  | assign scope name v =>
    refine .demand fun hscope => ?_
    simp only [Statement.assignName, bind, EStateM.bind, Eval.get_apply]
    cases howner : σ.owner scope name with
    | error e => exact .error (.inl rfl)
    | ok owner => exact .ok (.assign hscope howner)
  | lookup scope name =>
    refine .demand fun _ => ?_
    simp only [bind, EStateM.bind, Eval.get_apply]
    cases σ.lookup scope name with
    | error e => exact .error (.inl rfl)
    | ok v => exact .ok .lookup
  | find scope name =>
    refine .demand fun _ => ?_
    simp only [bind, EStateM.bind, Eval.get_apply]
    cases σ.owner scope name with
    | error e => exact .error (.inl rfl)
    | ok o => exact .ok .find
  | deepen scope depth =>
    refine .demand fun _ => ?_
    simp only [Statement.deepen, bind, EStateM.bind, Eval.get_apply, Eval.modify_apply]
    cases (σ.setDepth scope depth).atLimit scope with
    | true => exact .error (.inr ⟨scope, depth, rfl⟩)
    | false => exact .ok .deepen

end ScopeAct

/-! ## Variables after a change -/

/-- A list of entries set one after the other: of those with one key the last counts. -/
theorem Table.get?_putAll {α : Type} (key : String) (entries : List (String × α)) (t : Table α) :
    (putAll entries t).get? key = ((entries.reverse.find? fun e => e.1 == key).map (·.2)).or
    (t.get? key) := by
  unfold putAll
  induction entries generalizing t with
  | nil => rfl
  | cons e entries ih =>
    rw [foldl_cons, ih, reverse_cons, find?_append]
    cases entries.reverse.find? fun e => e.1 == key with
    | some e' => rfl
    | none =>
      by_cases he : e.1 = key
      · simp [he, get?_put_self]
      · simp [he, get?_put_of_ne _ _ (Ne.symm he)]

namespace Store

theorem vars_putVar (σ : Store) (hscope : scope < σ.scopes.size) (name : String) (v : Value)
    (r : Nat) (key : String) : ((σ.putVar scope name v).scope r).vars.get? key =
      if r = scope ∧ key = name then some v else (σ.scope r).vars.get? key := by
  rw [putVar, scope_modifyScope]
  by_cases hr : scope = r
  · subst hr
    rw [if_pos ⟨rfl, hscope⟩]
    by_cases hk : key = name
    · rw [if_pos ⟨rfl, hk⟩, hk]
      exact get?_put_self _ _ _
    · rw [if_neg fun h => hk h.2]
      exact get?_put_of_ne _ _ hk
  · rw [if_neg fun h => hr h.1, if_neg fun h => hr h.1.symm]

theorem parent_putVar (σ : Store) (scope : Nat) (name : String) (v : Value) (r : Nat) :
    ((σ.putVar scope name v).scope r).parent = (σ.scope r).parent := by
  rw [putVar, scope_modifyScope]
  split <;> rfl

theorem vars_setDepth (σ : Store) (scope : Nat) (depth : Int) (r : Nat) :
    ((σ.setDepth scope depth).scope r).vars = (σ.scope r).vars := by
  rw [setDepth, scope_modifyScope]
  split <;> rfl

theorem parent_setDepth (σ : Store) (scope : Nat) (depth : Int) (r : Nat) :
    ((σ.setDepth scope depth).scope r).parent = (σ.scope r).parent := by
  rw [setDepth, scope_modifyScope]
  split <;> rfl

end Store

/-! ## The store keeps to the history -/

/-- A store is as a history says: the scopes are there with their ways outwards, and hold what was
last written to them. Each scope was made after the one around it. -/
structure ScopeHistory.Tracks (h : ScopeHistory) (σ : Store) : Prop where
  size : h.chains.length = σ.scopes.size
  root : ∀ r, r < σ.scopes.size → (σ.scope r).parent = none → h.chain r = [r]
  inner : ∀ r p, r < σ.scopes.size → (σ.scope r).parent = some p → p < r ∧
      h.chain r = r :: h.chain p
  vars : ∀ r name, r < σ.scopes.size → (σ.scope r).vars.get? name = h.last? r name
  known : ∀ w ∈ h.writes, w.scope < σ.scopes.size

namespace ScopeHistory

variable {h : ScopeHistory} {σ τ : Store}

theorem tracks_empty : ScopeHistory.empty.Tracks Store.empty where
  size := rfl
  root r hr := absurd hr (by simp [Store.empty])
  inner r p hr := absurd hr (by simp [Store.empty])
  vars r name hr := absurd hr (by simp [Store.empty])
  known w hw := absurd hw (by simp [ScopeHistory.empty])

theorem defines_eq_isSome (h : ScopeHistory) (name : String) (scope : Nat) :
    h.defines name scope = (h.last? scope name).isSome := by
  rw [defines, last?, Option.isSome_map, Bool.eq_iff_iff, any_eq_true, find?_isSome]

/-- Looking outwards in the store finds the nearest scope of the history. -/
theorem Tracks.ownerFrom (ht : h.Tracks σ) (name : String) {fuel : Nat} (hfuel : r < fuel)
    (hr : r < σ.scopes.size) :
    σ.ownerFrom name fuel r = h.nearest? r name := by
  induction fuel generalizing r with
  | zero => omega
  | succ fuel ih =>
    have hhas : (σ.scope r).vars.has name = h.defines name r := by
      rw [has, ht.vars r name hr, defines_eq_isSome]
    rw [Store.ownerFrom, hhas, nearest?]
    cases hp : (σ.scope r).parent with
    | none =>
      rw [ht.root r hr hp]
      cases hd : h.defines name r <;> simp [hd]
    | some p =>
      obtain ⟨hlt, hchain⟩ := ht.inner r p hr hp
      rw [hchain]
      cases hd : h.defines name r with
      | true => simp [hd]
      | false =>
        rw [find?_cons_of_neg (by simp [hd])]
        exact ih (by omega) (by omega)

theorem Tracks.owner (ht : h.Tracks σ) (name : String) (hr : r < σ.scopes.size) :
    σ.owner r name = match h.nearest? r name with
      | some o => .ok o
      | none => .error (.undefined name) := by
  have hfrom := ht.ownerFrom name (Nat.lt_succ_self r) hr
  rw [Store.owner]
  cases hn : h.nearest? r name with
  | some o => rw [hfrom, hn]
  | none => rw [hfrom, hn]

/-- The nearest scope that has a variable has a value for it. -/
theorem exists_last_of_nearest (ho : h.nearest? r name = some o) :
    ∃ v, h.last? o name = some v := by
  have hdefines : h.defines name o = true := find?_some ho
  rw [defines_eq_isSome] at hdefines
  exact Option.isSome_iff_exists.1 hdefines

theorem Tracks.scope_lt_of_last (ht : h.Tracks σ) (hv : h.last? o name = some v) :
    o < σ.scopes.size := by
  obtain ⟨w, hw, _⟩ := Option.map_eq_some_iff.1 hv
  have hto : w.isTo o name = true := find?_some hw
  simp only [ScopeWrite.isTo, Bool.and_eq_true, beq_iff_eq] at hto
  exact hto.1 ▸ ht.known w (mem_of_find?_eq_some hw)

theorem Tracks.lookup (ht : h.Tracks σ) (name : String) (hr : r < σ.scopes.size) :
    σ.lookup r name = match h.value? r name with
      | some v => .ok v
      | none => .error (.undefined name) := by
  rw [Store.lookup, ht.owner name hr, value?]
  cases ho : h.nearest? r name with
  | none => rfl
  | some o =>
    obtain ⟨v, hv⟩ := exists_last_of_nearest ho
    have hget := ht.vars o name (ht.scope_lt_of_last hv)
    simp [bind, Except.bind, pure, Except.pure, hget, hv]

/-! ## Every act is recorded rightly -/

theorem chain_append (h : ScopeHistory) (c : List Nat) (writes : List ScopeWrite) (r : Nat) :
    chain ⟨h.chains ++ [c], writes⟩ r = if r = h.chains.length then c else h.chain r := by
  unfold chain
  rw [getD_eq_getElem?_getD, getD_eq_getElem?_getD]
  by_cases hr : r < h.chains.length
  · rw [getElem?_append_left hr, if_neg (Nat.ne_of_lt hr)]
  · by_cases he : r = h.chains.length
    · rw [if_pos he, he, getElem?_concat_length]
      rfl
    · have hlong : (h.chains ++ [c]).length ≤ r := by
        rw [length_append, length_singleton]
        omega
      rw [if_neg he, getElem?_eq_none hlong, getElem?_eq_none (by omega)]

/-- A scope of which nothing is known has no variables. -/
theorem last?_eq_none (hknown : ∀ w ∈ h.writes, w.scope ≠ r) (name : String) :
    h.last? r name = none := by
  rw [last?, Option.map_eq_none_iff, find?_eq_none]
  intro w hw
  simp [ScopeWrite.isTo, hknown w hw]

/-- A write is the last one to its own variable, and leaves every other one alone. -/
theorem last?_write (h : ScopeHistory) (scope : Nat) (name : String) (v : Value) (r : Nat)
    (key : String) :
    last? ⟨h.chains, ⟨scope, name, v⟩ :: h.writes⟩ r key =
      if r = scope ∧ key = name then some v else h.last? r key := by
  unfold last?
  by_cases hto : r = scope ∧ key = name
  · rw [if_pos hto, find?_cons_of_pos (by simp [ScopeWrite.isTo, hto])]
    rfl
  · rw [if_neg hto, find?_cons_of_neg]
    simp only [ScopeWrite.isTo, Bool.and_eq_true, beq_iff_eq]
    exact fun he => hto ⟨he.1.symm, he.2.symm⟩

theorem Tracks.write (ht : h.Tracks σ) (hscope : scope < σ.scopes.size)
    (name : String) (v : Value) :
    Tracks ⟨h.chains, ⟨scope, name, v⟩ :: h.writes⟩ (σ.putVar scope name v) := by
  have hsize : (σ.putVar scope name v).scopes.size = σ.scopes.size := size_modifyScope ..
  refine ⟨by rw [hsize]; exact ht.size, ?_, ?_, ?_, ?_⟩
  · intro r hr hp
    rw [parent_putVar] at hp
    exact ht.root r (hsize ▸ hr) hp
  · intro r p hr hp
    rw [parent_putVar] at hp
    exact ht.inner r p (hsize ▸ hr) hp
  · intro r key hr
    rw [vars_putVar σ hscope, last?_write, ht.vars r key (hsize ▸ hr)]
  · intro w hw
    rw [hsize]
    rcases List.mem_cons.1 hw with rfl | hw
    · exact hscope
    · exact ht.known w hw

theorem Tracks.setDepth (ht : h.Tracks σ) (scope : Nat) (depth : Int) :
    h.Tracks (σ.setDepth scope depth) := by
  have hsize : (σ.setDepth scope depth).scopes.size = σ.scopes.size := size_modifyScope ..
  refine ⟨by rw [hsize]; exact ht.size, ?_, ?_, ?_, by rw [hsize]; exact ht.known⟩
  · intro r hr hp
    rw [parent_setDepth] at hp
    exact ht.root r (hsize ▸ hr) hp
  · intro r p hr hp
    rw [parent_setDepth] at hp
    exact ht.inner r p (hsize ▸ hr) hp
  · intro r key hr
    rw [vars_setDepth, ht.vars r key (hsize ▸ hr)]

/-- A new scope, outermost or inside one that is there, with its first variables. -/
theorem Tracks.newScope (ht : h.Tracks σ) (s : Scope) (writes : List ScopeWrite)
    (hparent : ∀ p, s.parent = some p → p < σ.scopes.size)
    (hold : ∀ r key, r < σ.scopes.size → last? ⟨[], writes⟩ r key = h.last? r key)
    (hnew : ∀ key, s.vars.get? key = last? ⟨[], writes⟩ σ.scopes.size key)
    (hknown : ∀ w ∈ writes, w.scope ≤ σ.scopes.size) :
    Tracks ⟨h.chains ++ [h.chains.length :: (s.parent.map h.chain).getD []], writes⟩
    (σ.newScope s).2 := by
  have hsize : (σ.newScope s).2.scopes.size = σ.scopes.size + 1 := Array.size_push _
  refine ⟨by rw [hsize, length_append, ht.size, length_singleton], ?_, ?_, ?_, ?_⟩
  · intro r hr hp
    rw [hsize] at hr
    rw [scope_newScope] at hp
    rw [chain_append, ht.size]
    split at hp
    · next he => rw [if_pos he, hp, he]; rfl
    · next he => rw [if_neg he]; exact ht.root r (by omega) hp
  · intro r p hr hp
    rw [hsize] at hr
    rw [scope_newScope] at hp
    rw [chain_append, chain_append, ht.size]
    split at hp
    · next he =>
        have hlt := hparent p hp
        rw [if_pos he, if_neg (Nat.ne_of_lt hlt), hp, he]
        exact ⟨hlt, rfl⟩
    · next he =>
        obtain ⟨hlt, hchain⟩ := ht.inner r p (by omega) hp
        rw [if_neg he, if_neg (by omega)]
        exact ⟨hlt, hchain⟩
  · intro r key hr
    rw [hsize] at hr
    rw [scope_newScope]
    show _ = last? ⟨[], writes⟩ r key
    split
    · next he => rw [he]; exact hnew key
    · next he =>
        have hlt : r < σ.scopes.size := by omega
        rw [ht.vars r key hlt, hold r key hlt]
  · intro w hw
    rw [hsize]
    exact Nat.lt_succ_of_le (hknown w hw)

/-- Of the first variables of a scope the last one with a name counts, and no other scope has them.
-/
theorem last?_bindings (h : ScopeHistory) (n : Nat) (entries : List (String × Value)) (r : Nat)
    (key : String) :
    last? ⟨[], (entries.map fun b => ⟨n, b.1, b.2⟩).reverse ++ h.writes⟩ r key =
      if r = n then ((entries.reverse.find? fun e => e.1 == key).map (·.2)).or (h.last? r key)
      else h.last? r key := by
  have hmap : (entries.map fun b => (⟨n, b.1, b.2⟩ : ScopeWrite)).reverse.find? (·.isTo r key) =
      (entries.reverse.find? fun e => n == r && e.1 == key).map fun b => ⟨n, b.1, b.2⟩ := by
    rw [← map_reverse, find?_map]
    rfl
  rw [last?, find?_append, hmap]
  by_cases hr : r = n
  · subst hr
    rw [if_pos rfl, last?]
    cases hfind : entries.reverse.find? fun e => e.1 == key <;> simp [hfind]
  · have hne : (n == r) = false := by simpa using Ne.symm hr
    have hnone : (entries.reverse.find? fun e => n == r && e.1 == key) = none := by
      simp [hne]
    rw [if_neg hr, hnone]
    rfl

/-- **An act that succeeds is recorded rightly.** -/
theorem Tracks.record (ht : h.Tracks σ) {a : ScopeAct} (ha : a.Effect σ τ) :
    (h.record a).Tracks τ := by
  have hunknown : ∀ w ∈ h.writes, w.scope ≠ σ.scopes.size :=
    fun w hw => Nat.ne_of_lt (ht.known w hw)
  cases ha with
  | root =>
    refine ht.newScope ⟨[], none, 0, _⟩ h.writes (by simp) (fun _ _ _ => rfl) (fun key => ?_)
      fun w hw => Nat.le_of_lt (ht.known w hw)
    exact (last?_eq_none (h := ⟨[], h.writes⟩) hunknown key).symm
  | @child outer params args depth limit houter =>
    refine ht.newScope ⟨_, some outer, depth, limit⟩ _ (fun p hp => Option.some.inj hp ▸ houter)
      (fun r key hr => ?_) (fun key => ?_) fun w hw => ?_
    · rw [ht.size, last?_bindings, if_neg (Nat.ne_of_lt hr)]
    · rw [ht.size, last?_bindings, if_pos rfl, get?_putAll, last?_eq_none hunknown]
      rfl
    · rcases List.mem_append.1 hw with hw | hw
      · obtain ⟨b, _, rfl⟩ := List.mem_map.1 (List.mem_reverse.1 hw)
        exact Nat.le_of_eq ht.size
      · exact Nat.le_of_lt (ht.known w hw)
  | init hscope _ => exact ht.write hscope _ _
  | @assign scope owner name v hscope howner =>
    have hnearest := ht.owner name hscope
    rw [howner] at hnearest
    cases ho : h.nearest? scope name with
    | none =>
      rw [ho] at hnearest
      cases hnearest
    | some o =>
      rw [ho] at hnearest
      obtain rfl := Except.ok.inj hnearest
      obtain ⟨u, hu⟩ := exists_last_of_nearest ho
      rw [ScopeHistory.record, ho]
      exact ht.write (ht.scope_lt_of_last hu) name v
  | lookup => exact ht
  | find => exact ht
  | deepen => exact ht.setDepth _ _

theorem Tracks.idle (ht : h.Tracks σ) (hidle : ScopeAct.Idle σ τ) : h.Tracks τ := by
  rcases hidle with rfl | ⟨scope, depth, rfl⟩
  · exact ht
  · exact ht.setDepth scope depth

end ScopeHistory

namespace Forest

/-- The history of a forest tracks its store, whatever was done. -/
theorem tracks_act {w : Forest} (hw : w.history.Tracks w.store) (a : ScopeAct) :
    (w.act a).history.Tracks (w.act a).store := by
  have ha := a.outcome_perform w.store
  unfold act
  cases hr : a.perform w.store with
  | ok x τ =>
    rw [hr] at ha
    cases ha with
    | ok he => exact hw.record he
  | error e τ =>
    rw [hr] at ha
    cases ha with
    | error hidle => exact hw.idle hidle

theorem tracks_grow (acts : List ScopeAct) : (grow acts).history.Tracks (grow acts).store := by
  unfold grow
  -- the invariant is carried along the acts, from whatever forest they start
  suffices h : ∀ w : Forest, w.history.Tracks w.store →
      (acts.foldl act w).history.Tracks (acts.foldl act w).store
      from h empty ScopeHistory.tracks_empty
  induction acts with
  | nil => exact fun w hw => hw
  | cons a acts ih => exact fun w hw => ih _ (tracks_act hw a)

end Forest

/-! ## What a name stands for -/

namespace ScopeHistory

variable {h : ScopeHistory} {σ τ : Store}

theorem value?_eq_none_iff (h : ScopeHistory) (r : Nat) (name : String) :
    h.value? r name = none ↔ ∀ o ∈ h.chain r, h.defines name o = false := by
  rw [value?]
  cases ho : h.nearest? r name with
  | none =>
    rw [nearest?, find?_eq_none] at ho
    simpa using ho
  | some o =>
    obtain ⟨v, hv⟩ := exists_last_of_nearest ho
    have hdefines : h.defines name o = true := find?_some ho
    have hmem : o ∈ h.chain r := mem_of_find?_eq_some ho
    constructor
    · intro hnone
      simp [hv] at hnone
    · intro hall
      rw [hall o hmem] at hdefines
      cases hdefines

/-- A write to a variable that is there makes no new one, so all scopes stay the nearest ones that
they were. -/
theorem nearest?_write (ho : h.defines name o = true) (r : Nat) (key : String) :
    nearest? ⟨h.chains, ⟨o, name, v⟩ :: h.writes⟩ r key = h.nearest? r key := by
  have hdefines : defines ⟨h.chains, ⟨o, name, v⟩ :: h.writes⟩ key = h.defines key := by
    funext s
    rw [defines_eq_isSome, last?_write, defines_eq_isSome]
    split
    · next hs => rw [hs.1, hs.2, ← defines_eq_isSome, ho, Option.isSome_some]
    · rfl
  rw [nearest?, nearest?, hdefines]
  rfl

/-- What a name stands for after a write to the nearest scope that has it. -/
theorem value?_write (ho : h.nearest? r name = some o) (v : Value) (s : Nat) (key : String) :
    value? ⟨h.chains, ⟨o, name, v⟩ :: h.writes⟩ s key =
      if key = name ∧ h.nearest? s name = h.nearest? r name then some v else h.value? s key := by
  have hdefines : h.defines name o = true := find?_some ho
  rw [value?, nearest?_write hdefines, value?, ho]
  cases hs : h.nearest? s key with
  | none =>
    rw [if_neg]
    · rfl
    · rintro ⟨rfl, he⟩
      rw [hs] at he
      cases he
  | some p =>
    simp only [Option.bind_eq_bind, Option.bind_some, last?_write]
    by_cases hk : key = name
    · subst hk
      simp only [hs, Option.some.injEq, true_and, and_true]
    · rw [if_neg fun he => hk he.2, if_neg fun he => hk he.1]

end ScopeHistory

namespace ScopeAct

theorem perform_of_present {σ : Store} (h : scope < σ.scopes.size) (m : Eval ScopeAnswer) :
    (do demand scope; m : Eval ScopeAnswer) σ = m σ := by
  simp only [bind, EStateM.bind, demand_apply, if_neg (Nat.not_le.2 h)]

end ScopeAct

/-- Names in a forest of scopes mean what its history says. -/
structure Forest.IsLexical (w : Forest) : Prop where
  /-- A name stands for what was last written to it in the nearest scope that has it. -/
  lookup : ∀ r name, r < w.store.scopes.size →
    (ScopeAct.lookup r name).perform w.store = match w.history.value? r name with
      | some v => .ok (.value v) w.store
      | none => .error (.failure (.error (.undefined name))) w.store
  find : ∀ r name, r < w.store.scopes.size →
    (ScopeAct.find r name).perform w.store = match w.history.nearest? r name with
      | some o => .ok (.scope o) w.store
      | none => .error (.failure (.error (.undefined name))) w.store
  /-- It stands for nothing just if no scope on the way outwards has it. -/
  undefined : ∀ r name, w.history.value? r name = none ↔
      ∀ o ∈ w.history.chain r, w.history.defines name o = false
  /-- Setting a variable is seen wherever the nearest scope that has it is the same one, and nowhere
  else. -/
  assign : ∀ r name v x τ, (ScopeAct.assign r name v).perform w.store = .ok x τ →
    ∀ s key, s < w.store.scopes.size → τ.lookup s key =
      if key = name ∧ w.history.nearest? s name = w.history.nearest? r name then .ok v
        else w.store.lookup s key
  /-- An act that fails makes no scope and changes no variable. -/
  failed : ∀ (a : ScopeAct) e τ, a.perform w.store = .error e τ → τ.scopes.size =
      w.store.scopes.size ∧
    ∀ r, (τ.scope r).vars = (w.store.scope r).vars ∧ (τ.scope r).parent = (w.store.scope r).parent

namespace ScopeHistory.Tracks

variable {w : Forest} (ht : w.history.Tracks w.store)

include ht

theorem perform_lookup (hr : r < w.store.scopes.size) (name : String) :
    (ScopeAct.lookup r name).perform w.store = match w.history.value? r name with
      | some v => .ok (.value v) w.store
      | none => .error (.failure (.error (.undefined name))) w.store := by
  rw [ScopeAct.perform, ScopeAct.perform_of_present hr]
  simp only [bind, EStateM.bind, Eval.get_apply, ht.lookup name hr]
  cases w.history.value? r name with
  | none => rfl
  | some v => rfl

theorem perform_find (hr : r < w.store.scopes.size) (name : String) :
    (ScopeAct.find r name).perform w.store = match w.history.nearest? r name with
      | some o => .ok (.scope o) w.store
      | none => .error (.failure (.error (.undefined name))) w.store := by
  rw [ScopeAct.perform, ScopeAct.perform_of_present hr]
  simp only [bind, EStateM.bind, Eval.get_apply, ht.owner name hr]
  cases w.history.nearest? r name with
  | none => rfl
  | some o => rfl

theorem lookup_assigned {τ : Store} (he : (ScopeAct.assign r name v).Effect w.store τ) {s : Nat}
    (hs : s < w.store.scopes.size) (key : String) : τ.lookup s key =
      if key = name ∧ w.history.nearest? s name = w.history.nearest? r name then .ok v
        else w.store.lookup s key := by
  have hτ := ht.record he
  cases he with
  | @assign _ owner _ _ hr howner =>
    have hsize : (w.store.putVar owner name v).scopes.size = w.store.scopes.size :=
      size_modifyScope ..
    rw [ht.owner name hr] at howner
    rw [hτ.lookup key (hsize ▸ hs), ht.lookup key hs, ScopeHistory.record]
    cases ho : w.history.nearest? r name with
    | none =>
      rw [ho] at howner
      cases howner
    | some o =>
      dsimp only
      rw [ScopeHistory.value?_write ho, ho]
      by_cases hsame : key = name ∧ w.history.nearest? s name = some o
      · rw [if_pos hsame, if_pos hsame]
      · rw [if_neg hsame, if_neg hsame]

end ScopeHistory.Tracks

/-- **Scopes are lexical.** After any acts on a forest of scopes, also ones that failed, every name
stands for what was last written to it in the nearest scope, on the way outwards, that has it. -/
theorem scoping_is_lexical (acts : List ScopeAct) : (Forest.grow acts).IsLexical := by
  have ht := Forest.tracks_grow acts
  refine ⟨fun r name hr => ht.perform_lookup hr name, fun r name hr => ht.perform_find hr name,
    ScopeHistory.value?_eq_none_iff _, fun r name v x τ hok s key hs => ?_, fun a e τ herror => ?_⟩
  · have ha := (ScopeAct.assign r name v).outcome_perform (Forest.grow acts).store
    rw [hok] at ha
    cases ha with
    | ok he => exact ht.lookup_assigned he hs key
  · have ha := a.outcome_perform (Forest.grow acts).store
    rw [herror] at ha
    cases ha with
    | error hidle =>
      rcases hidle with rfl | ⟨scope, depth, rfl⟩
      · exact ⟨rfl, fun r => ⟨rfl, rfl⟩⟩
      · exact ⟨size_modifyScope .., fun r => ⟨vars_setDepth .., parent_setDepth ..⟩⟩

/-- A name that is looked up through two scopes, then set there, and only then gets a nearer
variable. -/
example :
    let w :=
      Forest.grow [.root (some 3), .init 0 "x" (.str "outer"), .child 0 ["y", "y"]
        [.null, .str "last"],
      .child 1 [] [], .lookup 2 "x", .assign 2 "x" (.str "set"), .init 1 "x" (.str "near"),
      .init 1 "x" .null, .child 2 [] []]
    w.history.value? 2 "x" = some (.str "near") ∧ w.history.value? 0 "x" = some (.str "set") ∧
      w.history.value? 2 "y" = some (.str "last") ∧ w.history.value? 2 "z" = none ∧
      w.store.scopes.size = 3 := by
  decide +kernel

end LittleJ
