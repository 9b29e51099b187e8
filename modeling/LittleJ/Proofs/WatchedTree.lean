import LittleJ.Proofs.WatchedRun

/-!
# Kept trees under a watch

A kept tree is run as a program is, but its expressions live in slots that remember values of
earlier runs. A tree is therefore run only under watches that allow all values to be held. The code
of its loops is code like any other, and it is the same in a tree, in the program it was kept from,
and in its copies.
-/

namespace LittleJ

open Layer Kept List

mutual

/-- The codes of the loops in a kept statement. -/
def Kept.loops : Kept → List Program
  | .ladder arms => loopsOfArms arms
  | .loop _ code => [code]
  | _ => []

/-- The codes of the loops in a kept tree. -/
def Kept.loopsOfTree : List Kept → List Program
  | [] => []
  | k :: ks => k.loops ++ loopsOfTree ks

/-- The codes of the loops in the arms of a kept ladder. -/
def Kept.loopsOfArms : List (Nat × List Kept) → List Program
  | [] => []
  | (_, code) :: arms => loopsOfTree code ++ loopsOfArms arms

end

namespace Watch

variable {g : Watch} {place : Option Bool} {scope : Nat} {l₁ l₂ : Layer} {ctx : Context}

theorem Beside.slotValue (h : g.Beside l₁ l₂) (hg : g.Quiet) (hvalues : ∀ v, g.value v)
    (hscope : g.active scope) (slot : Nat) :
    g.Runs place (l₁.slotValue scope slot) (l₂.slotValue scope slot) := by
  unfold Layer.slotValue
  refine .read fun σ hσ => ?_
  refine (?_ : g.Runs place _ _) σ hσ
  refine .bind (resolveWith hscope (fun _ => .modify fun _ _ => .setSlot) fun v _ => hvalues v)
    fun ts hts => ?_
  have hreduce : g.Keeps place g.value _ _ := h.reduce hscope hts
  rw [hg.reduceUnder] at hreduce
  exact .bind hreduce fun v _ => .pure trivial

mutual

theorem Beside.execKept (h : g.Beside l₁ l₂) (hg : g.Quiet) (hvalues : ∀ v, g.value v)
    (hloose : g.loose) (hscope : g.active scope) (k : Kept)
    (hk : ∀ code ∈ k.loops, ∀ s ∈ code, g.stmt true s) :
    g.Runs (some false) (Layer.execKept ctx l₁ scope k) (Layer.execKept ctx l₂ scope k) := by
  have heval : ∀ e, g.tokens e → g.Keeps none g.value (l₁.evaluate scope e) (l₂.evaluate scope e) :=
    fun _ he => h.evaluate hscope he
  cases k with
  | init name slot =>
    rw [Layer.execKept, Layer.execKept]
    exact .bind (h.slotValue hg hvalues hscope slot) fun r _ => initialise name hscope (hvalues r.2)
  | assign target value =>
    rw [Layer.execKept, Layer.execKept]
    refine .bind (h.slotValue hg hvalues hscope value) fun r _ => .read fun σ hσ => ?_
    refine assign (P := g.value) heval hscope (fun v _ => hvalues v) (hvalues r.2) ?_ r.1 σ hσ
    exact .bind (h.slotValue hg hvalues hscope target) fun r _ => .pure (hvalues r.2)
  | ladder arms =>
    rw [Layer.execKept, Layer.execKept]
    exact h.climbKept hg hvalues hloose hscope arms hk
  | loop condition code =>
    rw [Layer.execKept, Layer.execKept]
    refine .read fun σ hσ => ?_
    refine (?_ : g.Runs (some false) _ _) σ hσ
    refine loop _ _ (.bind (heval _ fun v _ => hvalues v).inBody fun v _ => .truth) ?_
    exact h.runAll hscope (hk code (by simp [Kept.loops]))
  | ret slot =>
    rw [Layer.execKept, Layer.execKept]
    exact .bind (h.slotValue hg hvalues hscope slot) fun r _ => .throw ⟨rfl, hvalues r.2⟩
  | brk =>
    rw [Layer.execKept, Layer.execKept]
    exact .throw (Or.inr hloose)
  | exp slot =>
    rw [Layer.execKept, Layer.execKept]
    exact .bind (h.slotValue hg hvalues hscope slot) fun r _ => echo _ r.2

theorem Beside.execTree (h : g.Beside l₁ l₂) (hg : g.Quiet) (hvalues : ∀ v, g.value v)
    (hloose : g.loose) (hscope : g.active scope) (ks : List Kept)
    (hks : ∀ code ∈ Kept.loopsOfTree ks, ∀ s ∈ code, g.stmt true s) :
    g.Runs (some false) (Layer.execTree ctx l₁ scope ks) (Layer.execTree ctx l₂ scope ks) := by
  cases ks with
  | nil =>
    rw [Layer.execTree, Layer.execTree]
    exact .pure trivial
  | cons k rest =>
    rw [Layer.execTree, Layer.execTree]
    simp only [Kept.loopsOfTree, List.forall_mem_append] at hks
    exact .bind (h.execKept hg hvalues hloose hscope k hks.1) fun _ _ =>
      h.execTree hg hvalues hloose hscope rest hks.2

theorem Beside.climbKept (h : g.Beside l₁ l₂) (hg : g.Quiet) (hvalues : ∀ v, g.value v)
    (hloose : g.loose) (hscope : g.active scope) (arms : List (Nat × List Kept))
    (harms : ∀ code ∈ Kept.loopsOfArms arms, ∀ s ∈ code, g.stmt true s) :
    g.Runs (some false) (Layer.climbKept ctx l₁ scope arms)
    (Layer.climbKept ctx l₂ scope arms) := by
  cases arms with
  | nil =>
    rw [Layer.climbKept, Layer.climbKept]
    exact .pure trivial
  | cons arm arms =>
    obtain ⟨slot, code⟩ := arm
    rw [Layer.climbKept, Layer.climbKept]
    simp only [Kept.loopsOfArms, List.forall_mem_append] at harms
    refine .bind (h.slotValue hg hvalues hscope slot) fun r _ => .bind .truth fun b _ => ?_
    exact .ite (fun _ => h.execTree hg hvalues hloose hscope code harms.1) fun _ =>
      h.climbKept hg hvalues hloose hscope arms harms.2

end

/-! ## Making and copying trees -/

theorem keepExpr {e : Expr} (he : g.tokens e) (hf : ∀ f, Token.func f ∈ e → g.function f) :
    g.Runs place (Kept.keepExpr e) (Kept.keepExpr e) :=
  .bind (load he hf) fun _ _ => .make fun _ _ => ⟨trivial, .newSlot⟩

/-- Statements as `W` says may be kept: the watch allows their expressions, and their blocks have
only such statements. -/
structure Keepable (g : Watch) (W : Stmt → Prop) : Prop where
  blocks : ∀ {s : Stmt} {b : Program} {t : Stmt}, W s → b ∈ s.blocks → t ∈ b → W t
  values : ∀ {s : Stmt}, W s → ∀ e ∈ s.exprs, g.tokens e
  functions : ∀ {s : Stmt}, W s → ∀ e ∈ s.exprs, ∀ f, Token.func f ∈ e → g.function f

variable {W : Stmt → Prop}

mutual

theorem ofStmt (h : g.Keepable W) (s : Stmt) (hs : W s) :
    g.Keeps place (fun k => ∀ code ∈ k.loops, ∀ u ∈ code, W u) (Kept.ofStmt s) (Kept.ofStmt s) := by
  have hkeep : ∀ e ∈ s.exprs, g.Runs place (Kept.keepExpr e) (Kept.keepExpr e) :=
    fun e he => keepExpr (h.values hs e he) (h.functions hs e he)
  cases s with
  | init name e =>
    rw [Kept.ofStmt]
    exact .bind (hkeep e (by simp [Stmt.exprs])) fun _ _ => .pure (by simp [loops])
  | assign target e =>
    rw [Kept.ofStmt]
    refine .bind (hkeep target (by simp [Stmt.exprs])) fun _ _ => ?_
    exact .bind (hkeep e (by simp [Stmt.exprs])) fun _ _ => .pure (by simp [loops])
  | ladder arms =>
    rw [Kept.ofStmt]
    refine .bind (ofArms h arms (fun a ha => hkeep a.1 (mem_map_of_mem ha)) fun a ha u hu =>
      h.blocks hs (mem_map_of_mem ha) hu) fun ks hks => .pure ?_
    rwa [loops]
  | loop condition code =>
    rw [Kept.ofStmt]
    refine .bind (hkeep condition (by simp [Stmt.exprs])) fun _ _ => .pure ?_
    rw [loops]
    exact List.forall_mem_singleton.2 fun u hu => h.blocks hs (mem_singleton_self _) hu
  | ret e =>
    rw [Kept.ofStmt]
    exact .bind (hkeep e (by simp [Stmt.exprs])) fun _ _ => .pure (by simp [loops])
  | brk =>
    rw [Kept.ofStmt]
    exact .pure (by simp [loops])
  | exp e =>
    rw [Kept.ofStmt]
    exact .bind (hkeep e (by simp [Stmt.exprs])) fun _ _ => .pure (by simp [loops])

/-- A tree is kept of statements as `W` says, and its loops have only such statements. -/
theorem ofProgram (h : g.Keepable W) (p : Program) (hp : ∀ s ∈ p, W s) :
    g.Keeps place (fun ks => ∀ code ∈ loopsOfTree ks, ∀ u ∈ code, W u) (Kept.ofProgram p)
      (Kept.ofProgram p) := by
  cases p with
  | nil =>
    rw [Kept.ofProgram]
    exact .pure (by simp [loopsOfTree])
  | cons s rest =>
    rw [Kept.ofProgram]
    obtain ⟨hs, hrest⟩ := List.forall_mem_cons.1 hp
    refine .bind (ofStmt h s hs) fun k hk => .bind (ofProgram h rest hrest) fun ks hks => .pure ?_
    rw [loopsOfTree]
    exact List.forall_mem_append.2 ⟨hk, hks⟩

theorem ofArms (h : g.Keepable W) (arms : List (Expr × Program))
    (hkeep : ∀ a ∈ arms, g.Runs place (Kept.keepExpr a.1) (Kept.keepExpr a.1))
    (harms : ∀ a ∈ arms, ∀ s ∈ a.2, W s) :
    g.Keeps place (fun ks => ∀ code ∈ loopsOfArms ks, ∀ u ∈ code, W u) (Kept.ofArms arms)
      (Kept.ofArms arms) := by
  cases arms with
  | nil =>
    rw [Kept.ofArms]
    exact .pure (by simp [loopsOfArms])
  | cons arm arms =>
    obtain ⟨condition, code⟩ := arm
    rw [Kept.ofArms]
    obtain ⟨hcondition, hkeep⟩ := List.forall_mem_cons.1 hkeep
    obtain ⟨hcode, harms⟩ := List.forall_mem_cons.1 harms
    refine .bind hcondition fun _ _ => .bind (ofProgram h code hcode) fun ks hks => ?_
    refine .bind (ofArms h arms hkeep harms) fun ks' hks' => .pure ?_
    rw [loopsOfArms]
    exact List.forall_mem_append.2 ⟨hks, hks'⟩

end

theorem mapM {α β : Type} {f : α → Eval β} (hf : ∀ a, g.Runs place (f a) (f a)) (as : List α) :
    g.Runs place (as.mapM f) (as.mapM f) := by
  induction as with
  | nil =>
    rw [mapM_nil]
    exact .pure trivial
  | cons a as ih =>
    rw [mapM_cons]
    exact .bind (hf a) fun _ _ => .bind ih fun _ _ => .pure trivial

theorem copyValue (fuel : Nat) (v : Value) :
    free.Runs place (Kept.copyValue fuel v) (Kept.copyValue fuel v) := by
  induction fuel generalizing v with
  | zero => exact .breakdown
  | succ fuel ih =>
    unfold Kept.copyValue
    split
    · refine .read fun σ hσ => ?_
      refine Keeps.bind (mapM ih _) (fun copied _ => ?_) σ hσ
      exact .bind (newArray fun v _ => Region.value_whole v) fun _ _ => .pure trivial
    · refine .read fun σ hσ => ?_
      refine (?_ : free.Runs place _ _) σ hσ
      refine .bind (P := fun _ => True) (.make fun _ _ => ?_) fun _ _ => .pure trivial
      exact ⟨trivial, .newClosure trivial⟩
    · exact .pure trivial

theorem copyAllTokens (depth : Nat) (ts : List Token) :
    free.Runs place (Kept.copyAllTokens depth ts) (Kept.copyAllTokens depth ts) := by
  induction ts with
  | nil => exact .pure trivial
  | cons t ts ih =>
    cases t with
    | val v => exact .bind (copyValue depth v) fun _ _ => .bind ih fun _ _ => .pure trivial
    | _ => exact .bind ih fun _ _ => .pure trivial

theorem copySlot (slot : Nat) : free.Runs place (Kept.copySlot slot) (Kept.copySlot slot) := by
  unfold Kept.copySlot copyTokens
  refine .read fun σ hσ => ?_
  refine (?_ : free.Runs place _ _) σ hσ
  refine .bind (.read fun τ hτ => copyAllTokens _ _ τ hτ) fun ts _ => ?_
  exact .make fun _ _ => ⟨trivial, .newSlot⟩

mutual

theorem copy (k : Kept) :
    free.Keeps place (fun k' => k'.loops = k.loops) (Kept.copy k) (Kept.copy k) := by
  cases k with
  | init name slot =>
    rw [Kept.copy]
    exact .bind (copySlot slot) fun _ _ => .pure (by simp only [loops])
  | assign target value =>
    rw [Kept.copy]
    refine .bind (copySlot target) fun _ _ => .bind (copySlot value) fun _ _ => ?_
    exact .pure (by simp only [loops])
  | ladder arms =>
    rw [Kept.copy]
    exact .bind (copyArms arms) fun _ h => .pure (by rw [loops, loops, h])
  | loop condition code =>
    rw [Kept.copy]
    exact .bind (copySlot condition) fun _ _ => .pure (by rw [loops, loops])
  | ret slot =>
    rw [Kept.copy]
    exact .bind (copySlot slot) fun _ _ => .pure (by simp only [loops])
  | brk =>
    rw [Kept.copy]
    exact .pure rfl
  | exp slot =>
    rw [Kept.copy]
    exact .bind (copySlot slot) fun _ _ => .pure (by simp only [loops])

/-- A copy of a tree has the same loops. -/
theorem copyAll (ks : List Kept) :
    free.Keeps place (fun ks' => loopsOfTree ks' = loopsOfTree ks) (Kept.copyAll ks)
      (Kept.copyAll ks) := by
  cases ks with
  | nil =>
    rw [Kept.copyAll]
    exact .pure rfl
  | cons k rest =>
    rw [Kept.copyAll]
    refine .bind (copy k) fun _ h => .bind (copyAll rest) fun _ h' => .pure ?_
    rw [loopsOfTree, loopsOfTree, h, h']

theorem copyArms (arms : List (Nat × List Kept)) :
    free.Keeps place (fun arms' => loopsOfArms arms' = loopsOfArms arms) (Kept.copyArms arms)
      (Kept.copyArms arms) := by
  cases arms with
  | nil =>
    rw [Kept.copyArms]
    exact .pure rfl
  | cons arm arms =>
    obtain ⟨slot, code⟩ := arm
    rw [Kept.copyArms]
    refine .bind (copySlot slot) fun _ _ => .bind (copyAll code) fun _ h => ?_
    refine .bind (copyArms arms) fun _ h' => .pure ?_
    rw [loopsOfArms, loopsOfArms, h, h']

end

end Watch

end LittleJ
