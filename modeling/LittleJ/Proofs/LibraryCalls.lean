import LittleJ.Proofs.LibrarySteps

/-!
# Asking for a property

The function of the library that asks an object for a property of its own never gives an answer: it
hands three arguments to a function of two. This is so in every store in which the library is in
place.
-/

namespace LittleJ.StandardLibrary

open LittleJ.Bracket LittleJ.Parser Eval Expression

variable {p : Place} {σ : Store} {ctx : Context} {fuel : Nat} {s : String}

theorem print_strings {r : Nat} {ks : List String} (h : σ.array r = (ks.map Value.str).toArray) :
    σ.print (.arr r) = .ok ("[" ++ ", ".intercalate (ks.map quote) ++ "]") := by
  have hshown (n : Nat) (ks : List String) : (ks.map Value.str).mapM (σ.printWithin (n + 1)) =
      .ok (ks.map quote) := by
    induction ks with
    | nil => rfl
    | cons k ks ih =>
      rw [List.map_cons, List.mapM_cons, ih]
      rfl
  rw [Store.print, Store.nesting, Store.printWithin, h, List.toList_toArray, hshown]
  rfl

/-- The variables of the call. -/
def asked (o : Nat) (s : String) : Table Value :=
  [("o", .obj o), ("s", .str s)]

section

variable {d : Int} {c o : Nat} {a : Array (Array Value)} (hl : Loaded p σ)

include hl

/-- The keys of an object are a new array. -/
theorem evaluate_keys (vars : Table Value) : evaluate ctx (fuel + 2) σ.scopes.size
      [.val (.native .keys), .sym .lparen, .val (.obj o), .sym .rparen] (p.frame σ d vars c a) =
    .ok (.arr a.size) (p.frame σ d vars c (a.push ((σ.object o).keys.map Value.str).toArray)) := by
  have hargument :
      elements (evaluate ctx (fuel + 1) σ.scopes.size) [[.val (.obj o)]] (p.frame σ d vars c a) =
      .ok [.obj o] (p.frame σ d vars c a) :=
    elements_single (List.cons_ne_nil _ _) (evaluate_value ctx fuel σ.scopes.size rfl rfl)
  have hkeys : Native.call .keys [.obj o] (p.frame σ d vars c a) = .ok (.arr a.size)
    (p.frame σ d vars c (a.push ((σ.object o).keys.map Value.str).toArray)) := native_ok rfl rfl rfl
  have hparts : ∀ part ∈ [[Token.val (.obj o)]], Clear (·.is .comma) part ∧ part ≠ [] := by
    simpa using clear_of_clears rfl
  rw [evaluate_native hl rfl rfl rfl rfl hparts rfl rfl, bind_of_ok hargument, bind_of_ok hkeys]
  rfl

/-- The question is put to another function, with the keys of the object. -/
theorem evaluate_question {q : Nat} (hq : (σ.object p.array).get? "index" = some (.fn q))
    (hs : Plain s) {stop : Stop} {τ : Store}
    (hcall : call ctx (fuel + 2) σ.scopes.size q [.arr a.size, .str s, .null]
      (p.frame σ d (asked o s) c (a.push ((σ.object o).keys.map Value.str).toArray)) =
        .error stop τ) :
    evaluate ctx (fuel + 3) σ.scopes.size (invoke "array" "index"
        [[.name "keys", .sym .lparen, .name "o", .sym .rparen], [.name "s"], [.val .null]] ++
      [.sym .differs, .sym .minus, Workload.numberToken 1]) (p.frame σ d (asked o s) c a) =
      .error stop τ := by
  obtain ⟨F, hF⟩ : ∃ F, F = p.frame σ d (asked o s) c a := ⟨_, rfl⟩
  have hkey : evaluate ctx (fuel + 2) σ.scopes.size [.val (.str "index")] F =
      .ok (.str "index") F :=
    evaluate_scalar ctx (fuel + 1) _ (.str "index") _
  have hindex : refine (.obj p.array) (.str "index") F = .ok (.fn q) F := by
    rw [refine, get_bind]
    dsimp only
    rw [hF, object_frame, hq]
    rfl
  let args : List Expr := [[.val (.native .keys), .sym .lparen, .val (.obj o), .sym .rparen],
      [.val (.str s)], [.val .null]]
  have hparts : ∀ part ∈ args, Clear (·.is .comma) part ∧ part ≠ [] := by
    simp only [args, List.forall_mem_cons]
    exact ⟨⟨clear_of_clears rfl, by simp⟩, ⟨.cons hs.not_bracket rfl .nil, by simp⟩,
      ⟨clear_of_clears rfl, by simp⟩, by simp⟩
  have hargs : elements (evaluate ctx (fuel + 2) σ.scopes.size) args F =
      .ok [.arr a.size, .str s, .null] _ :=
    elements_cons (List.cons_ne_nil _ _) (hF ▸ evaluate_keys hl _)
      (elements_cons (List.cons_ne_nil _ _)
        (evaluate_scalar ctx (fuel + 1) σ.scopes.size (.str s) _)
        (elements_single (List.cons_ne_nil _ _)
          (evaluate_scalar ctx (fuel + 1) σ.scopes.size .null _)))
  have hts :
      (invoke "array" "index" [[.name "keys", .sym .lparen, .name "o", .sym .rparen], [.name "s"],
        [.val .null]] ++
      [.sym .differs, .sym .minus, Workload.numberToken 1]).map
      (Token.named (p.value (asked o s))) =
    .val (.obj p.array) :: .sym .lbracket ::
    ([.val (.str "index")] ++ .sym .rbracket :: .sym .lparen ::
      (joined args ++ .sym .rparen :: [.sym .differs, .sym .minus, Workload.numberToken 1])) := rfl
  rw [← hF, evaluate_frame hl hF rfl hts rfl rfl]
  refine bind_of_error ?_ _
  rw [applyFrom_val, applyFrom_key rfl (clear_of_clears rfl) (List.cons_ne_nil _ _),
    bind_of_ok hkey, bind_of_ok hindex, applyFrom_arguments rfl hparts, bind_of_ok hargs]
  exact bind_of_error hcall _

end

/-- **Asking an object for a property of its own always fails**, whether or not it has the property.
-/
theorem hasOwnProperty_refused (hl : Loaded p σ) {r : Nat}
    (hr : (σ.object p.object).get? "hasOwnProperty" = some (.fn r)) (o : Nat) (hs : Plain s)
    (caller : Nat) :
    ∃ τ, call ctx (fuel + 5) caller r [.obj o, .str s] σ =
      .error
      (.failure
        (.error
          (.argumentCount
            (", ".intercalate ["[" ++ ", ".intercalate ((σ.object o).keys.map quote) ++ "]",
              quote s, "null"])))) τ := by
  have hmember : arrayIndexRoutine ∈ routines := by simp [routines]
  obtain ⟨q, hq⟩ : ∃ q, (σ.object p.array).get? "index" = some (.fn q) := exists_property hl hmember
  obtain ⟨_, hindex⟩ := exists_routine hl hmember hq
  obtain ⟨d, hcall⟩ := @call_eq_body p σ ctx (fuel + 4) hl hasOwnPropertyRoutine
      (by simp [routines]) r hr
    [.obj o, .str s] rfl caller
  -- the keys are a new array, and then the three arguments are refused
  let τ := p.frame σ d (asked o s) σ.clock (σ.arrays.push ((σ.object o).keys.map Value.str).toArray)
  have hrefused := @call_refused τ ctx (fuel + 1) q σ.scopes.size
      [.arr σ.arrays.size, .str s, .null]
    ["[" ++ ", ".intercalate ((σ.object o).keys.map quote) ++ "]", quote s, "null"]
    (by
      show 3 ≠ (σ.closure q).function.params.length
      rw [hindex]
      exact Nat.succ_ne_self 2)
    (by
      rw [List.mapM_cons, @print_strings τ _ (σ.object o).keys (by simp [τ, array_frame])]
      rfl)
  refine ⟨τ, hcall.trans ?_⟩
  have hanswer := exec_ret_error (by simp [invoke, joined, Workload.numberToken])
      (evaluate_question hl hq hs hrefused)
  have hbody : runAll _ hasOwnPropertyRoutine.body (p.frame σ d (asked o s) σ.clock σ.arrays) = _ :=
    runAll_cons_error hanswer
  show Statement.returned _ (p.frame σ d (asked o s) σ.clock σ.arrays) = _
  rw [Statement.returned, hbody]

/-- In a library that was just run, it fails for a property that the object has. -/
theorem hasOwnProperty_refused_slice : ∃ σ r τ text, Loaded ⟨0, 1, 1, 2, 3⟩ σ ∧
    ((σ.object 1).get? "slice").isSome ∧
    call ⟨none, false, 0⟩ 5 0 r [.obj 1, .str "slice"] σ =
      .error (.failure (.error (.argumentCount text))) τ := by
  obtain ⟨_, σ, _, _, hl⟩ := exists_loaded
  obtain ⟨r, hr⟩ := @exists_property _ _ hl hasOwnPropertyRoutine (by simp [routines])
  obtain ⟨q, hq⟩ := @exists_property _ _ hl stringSlicing.routine (by simp [routines])
  obtain ⟨τ, hτ⟩ := @hasOwnProperty_refused _ σ ⟨none, false, 0⟩ 0 "slice" hl r hr 1
      (by simp [Plain]) 0
  exact ⟨σ, r, τ, _, hl, Option.isSome_iff_exists.2 ⟨_, hq⟩, hτ⟩

end LittleJ.StandardLibrary
