import LittleJ.Proofs.BoundNumber
import LittleJ.Proofs.Library
import LittleJ.Proofs.PassedArgument
import LittleJ.Proofs.Selection

/-!
# Running the functions of the library

A call of a function of the library runs its body in a scope of its own. All that is known of the
store then is this scope, the names of the global scope and the arrays. This module has one rule for
each form of expression and statement in the bodies: what it comes to in such a store, and how it
leaves the variables.
-/

namespace LittleJ

open LittleJ.Bracket LittleJ.Parser Eval Operator Expression Statement

/-! ## Expressions with values for names -/

namespace Expression

variable {eval : Expr → Eval Value} {call : Nat → List Value → Eval Value}
    {σ ρ τ : Store} {v : Value}

/-- Tokens that hold no literal: every square bracket selects a part. -/
def selecting : Option Token → List Token → Bool
  | _, [] => true
  | before, t :: ts =>
    !t.is .lbrace && !(t.is .lbracket && !selects before) && selecting (some t) ts

theorem literals_of_selecting {ts : List Token} (h : selecting none ts = true) :
    literals eval ts = pure ts := by
  have hfrom (ts done : List Token) (h : selecting done.head? ts = true) :
      literalsFrom eval done 0 ts = pure (done.reverse ++ ts) := by
    induction ts generalizing done with
    | nil => simp [literalsFrom]
    | cons t ts ih =>
      simp only [selecting, Bool.and_eq_true, Bool.not_eq_true'] at h
      obtain ⟨⟨hbrace, hbracket⟩, hts⟩ := h
      rw [literalsFrom_push hbrace hbracket, ih (t :: done) hts]
      simp
  exact hfrom ts [] h

/-- Arguments are evaluated from left to right. -/
theorem elements_cons {part : Expr} {parts : List Expr} {vs : List Value} (hne : part ≠ [])
    (h : eval part σ = .ok v ρ) (hparts : elements eval parts ρ = .ok vs τ) :
    elements eval (part :: parts) σ = .ok (v :: vs) τ := by
  have hempty : part.isEmpty = false := by simpa using hne
  rw [elements, hempty]
  show (eval part >>= _) σ = _
  rw [bind_of_ok h, bind_of_ok hparts]
  rfl

theorem elements_error {part : Expr} {parts : List Expr} {stop : Stop} (hne : part ≠ [])
    (h : eval part σ = .error stop τ) : elements eval (part :: parts) σ = .error stop τ := by
  have hempty : part.isEmpty = false := by simpa using hne
  rw [elements, hempty]
  exact bind_of_error h _

theorem elements_cons_error {part : Expr} {parts : List Expr} {stop : Stop} (hne : part ≠ [])
    (h : eval part σ = .ok v ρ) (hparts : elements eval parts ρ = .error stop τ) :
    elements eval (part :: parts) σ = .error stop τ := by
  have hempty : part.isEmpty = false := by simpa using hne
  rw [elements, hempty]
  show (eval part >>= _) σ = _
  rw [bind_of_ok h, bind_of_error hparts]

/-- Two scalars and an operator between them. -/
theorem valueOf_operation (heval : ∀ (v : Scalar) σ, eval [.val v.value] σ = .ok v.value σ)
    (op : Binary) (v w : Scalar) {u : Scalar} (hu : op.apply v w = some u) :
    Operator.valueOf eval [.val v.value, .sym op.symbol, .val w.value] σ = .ok u.value σ := by
  have hproper : u.value.isProper = true := by cases u <;> rfl
  have hsettle : settle eval [.val v.value, .sym op.symbol, .val w.value] σ =
      .ok (.val u.value) σ := by
    rcases yields_settle_binary heval op v w σ with ⟨_, hok, u', hu', rfl⟩ | ⟨_, hnone⟩
    · rw [hu] at hu'
      cases hu'
      exact hok
    · rw [hu] at hnone
      cases hnone
  rw [Operator.valueOf, bind_of_ok hsettle]
  dsimp only
  rw [hproper]
  rfl

end Expression

/-! ## The store in a call -/

/-- A variable two scopes further out. -/
theorem Store.lookup_third {σ : Store} {r p g : Nat} {name : String} {v : Value}
    (hown : (σ.scope r).vars.get? name = none) (hr : (σ.scope r).parent = some p)
    (hnone : (σ.scope p).vars = []) (hp : (σ.scope p).parent = some g) (hgp : g < p) (hpr : p < r)
    (h : (σ.scope g).vars.get? name = some v) :
    σ.lookup r name = .ok v := by
  obtain ⟨n, rfl⟩ : ∃ n, r = n + 2 := ⟨r - 2, by omega⟩
  refine lookup_of_owner (p := g) ?_ h
  simp [owner, ownerFrom, Table.has, hown, hr, hnone, hp, h, Table.get?]

theorem Table.get?_append {α : Type} (t u : Table α) (key : String) :
    (t ++ u : Table α).get? key = (t.get? key).or (u.get? key) := by
  induction t with
  | nil => rfl
  | cons e t ih =>
    rw [List.cons_append, get?, get?]
    split
    · rfl
    · exact ih

namespace StandardLibrary

open Workload (numberToken)

/-- The store in a call of a function of the library that was called in the store `σ`. -/
def Place.frame (p : Place) (σ : Store) (depth : Int) (vars : Table Value) (clock : Nat)
    (arrays : Array (Array Value)) : Store :=
  { (σ.newScope ⟨vars, some p.home, depth, none⟩).2 with clock, arrays }

/-- What the functions of the library see: their own variables and the names of the global scope. -/
def Place.value (p : Place) (vars : Table Value) (name : String) : Value :=
  ((vars ++ p.names : Table Value).get? name).getD .null

/-- A token that a function of the library may hold: no brace, no function, and no name that it
cannot see. -/
def Place.knows (p : Place) (vars : Table Value) : Token → Bool
  | .name x => (vars ++ p.names : Table Value).has x
  | .sym y => y != .lbrace && y != .rbrace
  | .val (.fn _) | .func _ => false
  | _ => true

variable {p : Place} {σ : Store} {d : Int} {vars : Table Value} {c : Nat} {a : Array (Array Value)}
    {name : String} {v : Value} {ctx : Context} {fuel : Nat} {e : Expr} {s : String}

theorem scope_frame (q : Nat) : (p.frame σ d vars c a).scope q =
    if q = σ.scopes.size then ⟨vars, some p.home, d, none⟩ else σ.scope q :=
  Store.scope_newScope σ _ q

theorem array_frame (r : Nat) : (p.frame σ d vars c a).array r = a.getD r #[] :=
  rfl

theorem object_frame (r : Nat) : (p.frame σ d vars c a).object r = σ.object r :=
  rfl

theorem lookup_frame (hl : Loaded p σ) (h : (vars ++ p.names : Table Value).has name = true) :
    (p.frame σ d vars c a).lookup σ.scopes.size name = .ok (p.value vars name) := by
  obtain ⟨v, hv⟩ := Option.isSome_iff_exists.1 h
  rw [Place.value, hv]
  rw [Table.get?_append] at hv
  have hscope : (p.frame σ d vars c a).scope σ.scopes.size = _ := (scope_frame _).trans (if_pos rfl)
  have houter (q : Nat) (hq : q < σ.scopes.size) : (p.frame σ d vars c a).scope q = σ.scope q :=
    (scope_frame q).trans (if_neg hq.ne)
  cases hown : vars.get? name with
  | some w =>
    rw [hown] at hv
    cases hv
    exact Store.lookup_own (hscope ▸ hown)
  | none =>
    rw [hown, Option.none_or] at hv
    exact Store.lookup_third (hscope ▸ hown) (by rw [hscope]) (houter _ hl.made ▸ hl.vars)
      (houter _ hl.made ▸ hl.parent) hl.outer hl.made
      (houter _ (hl.outer.trans hl.made) ▸ hl.names _ (Table.mem_of_get? hv))

theorem owner_frame (h : vars.has name = true) :
    (p.frame σ d vars c a).owner σ.scopes.size name = .ok σ.scopes.size := by
  obtain ⟨v, hv⟩ := Option.isSome_iff_exists.1 h
  exact Store.owner_own (by rw [scope_frame, if_pos rfl, hv])

theorem putVar_frame : (p.frame σ d vars c a).putVar σ.scopes.size name v =
    p.frame σ d (vars.put name v) c a := by
  simp only [Store.putVar, Store.modifyScope, Place.frame, Store.newScope, modify_push]

theorem resolve_frame (hl : Loaded p σ) (he : e.all (p.knows vars) = true) :
    Expression.resolve σ.scopes.size e (p.frame σ d vars c a) =
      .ok (e.map (Token.named (p.value vars))) (p.frame σ d vars c a) := by
  rw [List.all_eq_true] at he
  have hbrace (t : Token) (ht : t ∈ e) : t.is .lbrace = false ∧ t.is .rbrace = false := by
    have hk := he t ht
    cases t <;> simp_all [Place.knows, Token.is]
  have hfn (r : Nat) : .val (.fn r) ∉ e := fun hr => by simpa [Place.knows] using he _ hr
  rw [Expression.resolve_eq_map hbrace fun s hs => lookup_frame hl (he (.name s) hs),
    Expression.adoptAll_of_none hfn]

/-! ## Calls and rounds -/

theorem exists_property (hl : Loaded p σ) {f : Routine} (hf : f ∈ routines) :
    ∃ r, (σ.object (f.object p)).get? f.property = some (.fn r) := by
  have h := hl.routines f hf
  rw [Place.has] at h
  split at h
  · exact ⟨_, ‹_›⟩
  · cases h

theorem exists_routine (hl : Loaded p σ) {f : Routine} (hf : f ∈ routines) {r : Nat}
    (hr : (σ.object (f.object p)).get? f.property = some (.fn r)) :
    ∃ source, σ.closure r = ⟨.mk f.params f.body source, some p.home⟩ := by
  have h := hl.routines f hf
  rw [Place.has, hr] at h
  rcases hc : σ.closure r with ⟨⟨params, body, source⟩, home⟩
  simp only [hc, Bool.and_eq_true, beq_iff_eq] at h
  obtain ⟨⟨rfl, rfl⟩, hbody⟩ := h
  obtain rfl := eq_of_same.2.2.1 _ _ hbody
  exact ⟨source, rfl⟩

/-- A call runs the body in a scope of its own. -/
theorem call_eq_body (hl : Loaded p σ) {f : Routine} (hf : f ∈ routines) {r : Nat}
    (hr : (σ.object (f.object p)).get? f.property = some (.fn r)) {args : List Value}
    (hlength : f.params.length = args.length) (caller : Nat) :
    ∃ d, call ctx (fuel + 1) caller r args σ =
      Statement.returned (runAll (exec ctx fuel σ.scopes.size) f.body)
        (p.frame σ d (Table.putAll (f.params.zip args) []) σ.clock σ.arrays) := by
  obtain ⟨source, hclosure⟩ := exists_routine hl hf hr
  obtain ⟨inner, hinner⟩ :
      ∃ inner : Scope, inner = ⟨Table.putAll (f.params.zip args) [], some p.home,
    (σ.scope p.home).depth + 1, none⟩ := ⟨_, rfl⟩
  have hchild : σ.childScope p.home f.params args = .ok inner := by
    simp [Store.childScope, hlength, hl.limit, Store.tooDeep, hinner]
  refine ⟨((σ.newScope inner).2.scope caller).depth + 1, ?_⟩
  rw [call_of_home (by rw [hclosure]; exact hlength.symm) (congrArg Closure.home hclosure),
    hclosure]
  refine Eval.bind_of_ok ?_ _
  show Statement.enter caller p.home f.params args σ = _
  rw [Statement.enter_eq, hchild]
  dsimp only
  rw [Store.setDepth_newScope, Store.atLimit, Store.scope_newScope, if_pos rfl, hinner]
  rfl

/-- A call with a wrong number of arguments is refused. -/
theorem call_refused {r caller : Nat} {args : List Value} {shown : List String}
    (hlength : args.length ≠ (σ.closure r).function.params.length)
    (hshown : args.mapM σ.print = .ok shown) :
    call ctx (fuel + 1) caller r args σ =
      .error (.failure (.error (.argumentCount (", ".intercalate shown)))) σ := by
  simp [call, hlength, Statement.shownArguments, hshown, Eval.raise, Eval.ofFault, bind,
    EStateM.bind, pure,
    EStateM.pure, get, getThe, MonadStateOf.get, EStateM.get, throw, throwThe, MonadExceptOf.throw,
    EStateM.throw]

/-- One round of a loop. -/
def turn (ctx : Context) (fuel scope : Nat) (e : Expr) (code : Program) : Eval Bool :=
  Statement.round none 0 (do Eval.truth (← evaluate ctx fuel scope e))
  (runAll (exec ctx fuel scope) code)

/-- A loop whose first rounds lead from one set of variables to the next. -/
theorem exec_loop (hlimit : ctx.loopLimit = none) (he : ∀ f, .func f ∉ e) {code : Program}
    {vars : Nat → Table Value} {arrays : Nat → Array (Array Value)} {n rounds : Nat}
    (hrounds : ctx.rounds = n + rounds) (h : ∀ k < n, turn ctx fuel σ.scopes.size e code
      (p.frame σ d (vars k) (c + 1) (arrays k)) =
      .ok true (p.frame σ d (vars (k + 1)) (c + 1) (arrays (k + 1)))) :
    exec ctx (fuel + 1) σ.scopes.size (.loop e code) (p.frame σ d (vars 0) c (arrays 0)) =
      Statement.iterate (turn ctx fuel σ.scopes.size e code) rounds
      (p.frame σ d (vars n) (c + 1) (arrays n)) := by
  have hiterate (rounds : Nat) : Statement.iterate (turn ctx fuel σ.scopes.size e code) (n + rounds)
      (p.frame σ d (vars 0) (c + 1) (arrays 0)) =
        Statement.iterate (turn ctx fuel σ.scopes.size e code) rounds
        (p.frame σ d (vars n) (c + 1) (arrays n)) := by
    clear hrounds
    induction n generalizing rounds with
    | zero => rw [Nat.zero_add]
    | succ n ih =>
      rw [Nat.add_right_comm, Nat.add_assoc, ih (fun k hk => h k (hk.trans n.lt_succ_self)),
        Statement.iterate, Eval.bind_of_ok (h n n.lt_succ_self)]
      rfl
  refine Eq.trans ?_ (hiterate rounds)
  rw [exec, Eval.bind_of_ok (Statement.load_of_none he _), hlimit, hrounds]
  rfl

/-- A round whose condition holds runs the code. -/
theorem turn_of_true {code : Program} (he : evaluate ctx fuel scope e ρ = .ok (.bool true) ρ)
    (hcode : runAll (exec ctx fuel scope) code ρ = .ok () τ) :
    turn ctx fuel scope e code ρ = .ok true τ := by
  have hcondition : (do Eval.truth (← evaluate ctx fuel scope e)) ρ = .ok true ρ := bind_of_ok he _
  have hbody : Statement.body (runAll (exec ctx fuel scope) code) ρ = .ok true τ := by
    rw [Statement.body, hcode]
  rw [turn, Statement.round, bind_of_ok hcondition, if_pos rfl, bind_of_ok hbody]
  rfl

theorem turn_of_false {code : Program} (he : evaluate ctx fuel scope e ρ = .ok (.bool false) ρ) :
    turn ctx fuel scope e code ρ = .ok false ρ := by
  have hcondition : (do Eval.truth (← evaluate ctx fuel scope e)) ρ = .ok false ρ := bind_of_ok he _
  rw [turn, Statement.round, bind_of_ok hcondition]
  rfl

/-- A round whose code fails. -/
theorem turn_of_failure {code : Program} {failure : Failure}
    (he : evaluate ctx fuel scope e ρ = .ok (.bool true) ρ)
    (hcode : runAll (exec ctx fuel scope) code ρ = .error (.failure failure) τ) :
    turn ctx fuel scope e code ρ = .error (.failure failure) τ := by
  have hcondition : (do Eval.truth (← evaluate ctx fuel scope e)) ρ = .ok true ρ := bind_of_ok he _
  have hbody : Statement.body (runAll (exec ctx fuel scope) code) ρ =
      .error (.failure failure) τ := by rw [Statement.body, hcode]
  rw [turn, Statement.round, bind_of_ok hcondition, if_pos rfl, bind_of_error hbody]

/-! ## Expressions in a call -/

/-- A string that no bracket is written like. -/
abbrev Plain (s : String) : Prop :=
  s ≠ "(" ∧ s ≠ ")" ∧ s ≠ "[" ∧ s ≠ "]" ∧ s ≠ "\x7b" ∧ s ≠ "\x7d"

theorem Plain.not_bracket (hs : Plain s) : isBracket (.val (.str s)) = false := by
  simp [isBracket, opens, Token.reads, hs]

section

variable (hl : Loaded p σ) {F : Store} (hF : F = p.frame σ d vars c a)

include hl hF

/-- An expression without literals comes to what its tokens come to with the values of its names. -/
theorem evaluate_frame (he : e.all (p.knows vars) = true) {ts : List Token}
    (hts : e.map (Token.named (p.value vars)) = ts) (hselecting : selecting none ts = true)
    (hendless : F.anyEndless ts = false) :
    evaluate ctx (fuel + 1) σ.scopes.size e F =
      (applyFrom (evaluate ctx fuel σ.scopes.size) (call ctx fuel σ.scopes.size) [] 0 ts >>=
        Operator.valueOf (evaluate ctx fuel σ.scopes.size)) F := by
  subst hF hts
  rw [evaluate, bind_of_ok (resolve_frame hl he), reduce_eq, literals_of_selecting hselecting,
    pure_bind]
  have happly := @applications_of_not_endless _ (evaluate ctx fuel σ.scopes.size)
      (call ctx fuel σ.scopes.size) _ hendless
  simp only [bind, EStateM.bind, happly]

/-- An operation on scalars that are named or written out. -/
theorem evaluate_operation (op : Binary) (v w : Scalar) {u : Scalar} {x y : Token}
    (hx : p.knows vars x = true) (hy : p.knows vars y = true)
    (hv : x.named (p.value vars) = .val v.value) (hw : y.named (p.value vars) = .val w.value)
    (hu : op.apply v w = some u) : evaluate ctx (fuel + 2) σ.scopes.size [x, .sym op.symbol, y] F =
      .ok u.value F := by
  have hop : op.symbol ≠ .lbracket ∧ op.symbol ≠ .lparen ∧ op.symbol ≠ .lbrace ∧
      op.symbol ≠ .rbrace := by
    cases op <;> decide
  have hscalar (v : Scalar) : F.isEndless v.value = false := by cases v <;> rfl
  have hknows : p.knows vars (.sym op.symbol) = true := by simp [Place.knows, hop]
  have hts : [x, .sym op.symbol, y].map (Token.named (p.value vars)) =
      [.val v.value, .sym op.symbol, .val w.value] := by
    rw [List.map_cons, List.map_cons, List.map_singleton, hv, hw]
    rfl
  rw [evaluate_frame hl hF (by simp [hx, hy, hknows]) hts (by simp [selecting, Token.is, hop])
    (by simp [Store.anyEndless, hscalar]), applyFrom_val, applyFrom_symbol hop.1 hop.2.1,
    applyFrom_val]
  exact valueOf_operation (evaluate_scalar ctx fuel _) op v w hu

/-- A variable. -/
theorem evaluate_variable {x : String} {v : Value} (hx : p.knows vars (.name x) = true)
    (hv : p.value vars x = v) (hproper : v.isProper = true) (hendless : F.isEndless v = false) :
    evaluate ctx (fuel + 1) σ.scopes.size [.name x] F = .ok v F := by
  subst hF hv
  exact evaluate_name (lookup_frame hl hx) hproper hendless

/-- A position in a string or an array. -/
theorem evaluate_position {b : Value} {x : Float} (he : e.all (p.knows vars) = true)
    (hts :
      e.map (Token.named (p.value vars)) = [.val b, .sym .lbracket, .val (.num x), .sym .rbracket])
    (hb : b.isIndexable = true) (hendless : F.isEndless b = false) :
    evaluate ctx (fuel + 2) σ.scopes.size e F = (refine b (.num x) >>= checked) F := by
  have hnum : F.isEndless (.num x) = false := rfl
  have hkey : evaluate ctx (fuel + 1) σ.scopes.size [.val (.num x)] F = .ok (.num x) F :=
    evaluate_scalar ctx fuel _ (.num x) F
  have hpart := @applyFrom_key [.val (.num x)] (evaluate ctx (fuel + 1) σ.scopes.size)
      (call ctx (fuel + 1) σ.scopes.size)
    b hb (clear_of_clears rfl) (List.cons_ne_nil _ _) [] []
  rw [evaluate_frame hl hF he hts (by simp [selecting, Token.is, selects, hb])
    (by simp [Store.anyEndless, hendless, hnum]), applyFrom_val]
  refine Eq.trans (congrFun (congrArg (· >>= _) hpart) F) ?_
  simp only [bind_assoc]
  rw [bind_of_ok hkey]
  simp only [applyFrom, List.reverse_singleton, pure_bind, valueOf_val]

/-- A character added to a string. -/
theorem evaluate_addition {ans b : Value} {x : Float} (he : e.all (p.knows vars) = true)
    (hts : e.map (Token.named (p.value vars)) =
      [.val ans, .sym .plus, .val b, .sym .lbracket, .val (.num x), .sym .rbracket])
    (hb : b.isIndexable = true) (hans : F.isEndless ans = false)
    (hendless : F.isEndless b = false) :
    evaluate ctx (fuel + 2) σ.scopes.size e F = (refine b (.num x) >>= fun v =>
      Operator.valueOf (evaluate ctx (fuel + 1) σ.scopes.size) [.val ans, .sym .plus, .val v])
      F := by
  have hnum : F.isEndless (.num x) = false := rfl
  have hkey : evaluate ctx (fuel + 1) σ.scopes.size [.val (.num x)] F = .ok (.num x) F :=
    evaluate_scalar ctx fuel _ (.num x) F
  have hpart := @applyFrom_key [.val (.num x)] (evaluate ctx (fuel + 1) σ.scopes.size)
      (call ctx (fuel + 1) σ.scopes.size)
    b hb (clear_of_clears rfl) (List.cons_ne_nil _ _) [.sym .plus, .val ans] []
  rw [evaluate_frame hl hF he hts (by simp [selecting, Token.is, selects, hb])
    (by simp [Store.anyEndless, hendless, hnum, hans]), applyFrom_val, applyFrom_symbol (by decide)
    (by decide), applyFrom_val]
  refine Eq.trans (congrFun (congrArg (· >>= _) hpart) F) ?_
  simp only [bind_assoc]
  rw [bind_of_ok hkey]
  simp only [applyFrom, List.reverse_cons, List.reverse_nil, List.nil_append,
    List.cons_append, pure_bind]

/-- A call of a built-in function. -/
theorem evaluate_native {n : Native} {args : List Expr} {ts : List Token}
    (he : e.all (p.knows vars) = true) (hts : e.map (Token.named (p.value vars)) = ts)
    (hcall : ts = .val (.native n) :: .sym .lparen :: (joined args ++ [.sym .rparen]))
    (hargs : ∀ part ∈ args, Clear (·.is .comma) part ∧ part ≠ [])
    (hselecting : selecting none ts = true) (hendless : F.anyEndless ts = false) :
    evaluate ctx (fuel + 1) σ.scopes.size e F =
      (elements (evaluate ctx fuel σ.scopes.size) args >>= fun vs => n.call vs >>= checked) F := by
  rw [evaluate_frame hl hF he hts hselecting hendless, hcall, applyFrom_val,
    applyFrom_arguments rfl hargs]
  simp only [bind_assoc, applyFrom, List.reverse_singleton, pure_bind, valueOf_val,
    Expression.apply]

end

theorem native_ok {n : Native} {args : List Value} {ρ τ : Store} (harity : args.length = n.arity)
    (h : n.perform args ρ = .ok v τ) (hproper : v.isProper = true) : n.call args ρ = .ok v τ := by
  rw [Native.call, harity, bne_self_eq_false]
  refine (bind_of_ok h _).trans ?_
  rw [hproper]
  rfl

/-! ## Statements in a call -/

section

variable {F : Store} {b : Array (Array Value)}

/-- A new variable. -/
theorem exec_init_frame (he : ∀ f, .func f ∉ e) (hnew : vars.has name = false)
    (hv : evaluate ctx fuel σ.scopes.size e F = .ok v (p.frame σ d vars c b)) :
    exec ctx (fuel + 1) σ.scopes.size (.init name e) F =
      .ok () (p.frame σ d (vars.put name v) c b) := by
  rw [← putVar_frame]
  refine exec_init_ok (load_of_none he F) hv ?_
  rw [scope_frame, if_pos rfl]
  exact Option.isSome_eq_false_iff.1 hnew |> Option.isNone_iff_eq_none.1

/-- A variable of the call gets a value. -/
theorem exec_assign_frame (he : ∀ f, .func f ∉ e) (hown : vars.has name = true)
    (hv : evaluate ctx (fuel + 1) σ.scopes.size e F = .ok v (p.frame σ d vars c b)) :
    exec ctx (fuel + 1) σ.scopes.size (.assign [.name name] e) F =
      .ok () (p.frame σ d (vars.put name v) c b) := by
  rw [← putVar_frame]
  exact exec_assign_ok he hv (owner_frame hown)

end

end StandardLibrary

end LittleJ
