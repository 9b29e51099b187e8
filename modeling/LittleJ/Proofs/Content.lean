import LittleJ.Proofs.WholeNumber
import LittleJ.Store.Printer
import LittleJ.Store.Scopes
import Mathlib.Data.Fintype.Card
import Mathlib.Data.List.Forall2

/-!
# The content of a value

A value that is no function has a content: a tree of null, booleans, whole numbers, strings, arrays
and objects. Two values of one content are equal all through, even if they live in different stores
or share their parts in different ways.

A value that contains itself has no content. So a value with a content can be printed: on a path
into it no container occurs twice, and the printer goes as deep as there are containers.
-/

namespace LittleJ

open List Store

variable {objects : Bool} {k : Nat}

/-- What a value holds, all references followed. -/
inductive Content
  | null
  | bool (b : Bool)
  | int (n : Int)
  | str (s : String)
  | arr (items : List Content)
  /-- Entries by key, oldest first. -/
  | obj (entries : List (String × Content))

namespace Content

/-- Induction over a content and all it contains. -/
theorem induction {P : Content → Prop} (null : P .null) (bool : ∀ b, P (.bool b))
    (int : ∀ n, P (.int n)) (str : ∀ s, P (.str s)) (arr : ∀ cs, (∀ c ∈ cs, P c) → P (.arr cs))
    (obj : ∀ es : List (String × Content), (∀ e ∈ es, P e.2) → P (.obj es)) (c : Content) : P c :=
  @Content.rec P (fun cs => ∀ c ∈ cs, P c) (fun es => ∀ e ∈ es, P e.2) (fun e => P e.2) null
  bool int str arr
    obj (by simp) (fun _ _ hc hcs => List.forall_mem_cons.2 ⟨hc, hcs⟩) (by simp)
    (fun _ _ he hes => List.forall_mem_cons.2 ⟨he, hes⟩) (fun _ _ hc => hc) c

mutual

/-- The value `v` of the store has the content. An object has every key once. -/
def HeldBy (σ : Store) : Content → Value → Prop
  | .null, v => v = .null
  | .bool b, v => v = .bool b
  | .int n, v => ∃ x, v = .num x ∧ Number.IsInt x n
  | .str s, v => v = .str s
  | .arr cs, v => ∃ r, v = .arr r ∧ r < σ.arrays.size ∧ HeldByAll σ cs (σ.array r).toList
  | .obj es, v => ∃ r, v = .obj r ∧ r < σ.objects.size ∧ (σ.object r).keys.Nodup ∧
      HeldByEntries σ es (σ.object r)

/-- The values have the contents, one by one. -/
def HeldByAll (σ : Store) : List Content → List Value → Prop
  | [], vs => vs = []
  | c :: cs, vs => ∃ v vs', vs = v :: vs' ∧ HeldBy σ c v ∧ HeldByAll σ cs vs'

/-- The entries of a table have the contents, under the same keys and in the same order. -/
def HeldByEntries (σ : Store) : List (String × Content) → Table Value → Prop
  | [], t => t = []
  | (k, c) :: es, t => ∃ v t', t = (k, v) :: t' ∧ HeldBy σ c v ∧ HeldByEntries σ es t'

end

mutual

/-- How deeply containers are nested in a content. Objects are counted and looked into if `objects`
says so. -/
def heightBy (objects : Bool) : Content → Nat
  | .arr cs => heightByAll objects cs + 1
  | .obj es => if objects then heightByEntries objects es + 1 else 0
  | _ => 0

/-- The largest height among contents. -/
def heightByAll (objects : Bool) : List Content → Nat
  | [] => 0
  | c :: cs => max (c.heightBy objects) (heightByAll objects cs)

/-- The largest height among the contents of entries. -/
def heightByEntries (objects : Bool) : List (String × Content) → Nat
  | [] => 0
  | (_, c) :: es => max (c.heightBy objects) (heightByEntries objects es)

end

/-- How deeply containers are nested in a content. -/
def height (c : Content) : Nat :=
  c.heightBy true

mutual

/-- The printed form of a content. -/
def text : Content → String
  | .null => "null"
  | .bool b => Value.wordOfBool b
  | .int n => Number.integerText n
  | .str s => quote s
  | .arr cs => "[" ++ ", ".intercalate (texts cs) ++ "]"
  | .obj es => "\x7b" ++ ", ".intercalate (entryTexts es) ++ "\x7d"

/-- The printed forms of contents. -/
def texts : List Content → List String
  | [] => []
  | c :: cs => c.text :: texts cs

/-- The printed forms of entries. -/
def entryTexts : List (String × Content) → List String
  | [] => []
  | (k, c) :: es => entryText k c.text :: entryTexts es

end

theorem texts_eq (cs : List Content) : texts cs = cs.map text := by
  induction cs with
  | nil => rfl
  | cons c cs ih => rw [texts, ih, map_cons]

theorem entryTexts_eq (es : List (String × Content)) :
    entryTexts es = es.map fun e => entryText e.1 e.2.text := by
  induction es with
  | nil => rfl
  | cons e es ih => rw [entryTexts, ih, map_cons]

theorem heightBy_le_all {cs : List Content} {c : Content} (h : c ∈ cs) :
    c.heightBy objects ≤ heightByAll objects cs := by
  induction cs with
  | nil => cases h
  | cons d cs ih =>
    rw [heightByAll]
    rcases List.mem_cons.1 h with rfl | h
    · exact Nat.le_max_left _ _
    · exact Nat.le_trans (ih h) (Nat.le_max_right _ _)

theorem heightBy_le_entries {es : List (String × Content)} {e : String × Content} (h : e ∈ es) :
    e.2.heightBy objects ≤ heightByEntries objects es := by
  induction es with
  | nil => cases h
  | cons d es ih =>
    rw [heightByEntries]
    rcases List.mem_cons.1 h with rfl | h
    · exact Nat.le_max_left _ _
    · exact Nat.le_trans (ih h) (Nat.le_max_right _ _)

theorem exists_of_lt_all {cs : List Content} (h : k < heightByAll objects cs) :
    ∃ c ∈ cs, k < c.heightBy objects := by
  induction cs with
  | nil => simp [heightByAll] at h
  | cons c cs ih =>
    rcases lt_max_iff.1 h with h | h
    · exact ⟨c, mem_cons_self .., h⟩
    · obtain ⟨d, hd, hk⟩ := ih h
      exact ⟨d, mem_cons_of_mem _ hd, hk⟩

theorem exists_of_lt_entries {es : List (String × Content)} (h : k < heightByEntries objects es) :
    ∃ e ∈ es, k < e.2.heightBy objects := by
  induction es with
  | nil => simp [heightByEntries] at h
  | cons e es ih =>
    rcases lt_max_iff.1 h with h | h
    · exact ⟨e, mem_cons_self .., h⟩
    · obtain ⟨d, hd, hk⟩ := ih h
      exact ⟨d, mem_cons_of_mem _ hd, hk⟩

section

variable {σ : Store} {c : Content} {v : Value}

/-- An entry has the content of an entry, under the same key. -/
abbrev EntryHeldBy (σ : Store) (e : String × Content) (f : String × Value) : Prop :=
  f.1 = e.1 ∧ HeldBy σ e.2 f.2

theorem heldByAll_iff {cs : List Content} {vs : List Value} :
    HeldByAll σ cs vs ↔ Forall₂ (HeldBy σ) cs vs := by
  induction cs generalizing vs with
  | nil => simp [HeldByAll]
  | cons c cs ih =>
    simp only [HeldByAll, ih, forall₂_cons_left_iff]
    constructor
    · rintro ⟨v, vs', rfl, hv, hvs⟩
      exact ⟨v, vs', hv, hvs, rfl⟩
    · rintro ⟨v, vs', hv, hvs, rfl⟩
      exact ⟨v, vs', rfl, hv, hvs⟩

theorem heldByEntries_iff {es : List (String × Content)} {t : Table Value} :
    HeldByEntries σ es t ↔ Forall₂ (EntryHeldBy σ) es t := by
  induction es generalizing t with
  | nil => simp [HeldByEntries]
  | cons e es ih =>
    simp only [HeldByEntries, ih, forall₂_cons_left_iff]
    constructor
    · rintro ⟨v, t', rfl, hv, ht⟩
      exact ⟨(e.1, v), t', ⟨rfl, hv⟩, ht, rfl⟩
    · rintro ⟨⟨k, v⟩, t', ⟨rfl, hv⟩, ht, rfl⟩
      exact ⟨v, t', rfl, hv, ht⟩

theorem heldBy_arr {cs : List Content} : HeldBy σ (.arr cs) v ↔
    ∃ r, v = .arr r ∧ r < σ.arrays.size ∧ Forall₂ (HeldBy σ) cs (σ.array r).toList := by
  rw [HeldBy]
  simp only [heldByAll_iff]

theorem heldBy_obj {es : List (String × Content)} : HeldBy σ (.obj es) v ↔
    ∃ r, v = .obj r ∧ r < σ.objects.size ∧ (σ.object r).keys.Nodup ∧
    Forall₂ (EntryHeldBy σ) es (σ.object r) := by
  rw [HeldBy]
  simp only [heldByEntries_iff]

/-! ## A value has one content -/

theorem eq_of_forall₂ {α β : Type} {R : α → β → Prop} {as as' : List α} {bs : List β}
    (h : Forall₂ R as bs) (h' : Forall₂ R as' bs)
    (heq : ∀ a ∈ as, ∀ a' b, R a b → R a' b → a = a') : as = as' := by
  induction h generalizing as' with
  | nil => cases h'; rfl
  | cons hab _ ih =>
    cases h' with
    | cons hab' htail =>
      obtain ⟨ha, has⟩ := List.forall_mem_cons.1 heq
      rw [ha _ _ hab hab', ih htail has]

theorem HeldBy.eq {c' : Content} (h : HeldBy σ c v) (h' : HeldBy σ c' v) : c = c' := by
  induction c using Content.induction generalizing c' v with
  | null => cases c' <;> simp_all [HeldBy]
  | bool b => cases c' <;> simp_all [HeldBy]
  | int n =>
    obtain ⟨x, rfl, hx⟩ := h
    cases c' with
    | int n' =>
      obtain ⟨y, hy, hn'⟩ := h'
      cases hy
      exact congrArg Content.int (Option.some.inj (hx.2.symm.trans hn'.2))
    | _ => simp [HeldBy] at h'
  | str s => cases c' <;> simp_all [HeldBy]
  | arr cs ih =>
    obtain ⟨r, rfl, _, hcs⟩ := heldBy_arr.1 h
    cases c' with
    | arr cs' =>
      obtain ⟨r', hr, _, hcs'⟩ := heldBy_arr.1 h'
      cases hr
      exact congrArg Content.arr (eq_of_forall₂ hcs hcs' fun c hc c' v hv hv' => ih c hc hv hv')
    | _ => simp [HeldBy] at h'
  | obj es ih =>
    obtain ⟨r, rfl, _, _, hes⟩ := heldBy_obj.1 h
    cases c' with
    | obj es' =>
      obtain ⟨r', hr, _, _, hes'⟩ := heldBy_obj.1 h'
      cases hr
      refine congrArg Content.obj (eq_of_forall₂ hes hes' fun e he e' f hf hf' => ?_)
      exact Prod.ext (hf.1.symm.trans hf'.1) (ih e he hf.2 hf'.2)
    | _ => simp [HeldBy] at h'

/-! ## No deeper than there are containers -/

/-- The place of a container among all of a store, the arrays first. -/
def place (σ : Store) : Value → Nat
  | .arr r => r
  | .obj r => σ.arrays.size + r
  | _ => 0

/-- The number of containers that a height counts. -/
def places (objects : Bool) (σ : Store) : Nat :=
  σ.arrays.size + if objects then σ.objects.size else 0

theorem exists_mem_of_forall₂ {α β : Type} {R : α → β → Prop} {as : List α} {bs : List β}
    (h : Forall₂ R as bs) {a : α} (ha : a ∈ as) : ∃ b ∈ bs, R a b := by
  induction h with
  | nil => cases ha
  | cons hab _ ih =>
    rcases List.mem_cons.1 ha with rfl | ha
    · exact ⟨_, mem_cons_self .., hab⟩
    · obtain ⟨b, hb, hr⟩ := ih ha
      exact ⟨b, mem_cons_of_mem _ hb, hr⟩

/-- Below a content there is one of every smaller height. -/
theorem exists_of_lt_heightBy (h : HeldBy σ c v) (hk : k < c.heightBy objects) :
    ∃ c' v', HeldBy σ c' v' ∧ c'.heightBy objects = k + 1 := by
  induction c using Content.induction generalizing v with
  | arr cs ih =>
    obtain ⟨r, rfl, _, hcs⟩ := heldBy_arr.1 h
    rcases Nat.lt_succ_iff_lt_or_eq.1 hk with hlt | rfl
    · obtain ⟨c, hc, hlt⟩ := exists_of_lt_all hlt
      obtain ⟨v, _, hv⟩ := exists_mem_of_forall₂ hcs hc
      exact ih c hc hv hlt
    · exact ⟨.arr cs, _, h, rfl⟩
  | obj es ih =>
    obtain ⟨r, rfl, _, _, hes⟩ := heldBy_obj.1 h
    cases objects with
    | false => simp [heightBy] at hk
    | true =>
      rcases Nat.lt_succ_iff_lt_or_eq.1 hk with hlt | rfl
      · obtain ⟨e, he, hlt⟩ := exists_of_lt_entries hlt
        obtain ⟨f, _, _, hf⟩ := exists_mem_of_forall₂ hes he
        exact ih e he hf hlt
      · exact ⟨.obj es, _, h, rfl⟩
  | _ => simp [heightBy] at hk

/-- What has a height is a container that the height counts. -/
theorem container_of_heightBy (h : HeldBy σ c v) (hpos : 0 < c.heightBy objects) :
    (∃ r, v = .arr r ∧ r < σ.arrays.size) ∨ objects = true ∧ ∃ r, v = .obj r ∧
    r < σ.objects.size := by
  cases c with
  | arr cs =>
    obtain ⟨r, rfl, hr, _⟩ := heldBy_arr.1 h
    exact .inl ⟨r, rfl, hr⟩
  | obj es =>
    obtain ⟨r, rfl, hr, _⟩ := heldBy_obj.1 h
    cases objects with
    | false => simp [heightBy] at hpos
    | true => exact .inr ⟨rfl, r, rfl, hr⟩
  | _ => simp [heightBy] at hpos

theorem place_lt (h : HeldBy σ c v) (hpos : 0 < c.heightBy objects) :
    place σ v < places objects σ := by
  unfold places
  rcases container_of_heightBy h hpos with ⟨r, rfl, hr⟩ | ⟨rfl, r, rfl, hr⟩
  · show r < _
    omega
  · show σ.arrays.size + r < σ.arrays.size + σ.objects.size
    omega

theorem eq_of_place_eq {c' : Content} {v' : Value} (h : HeldBy σ c v) (h' : HeldBy σ c' v')
    (hpos : 0 < c.heightBy objects) (hpos' : 0 < c'.heightBy objects)
    (heq : place σ v = place σ v') : v = v' := by
  rcases container_of_heightBy h hpos with ⟨r, rfl, hr⟩ | ⟨_, r, rfl, hr⟩ <;>
    rcases container_of_heightBy h' hpos' with ⟨r', rfl, hr'⟩ | ⟨_, r', rfl, hr'⟩ <;>
    simp only [place] at heq
  · rw [heq]
  · omega
  · omega
  · rw [Nat.add_left_cancel heq]

/-- **A value with a content is not nested deeper than there are containers**: those of different
height have different contents, so they are different containers. -/
theorem heightBy_le_places (objects : Bool) (h : HeldBy σ c v) :
    c.heightBy objects ≤ places objects σ := by
  have hlevel (k : Fin (c.heightBy objects)) := exists_of_lt_heightBy h k.isLt
  choose below holder hheld hheight using hlevel
  have hpos (k : Fin (c.heightBy objects)) : 0 < (below k).heightBy objects := by
    rw [hheight k]
    exact Nat.succ_pos _
  let spot (k : Fin (c.heightBy objects)) : Fin (places objects σ) :=
    ⟨place σ (holder k), place_lt (hheld k) (hpos k)⟩
  have hinj : Function.Injective spot := by
    intro j k heq
    have hholder : holder j = holder k :=
      eq_of_place_eq (hheld j) (hheld k) (hpos j) (hpos k) (Fin.mk.inj heq)
    have hbelow : below j = below k := (hheld j).eq (hholder ▸ hheld k)
    have hval : j.val + 1 = k.val + 1 := by rw [← hheight j, ← hheight k, hbelow]
    exact Fin.ext (Nat.succ.inj hval)
  have hcard := Fintype.card_le_of_injective spot hinj
  rwa [Fintype.card_fin, Fintype.card_fin] at hcard

/-! ## Printing and walking -/

theorem mapM_of_forall₂ {α β γ : Type} {R : α → β → Prop} {f : β → Except Fault γ}
    {g : α → γ} {as : List α} {bs : List β} (h : Forall₂ R as bs)
    (hf : ∀ a ∈ as, ∀ b, R a b → f b = .ok (g a)) :
    bs.mapM f = .ok (as.map g) := by
  induction h with
  | nil => rfl
  | cons hab _ ih =>
    obtain ⟨ha, has⟩ := List.forall_mem_cons.1 hf
    rw [mapM_cons, ha _ hab, ih has]
    rfl

theorem printWithin_of_heldBy (h : HeldBy σ c v) {fuel : Nat} (hfuel : c.height < fuel) :
    σ.printWithin fuel v = .ok c.text := by
  induction c using Content.induction generalizing v fuel with
  | arr cs ih =>
    obtain ⟨r, rfl, _, hcs⟩ := heldBy_arr.1 h
    obtain ⟨fuel, rfl⟩ : ∃ n, fuel = n + 1 := ⟨fuel - 1, by omega⟩
    have hshown : (σ.array r).toList.mapM (σ.printWithin fuel) = .ok (cs.map text) := by
      refine mapM_of_forall₂ hcs fun c hc v hv => ih c hc hv ?_
      exact Nat.lt_of_le_of_lt (heightBy_le_all hc) (Nat.lt_of_succ_lt_succ hfuel)
    rw [printWithin, hshown, text, texts_eq]
    rfl
  | obj es ih =>
    obtain ⟨r, rfl, _, _, hes⟩ := heldBy_obj.1 h
    obtain ⟨fuel, rfl⟩ : ∃ n, fuel = n + 1 := ⟨fuel - 1, by omega⟩
    have hshown : (σ.object r).mapM (fun e => do return entryText e.1 (← σ.printWithin fuel e.2)) =
        .ok (es.map fun e => entryText e.1 e.2.text) := by
      refine mapM_of_forall₂ hes fun e he f hf => ?_
      have hlt : e.2.height < fuel :=
        Nat.lt_of_le_of_lt (heightBy_le_entries he) (Nat.lt_of_succ_lt_succ hfuel)
      rw [ih e he hf.2 hlt, hf.1]
      rfl
    rw [printWithin, hshown, text, entryTexts_eq]
    rfl
  | int n =>
    obtain ⟨x, rfl, hwhole, hint⟩ := h
    obtain ⟨fuel, rfl⟩ : ∃ n, fuel = n + 1 := ⟨fuel - 1, by omega⟩
    rw [printWithin, Value.printPlain, printNumber, Number.printed?, if_pos hwhole, hint]
    · rfl
    all_goals simp
  | _ =>
    obtain rfl := h
    obtain ⟨fuel, rfl⟩ : ∃ n, fuel = n + 1 := ⟨fuel - 1, by omega⟩
    rfl

/-- A value with a content can be printed. -/
theorem print_of_heldBy (h : HeldBy σ c v) : σ.print v = .ok c.text := by
  refine printWithin_of_heldBy h ?_
  have hle : c.height ≤ σ.arrays.size + σ.objects.size := heightBy_le_places true h
  rw [nesting]
  omega

theorem endlessWithin_of_heldBy (h : HeldBy σ c v) {fuel : Nat} (hfuel : c.heightBy false < fuel) :
    σ.endlessWithin fuel v = false := by
  induction c using Content.induction generalizing v fuel with
  | arr cs ih =>
    obtain ⟨r, rfl, _, hcs⟩ := heldBy_arr.1 h
    obtain ⟨fuel, rfl⟩ : ∃ n, fuel = n + 1 := ⟨fuel - 1, by omega⟩
    rw [endlessWithin, ← Array.any_toList, any_eq_false]
    intro v hv
    obtain ⟨c, hc, hheld⟩ := exists_mem_of_forall₂ hcs.flip hv
    rw [ih c hc hheld (Nat.lt_of_le_of_lt (heightBy_le_all hc) (Nat.lt_of_succ_lt_succ hfuel))]
    simp
  | obj es =>
    obtain ⟨r, rfl, _⟩ := heldBy_obj.1 h
    obtain ⟨fuel, rfl⟩ : ∃ n, fuel = n + 1 := ⟨fuel - 1, by omega⟩
    rfl
  | int n =>
    obtain ⟨x, rfl, _⟩ := h
    obtain ⟨fuel, rfl⟩ : ∃ n, fuel = n + 1 := ⟨fuel - 1, by omega⟩
    rfl
  | _ =>
    obtain rfl := h
    obtain ⟨fuel, rfl⟩ : ∃ n, fuel = n + 1 := ⟨fuel - 1, by omega⟩
    rfl

theorem isEndless_of_heldBy (h : HeldBy σ c v) : σ.isEndless v = false := by
  refine endlessWithin_of_heldBy h ?_
  have hle : c.heightBy false ≤ σ.arrays.size + 0 := heightBy_le_places false h
  omega

end

end Content

/-! ## Stores that grow -/

/-- The second store has the arrays and objects of the first one, with more after them. -/
structure Store.Extends (σ τ : Store) : Prop where
  arrays : ∃ more, τ.arrays = σ.arrays ++ more
  objects : ∃ more, τ.objects = σ.objects ++ more

/-- Arrays and objects are added to the first store and nothing is done to its scopes. -/
structure Store.Grows (σ τ : Store) : Prop extends σ.Extends τ where
  scopes : τ.scopes = σ.scopes

namespace Store.Extends

variable {σ τ ρ : Store}

theorem trans (h : σ.Extends τ) (h' : τ.Extends ρ) : σ.Extends ρ := by
  obtain ⟨⟨as, has⟩, bs, hbs⟩ := h
  obtain ⟨⟨as', has'⟩, bs', hbs'⟩ := h'
  exact ⟨⟨as ++ as', by rw [has', has, Array.append_assoc]⟩,
    bs ++ bs', by rw [hbs', hbs, Array.append_assoc]⟩

theorem array_eq (h : σ.Extends τ) {r : Nat} (hr : r < σ.arrays.size) :
    r < τ.arrays.size ∧ τ.array r = σ.array r := by
  obtain ⟨more, hmore⟩ := h.arrays
  have hlt : r < τ.arrays.size := by
    rw [hmore, Array.size_append]
    omega
  refine ⟨hlt, ?_⟩
  simp [array, hmore, Array.getD_eq_getD_getElem?, Array.getElem?_append_left hr]

theorem object_eq (h : σ.Extends τ) {r : Nat} (hr : r < σ.objects.size) :
    r < τ.objects.size ∧ τ.object r = σ.object r := by
  obtain ⟨more, hmore⟩ := h.objects
  have hlt : r < τ.objects.size := by
    rw [hmore, Array.size_append]
    omega
  refine ⟨hlt, ?_⟩
  simp [object, hmore, Array.getD_eq_getD_getElem?, Array.getElem?_append_left hr]

/-- Setting a variable touches no array and no object. -/
theorem putVar (σ : Store) (scope : Nat) (name : String) (v : Value) :
    σ.Extends (σ.putVar scope name v) :=
  ⟨⟨#[], by simp [Store.putVar, modifyScope]⟩, #[], by simp [Store.putVar, modifyScope]⟩

end Store.Extends

namespace Store.Grows

variable {σ τ ρ : Store}

theorem refl (σ : Store) : σ.Grows σ :=
  ⟨⟨⟨#[], by simp⟩, #[], by simp⟩, rfl⟩

theorem trans (h : σ.Grows τ) (h' : τ.Grows ρ) : σ.Grows ρ :=
  ⟨h.toExtends.trans h'.toExtends, h'.scopes.trans h.scopes⟩

theorem newArray (σ : Store) (xs : Array Value) : σ.Grows (σ.newArray xs).2 :=
  ⟨⟨⟨#[xs], by simp [Store.newArray]⟩, #[], by simp [Store.newArray]⟩, rfl⟩

theorem newObject (σ : Store) (t : Table Value) : σ.Grows (σ.newObject t).2 :=
  ⟨⟨⟨#[], by simp [Store.newObject]⟩, #[t], by simp [Store.newObject]⟩, rfl⟩

end Store.Grows

theorem Content.forall₂_imp {α β : Type} {R S : α → β → Prop} {as : List α} {bs : List β}
    (h : Forall₂ R as bs) (himp : ∀ a ∈ as, ∀ b, R a b → S a b) : Forall₂ S as bs := by
  induction h with
  | nil => exact .nil
  | cons hab _ ih =>
    obtain ⟨ha, has⟩ := List.forall_mem_cons.1 himp
    exact .cons (ha _ hab) (ih has)

/-- A content stays where a store is extended. -/
theorem Content.HeldBy.mono {σ τ : Store} {c : Content} {v : Value} (h : c.HeldBy σ v)
    (hgrow : σ.Extends τ) :
    c.HeldBy τ v := by
  induction c using Content.induction generalizing v with
  | arr cs ih =>
    obtain ⟨r, rfl, hr, hcs⟩ := heldBy_arr.1 h
    obtain ⟨hr', harray⟩ := hgrow.array_eq hr
    refine heldBy_arr.2 ⟨r, rfl, hr', ?_⟩
    rw [harray]
    exact forall₂_imp hcs fun c hc v hv => ih c hc hv
  | obj es ih =>
    obtain ⟨r, rfl, hr, hnodup, hes⟩ := heldBy_obj.1 h
    obtain ⟨hr', hobject⟩ := hgrow.object_eq hr
    refine heldBy_obj.2 ⟨r, rfl, hr', ?_⟩
    rw [hobject]
    exact ⟨hnodup, forall₂_imp hes fun e he f hf => ⟨hf.1, ih e he hf.2⟩⟩
  | _ => exact h

end LittleJ
