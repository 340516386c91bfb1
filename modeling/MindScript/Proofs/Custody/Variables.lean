import MindScript.Proofs.Custody.Hosts
import MindScript.Proofs.Scheduler.Cascade

/-!
# Reading what was assigned

A name stands for the same place whether it is read or assigned to, and for the same place after an assignment.  So what is
assigned is read by all code for which the name stands for that place, and by no other.
-/

namespace MindScript

open Machine
open World (Sane)

/-! ### The walk along the scopes -/

/-- Where the walk from a scope outwards ends: at the first scope that binds the name, or outside of the outermost one. -/
inductive Heap.Finds (h : Heap) (name : String) : ScopeId → Option ScopeId → Prop where
  | here {s : ScopeId} {scope : Scope} {value : Ref} : h.scope? s = some scope →
      scope.bindings.lookup name = some value → Finds h name s (some s)
  | outer {s parent : ScopeId} {scope : Scope} {b : Option ScopeId} : h.scope? s = some scope →
      scope.bindings.lookup name = none → scope.parent = some parent → Finds h name parent b → Finds h name s b
  | outside {s : ScopeId} {scope : Scope} : h.scope? s = some scope → scope.bindings.lookup name = none →
      scope.parent = none → Finds h name s none

namespace Heap

variable {h h' : Heap} {name : String} {s : ScopeId} {b b' : Option ScopeId}

theorem Finds.unique (hb : h.Finds name s b) (hb' : h.Finds name s b') : b = b' := by
  induction hb with
  | here hs hvalue =>
    cases hb' with
    | here => rfl
    | outer hs' hnone =>
      cases hs.symm.trans hs'
      cases hvalue.symm.trans hnone
    | outside hs' hnone =>
      cases hs.symm.trans hs'
      cases hvalue.symm.trans hnone
  | outer hs hnone hparent _ ih =>
    cases hb' with
    | here hs' hvalue =>
      cases hs.symm.trans hs'
      cases hvalue.symm.trans hnone
    | outer hs' _ hparent' hb' =>
      cases hs.symm.trans hs'
      cases hparent.symm.trans hparent'
      exact ih hb'
    | outside hs' _ hparent' =>
      cases hs.symm.trans hs'
      cases hparent.symm.trans hparent'
  | outside hs hnone hparent =>
    cases hb' with
    | here hs' hvalue =>
      cases hs.symm.trans hs'
      cases hvalue.symm.trans hnone
    | outer hs' _ hparent' =>
      cases hs.symm.trans hs'
      cases hparent.symm.trans hparent'
    | outside => rfl

/-- Scopes lie in older ones, so that the walk ends. -/
theorem Nested.finds (hn : h.Nested) (name : String) (hs : (h.scope? s).isSome) : h.Finds name s (h.binder s name) := by
  suffices hwithin : ∀ n s, s.index < n → (h.scope? s).isSome → h.Finds name s (h.binderWithin name n s) from
    hwithin _ s (Nat.lt_succ_self _) hs
  intro n
  induction n with
  | zero => exact fun s hlt ↦ absurd hlt (Nat.not_lt_zero _)
  | succ n ih =>
    intro s hlt hs
    obtain ⟨scope, hscope⟩ := Option.isSome_iff_exists.mp hs
    unfold binderWithin
    rw [hscope]
    dsimp only
    cases hvalue : scope.bindings.lookup name with
    | some value => exact .here hscope hvalue
    | none =>
      cases hparent : scope.parent with
      | none => exact .outside hscope hvalue hparent
      | some parent =>
        have holder := hn s scope parent hscope hparent
        have hs := (Array.getElem?_eq_some_iff.mp hscope).1
        refine .outer hscope hvalue hparent (ih parent (by omega) ?_)
        exact Option.isSome_iff_exists.mpr ⟨_, Array.getElem?_eq_getElem (Nat.lt_trans holder hs)⟩

/-- The scopes lie in each other as before, and each binds the same names as before. -/
def SameNames (h h' : Heap) : Prop :=
  ∀ s name, (h'.scope? s).map (fun o ↦ ((o.bindings.lookup name).isSome, o.parent)) =
    (h.scope? s).map fun o ↦ ((o.bindings.lookup name).isSome, o.parent)

theorem SameNames.binder (hsame : h.SameNames h') (s : ScopeId) (name : String) : h'.binder s name = h.binder s name := by
  suffices hwithin : ∀ n s, h'.binderWithin name n s = h.binderWithin name n s from hwithin _ s
  intro n
  induction n with
  | zero => exact fun _ ↦ rfl
  | succ n ih =>
    intro s
    have hs := hsame s name
    unfold binderWithin
    cases hscope : h.scope? s with
    | none =>
      rw [hscope, Option.map_none, Option.map_eq_none_iff] at hs
      rw [hs]
    | some scope =>
      rw [hscope] at hs
      obtain ⟨scope', hscope', heq⟩ := Option.map_eq_some_iff.mp hs
      rw [Prod.mk.injEq] at heq
      rw [hscope']
      dsimp only
      rw [heq.1, heq.2, funext ih]

theorem SameNames.parent (hsame : h.SameNames h') (s : ScopeId) :
    (h'.scope? s).map Scope.parent = (h.scope? s).map Scope.parent := by
  have hs := congrArg (Option.map Prod.snd) (hsame s "")
  rwa [Option.map_map, Option.map_map] at hs

theorem SameNames.isSome (hsame : h.SameNames h') (s : ScopeId) : (h'.scope? s).isSome = (h.scope? s).isSome := by
  rw [← Option.isSome_map, hsame.parent, Option.isSome_map]

theorem SameNames.nested (hsame : h.SameNames h') (hn : h.Nested) : h'.Nested := by
  intro s scope' parent hscope' hparent
  have hs := hsame.parent s
  rw [hscope', Option.map_some] at hs
  obtain ⟨scope, hscope, heq⟩ := Option.map_eq_some_iff.mp hs.symm
  exact hn s scope parent hscope (heq.trans hparent)

theorem SameNames.trans {h'' : Heap} (hsame : h.SameNames h') (hsame' : h'.SameNames h'') : h.SameNames h'' :=
  fun s name ↦ (hsame' s name).trans (hsame s name)

theorem SameNames.of_bare (hbare : h'.scopes.map Scope.bare = h.scopes.map Scope.bare) : h.SameNames h' := by
  intro s name
  have hs := congrArg (fun scopes : Array Scope ↦ (scopes[s.index]?).map fun o ↦ ((o.bindings.lookup name).isSome, o.parent))
    hbare
  simpa [Function.comp_def, Scope.bare, scope?] using hs

end Heap

/-! ### What names stand for -/

/-- What a name stands for in a context: a binding of the nearest scope that binds it, else a data member of the receiver,
else a datum of the class of the receiver or of the class that declares the running member, else nothing. -/
inductive World.Resolves (w : World) (c : Context) (name : String) : Option Place → Prop where
  | binding {s : ScopeId} : w.heap.Finds name c.env.innermost (some s) → Resolves w c name (some (.binding s))
  | slot {i : ℕ} : w.heap.Finds name c.env.innermost none →
      w.classes.slotIndex (w.heap.classOf c.this) name = some i → Resolves w c name (some (.slot c.this i))
  | classDatum : w.heap.Finds name c.env.innermost none → w.classes.slotIndex (w.heap.classOf c.this) name = none →
      Resolves w c name (((w.classes.classDatum (w.heap.classOf c.this) name).or
        (w.classes.classDatum c.thisClass name)).map fun d ↦ .classDatum d.1 d.2)

/-- What code in a context reads where it reads a name. -/
def World.reads (w : World) (c : Context) (name : String) : Except Interrupt Ref :=
  (lookupVariable name { w with context := c }).1

namespace World

variable {w w' : World} {c : Context} {name n : String} {place : Place} {value : Ref}

theorem Resolves.unique {p p' : Option Place} (h : w.Resolves c name p) (h' : w.Resolves c name p') : p = p' := by
  cases h with
  | binding hfinds =>
    cases h' with
    | binding hfinds' =>
      cases hfinds.unique hfinds'
      rfl
    | slot hfinds' => cases hfinds.unique hfinds'
    | classDatum hfinds' => cases hfinds.unique hfinds'
  | slot hfinds hslot =>
    cases h' with
    | binding hfinds' => cases hfinds.unique hfinds'
    | slot _ hslot' =>
      cases hslot.symm.trans hslot'
      rfl
    | classDatum _ hslot' => cases hslot.symm.trans hslot'
  | classDatum hfinds hslot =>
    cases h' with
    | binding hfinds' => cases hfinds.unique hfinds'
    | slot _ hslot' => cases hslot.symm.trans hslot'
    | classDatum _ _ => rfl

/-- Where scopes lie in older ones, every name stands for a place, or for nothing. -/
theorem resolves (hn : w.heap.Nested) (hc : (w.heap.scope? c.env.innermost).isSome) (name : String) :
    w.Resolves c name (placeOf { w with context := c } name) := by
  have hfinds := hn.finds name hc
  unfold placeOf
  dsimp only
  cases hbinder : w.heap.binder c.env.innermost name with
  | some s => exact .binding (hbinder ▸ hfinds)
  | none =>
    rw [hbinder] at hfinds
    dsimp only
    cases hslot : w.classes.slotIndex (w.heap.classOf c.this) name with
    | some i => exact .slot hfinds hslot
    | none => exact .classDatum hfinds hslot

theorem Resolves.scope_isSome {p : Option Place} (h : w.Resolves c name p) : (w.heap.scope? c.env.innermost).isSome := by
  have hfinds {b : Option ScopeId} (hb : w.heap.Finds name c.env.innermost b) : (w.heap.scope? c.env.innermost).isSome := by
    cases hb <;> simp [*]
  cases h with
  | binding hb => exact hfinds hb
  | slot hb _ => exact hfinds hb
  | classDatum hb _ => exact hfinds hb

theorem resolves_iff (hn : w.heap.Nested) (hc : (w.heap.scope? c.env.innermost).isSome) {p : Option Place} :
    w.Resolves c name p ↔ placeOf { w with context := c } name = p := by
  refine ⟨fun h ↦ (resolves hn hc name).unique h, ?_⟩
  rintro rfl
  exact resolves hn hc name

theorem reads_eq_variableValue : w.reads c name = match variableValue { w with context := c } name with
    | some value => .ok value
    | none => .error (.raised (.ofKind (.undefinedVariable name))) := by
  rw [reads, lookupVariable, get_bind]
  cases variableValue { w with context := c } name with
  | some value => rfl
  | none => rfl

/-- What is read is what stands in the place. -/
theorem reads_eq (hw : w.Filled) : w.reads c name = match (placeOf { w with context := c } name).bind (valueAt w name) with
    | some value => .ok value
    | none => .error (.raised (.ofKind (.undefinedVariable name))) := by
  have hvalue : valueAt { w with context := c } name = valueAt w name := funext fun p ↦ by cases p <;> rfl
  have hfilled : World.Filled { w with context := c } := hw
  rw [reads_eq_variableValue, variableValue_eq hfilled, hvalue]

/-! ### Storing -/

/-- The two worlds differ in nothing that a name can stand for. -/
structure SameData (w w' : World) : Prop where
  scopes : w'.heap.scopes.map Scope.bare = w.heap.scopes.map Scope.bare
  objects : w'.heap.objects.map Object.stock = w.heap.objects.map Object.stock
  classes : w'.classes = w.classes

/-- Every name stands for the same place in the two worlds. -/
structure SamePlaces (w w' : World) : Prop where
  names : w.heap.SameNames w'.heap
  classOf : ∀ r, w'.heap.classOf r = w.heap.classOf r
  size : ∀ r, (w'.heap.object r).slots.size = (w.heap.object r).slots.size
  slotIndex : ∀ c name, w'.classes.slotIndex c name = w.classes.slotIndex c name
  classDatum : ∀ c name, w'.classes.classDatum c name = w.classes.classDatum c name

theorem SamePlaces.trans {w'' : World} (h : w.SamePlaces w') (h' : w'.SamePlaces w'') : w.SamePlaces w'' :=
  ⟨h.names.trans h'.names, fun r ↦ (h'.classOf r).trans (h.classOf r), fun r ↦ (h'.size r).trans (h.size r),
    fun c name ↦ (h'.slotIndex c name).trans (h.slotIndex c name),
    fun c name ↦ (h'.classDatum c name).trans (h.classDatum c name)⟩

theorem SamePlaces.placeOf_eq (h : w.SamePlaces w') (c : Context) (name : String) :
    placeOf { w' with context := c } name = placeOf { w with context := c } name := by
  unfold placeOf classDatumOf
  dsimp only
  rw [h.names.binder, h.classOf, h.slotIndex, h.classDatum, h.classDatum]

theorem SamePlaces.filled (h : w.SamePlaces w') (hw : w.Filled) : w'.Filled := by
  intro r name i hi
  rw [h.classOf, h.slotIndex] at hi
  rw [h.size]
  exact hw r name i hi

namespace SameData

theorem classOf (h : w.SameData w') (r : Ref) : w'.heap.classOf r = w.heap.classOf r := by
  have hr := congrArg (fun objects : Array Object ↦ ((objects[r.index]?).getD default).classId) h.objects
  simp only [Array.getElem?_map] at hr
  unfold Heap.classOf Heap.object Heap.object?
  cases hw : w.heap.objects[r.index]? <;> cases hw' : w'.heap.objects[r.index]? <;> simp_all [Object.stock]

theorem slots (h : w.SameData w') (r : Ref) : (w'.heap.object r).slots = (w.heap.object r).slots := by
  have hr := congrArg (fun objects : Array Object ↦ ((objects[r.index]?).getD default).slots) h.objects
  simp only [Array.getElem?_map] at hr
  unfold Heap.object Heap.object?
  cases hw : w.heap.objects[r.index]? <;> cases hw' : w'.heap.objects[r.index]? <;> simp_all [Object.stock]

theorem bindings (h : w.SameData w') (s : ScopeId) :
    (w'.heap.scope? s).map Scope.bindings = (w.heap.scope? s).map Scope.bindings := by
  have hs := congrArg (fun scopes : Array Scope ↦ (scopes[s.index]?).map Scope.bindings) h.scopes
  simpa [Function.comp_def, Scope.bare, Heap.scope?] using hs

theorem samePlaces (h : w.SameData w') : w.SamePlaces w' where
  names := .of_bare h.scopes
  classOf := h.classOf
  size r := by rw [h.slots]
  slotIndex c name := by rw [h.classes]
  classDatum c name := by rw [h.classes]

theorem valueAt_eq (h : w.SameData w') (name : String) (place : Place) : valueAt w' name place = valueAt w name place := by
  cases place with
  | binding s =>
    have hvalue (v : World) : valueAt v name (.binding s) =
        ((v.heap.scope? s).map Scope.bindings).bind fun bindings ↦ bindings.lookup name := by
      rw [valueAt, Option.bind_map]
      rfl
    rw [hvalue, hvalue, h.bindings]
  | slot owner i => rw [valueAt, valueAt, h.slots]
  | classDatum c i => rw [valueAt, valueAt, h.classes]

theorem release (w : World) (ls : List Link) : w.SameData (w.release ls) :=
  ⟨Heap.bare_scopes_release w.heap ls, (Heap.Ages.release (h := w.heap) ls).stock, rfl⟩

theorem reads_eq (h : w.SameData w') (hw : w.Filled) (c : Context) (name : String) : w'.reads c name = w.reads c name := by
  rw [World.reads_eq (h.samePlaces.filled hw), World.reads_eq hw, h.samePlaces.placeOf_eq, funext (h.valueAt_eq name)]

end SameData

end World

theorem Registry.record_setClassData (r : Registry) (c : ClassId) (i : ℕ) (value : Ref) (b : ClassId) :
    (r.setClassData c i value).2.record b = if c = b then
      { r.record b with classData := (r.classDataOf b).modify i fun d ↦ { d with value := some value } } else r.record b := by
  have hindex : c = b ↔ c.index = b.index := ⟨congrArg _, fun h ↦ by cases c; cases b; exact congrArg ClassId.mk h⟩
  simp only [setClassData, record, classDataOf, Array.getD_eq_getD_getElem?, Array.getElem?_modify, hindex]
  split
  · cases r.classes[b.index]? with
    | some record => rfl
    | none => simp [show (default : ClassRecord).classData = [] from rfl]; rfl
  · rfl

theorem findIdx?_modify_value (l : List ClassDatum) (i : ℕ) (value : Ref) (name : String) :
    (l.modify i fun d ↦ { d with value := some value }).findIdx? (fun d ↦ d.name == name) =
      l.findIdx? fun d ↦ d.name == name := by
  have hnames : (l.modify i fun d ↦ { d with value := some value }).map ClassDatum.name = l.map ClassDatum.name := by
    refine List.ext_getElem? fun j ↦ ?_
    rw [List.getElem?_map, List.getElem?_map, List.getElem?_modify]
    cases l[j]? with
    | none => rfl
    | some d =>
      show some (if i = j then { d with value := some value } else d).name = some d.name
      split <;> rfl
  have hmap (l : List ClassDatum) : l.findIdx? (fun d ↦ d.name == name) = (l.map ClassDatum.name).findIdx? (· == name) := by
    rw [List.findIdx?_map]
    rfl
  rw [hmap, hmap, hnames]

theorem lookup_filter_ne {bindings : List (String × Ref)} {name n : String} (hne : n ≠ name) :
    (bindings.filter fun b ↦ b.1 != name).lookup n = bindings.lookup n := by
  induction bindings with
  | nil => rfl
  | cons b rest ih =>
    obtain ⟨key, value⟩ := b
    rw [List.filter_cons]
    by_cases hkey : key = name
    · rw [if_neg (by simp [hkey]), ih, List.lookup_cons, beq_eq_false_iff_ne.mpr (hkey ▸ hne)]
    · rw [if_pos (by simpa using hkey), List.lookup_cons, List.lookup_cons, ih]

namespace World

variable {w w' : World} {c : Context} {name n : String} {place p : Place}

/-- There is a place to store in. -/
inductive Room (w : World) (name : String) : Place → Prop where
  | binding {s : ScopeId} {scope : Scope} {old : Ref} : w.heap.scope? s = some scope →
      scope.bindings.lookup name = some old → Room w name (.binding s)
  | slot {owner : Ref} {o : Object} {i : ℕ} : w.heap.object? owner = some o → i < o.slots.size → Room w name (.slot owner i)
  | classDatum {c : ClassId} {i : ℕ} {d : ClassDatum} : (w.classes.classDataOf c)[i]? = some d →
      Room w name (.classDatum c i)

/-- After a value was stored in a place, names stand for what they stood for. -/
theorem Room.samePlaces (h : w.Room name place) (value : Ref) : w.SamePlaces (storeAt w name value place).2 := by
  cases h with
  | @binding s scope old hscope hold =>
    refine ⟨fun t n ↦ ?_, fun _ ↦ rfl, fun _ ↦ rfl, fun _ _ ↦ rfl, fun _ _ ↦ rfl⟩
    show ((w.heap.define s name value).2.scope? t).map _ = _
    rw [Heap.define, Heap.scope?_modifyScope]
    split
    · next heq =>
      subst heq
      rw [hscope, Option.map_some, Option.map_some, Option.map_some]
      by_cases hn : n = name
      · simp [hn, hold]
      · simp [List.lookup_cons, beq_eq_false_iff_ne.mpr hn, lookup_filter_ne hn]
    · rfl
  | @slot owner o i hobject hi =>
    have hobjects (r : Ref) : (storeAt w name value (.slot owner i)).2.heap.object? r = if owner = r then
        (w.heap.object? r).map fun o ↦ { o with slots := o.slots.setIfInBounds i value } else w.heap.object? r :=
      w.heap.object?_modifyObject owner r _
    refine ⟨fun _ _ ↦ rfl, fun r ↦ ?_, fun r ↦ ?_, fun _ _ ↦ rfl, fun _ _ ↦ rfl⟩
    · rw [Heap.classOf, Heap.object, hobjects]
      split
      · next heq => simp [← heq, hobject, Heap.classOf, Heap.object]
      · rfl
    · rw [Heap.object, hobjects]
      split
      · next heq => simp [← heq, hobject, Heap.object]
      · rfl
  | @classDatum c i d hd =>
    refine ⟨fun _ _ ↦ rfl, fun _ ↦ rfl, fun _ ↦ rfl, fun b n ↦ ?_, fun b n ↦ ?_⟩
    · show Registry.lastIndexOf n ((w.classes.setClassData c i value).2.record b).layout = _
      rw [Registry.record_setClassData]
      split <;> rfl
    · have hancestors : (w.classes.setClassData c i value).2.ancestors b = w.classes.ancestors b := by
        rw [Registry.ancestors, Registry.record_setClassData]
        split <;> rfl
      show (w.classes.setClassData c i value).2.classDatum b n = _
      unfold Registry.classDatum
      rw [hancestors]
      refine congrArg (fun f ↦ (w.classes.ancestors b).findSome? f) (funext fun a ↦ ?_)
      rw [Registry.record_setClassData]
      split
      · exact congrArg (Option.map _) (findIdx?_modify_value _ i value n)
      · rfl

/-- What was stored in a place stands there. -/
theorem Room.valueAt_self (h : w.Room name place) (value : Ref) :
    valueAt (storeAt w name value place).2 name place = some value := by
  cases h with
  | @binding s scope old hscope hold =>
    show ((w.heap.define s name value).2.scope? s).bind _ = _
    simp [Heap.define, Heap.scope?_modifyScope, hscope]
  | @slot owner o i hobject hi =>
    show (((w.heap.modifyObject owner _).object? owner).getD default).slots[i]? = _
    simp [Heap.object?_modifyObject, hobject, hi]
  | @classDatum c i d hd =>
    show (((w.classes.setClassData c i value).2.record c).classData[i]?).bind _ = _
    rw [Registry.record_setClassData, if_pos rfl]
    simp [hd]

/-- Other places, and other names in the same scope, keep their values. -/
theorem valueAt_storeAt_of_ne (value : Ref) (hne : p ≠ place ∨ n ≠ name ∧ ∃ s, place = .binding s) :
    valueAt (storeAt w name value place).2 n p = valueAt w n p := by
  cases place with
  | binding s =>
    cases p with
    | binding t =>
      show ((w.heap.define s name value).2.scope? t).bind _ = _
      rw [Heap.define, Heap.scope?_modifyScope]
      split
      · next heq =>
        subst heq
        have hn : n ≠ name := hne.elim (fun h ↦ absurd rfl h) And.left
        show _ = (w.heap.scope? s).bind _
        cases w.heap.scope? s with
        | none => rfl
        | some scope => simp [List.lookup_cons, beq_eq_false_iff_ne.mpr hn, lookup_filter_ne hn]
      · rfl
    | slot _ _ => rfl
    | classDatum _ _ => rfl
  | slot owner i =>
    have hne : p ≠ .slot owner i := hne.elim id fun h ↦ by obtain ⟨-, s, hs⟩ := h; cases hs
    cases p with
    | binding _ => rfl
    | slot r j =>
      show (((w.heap.modifyObject owner _).object? r).getD default).slots[j]? = _
      rw [Heap.object?_modifyObject]
      split
      · next heq =>
        subst heq
        have hij : i ≠ j := fun h ↦ hne (h ▸ rfl)
        show _ = ((w.heap.object? owner).getD default).slots[j]?
        cases w.heap.object? owner with
        | none => rfl
        | some o => exact Array.getElem?_setIfInBounds_ne hij
      · rfl
    | classDatum _ _ => rfl
  | classDatum c i =>
    have hne : p ≠ .classDatum c i := hne.elim id fun h ↦ by obtain ⟨-, s, hs⟩ := h; cases hs
    cases p with
    | binding _ => rfl
    | slot _ _ => rfl
    | classDatum b j =>
      show (((w.classes.setClassData c i value).2.record b).classData[j]?).bind _ = _
      rw [Registry.record_setClassData]
      split
      · next heq =>
        subst heq
        have hij : i ≠ j := fun h ↦ hne (h ▸ rfl)
        simp [hij, valueAt, Registry.classDataValue, Registry.classDataOf]
      · rfl

theorem name_of_classDatumOf {i : ℕ} {d : ClassId} (h : classDatumOf w name = some (d, i)) :
    ∃ datum, (w.classes.classDataOf d)[i]? = some datum ∧ datum.name = name := by
  have hdatum : ∀ b, w.classes.classDatum b name = some (d, i) →
      ∃ datum, (w.classes.classDataOf d)[i]? = some datum ∧ datum.name = name := by
    intro b hb
    obtain ⟨a, -, ha⟩ := List.exists_of_findSome?_eq_some hb
    obtain ⟨j, hj, heq⟩ := Option.map_eq_some_iff.mp ha
    cases heq
    obtain ⟨hlt, hname, -⟩ := List.findIdx?_eq_some_iff_getElem.mp hj
    exact ⟨_, List.getElem?_eq_getElem hlt, by simpa using hname⟩
  rcases Option.or_eq_some_iff.mp h with h | ⟨-, h⟩ <;> exact hdatum _ h

/-- A slot has one name, and so has a datum of a class. -/
theorem name_unique {c' : Context} (hplace : placeOf { w with context := c } name = some place)
    (hplace' : placeOf { w with context := c' } n = some place) (hbinding : ∀ s, place ≠ .binding s) : n = name := by
  have hnamed {c : Context} {name : String} (hplace : placeOf { w with context := c } name = some place) : match place with
      | .binding _ => True
      | .slot owner i => w.classes.slotIndex (w.heap.classOf owner) name = some i
      | .classDatum d i => classDatumOf { w with context := c } name = some (d, i) := by
    unfold placeOf at hplace
    dsimp only at hplace
    split at hplace
    · cases hplace
      trivial
    · split at hplace
      · next hslot =>
        cases hplace
        exact hslot
      · obtain ⟨⟨d, i⟩, hdatum, rfl⟩ := Option.map_eq_some_iff.mp hplace
        exact hdatum
  have h := hnamed hplace
  have h' := hnamed hplace'
  cases place with
  | binding s => exact absurd rfl (hbinding s)
  | slot owner i =>
    obtain ⟨⟨slot, hi, hname⟩, -⟩ := Registry.getElem?_of_lastIndexOf h
    obtain ⟨⟨slot', hi', hname'⟩, -⟩ := Registry.getElem?_of_lastIndexOf h'
    cases hi.symm.trans hi'
    exact hname'.symm.trans hname
  | classDatum d i =>
    obtain ⟨datum, hd, hname⟩ := name_of_classDatumOf h
    obtain ⟨datum', hd', hname'⟩ := name_of_classDatumOf h'
    cases hd.symm.trans hd'
    exact hname'.symm.trans hname

/-- In sane worlds there is room in the places that names stand for. -/
theorem Sane.room {σ : Footing} {A : List Link} (h : Sane σ A w) (hplace : placeOf w name = some place) :
    w.Room name place := by
  unfold placeOf at hplace
  cases hbinder : w.heap.binder w.context.env.innermost name with
  | some s =>
    rw [hbinder] at hplace
    cases hplace
    obtain ⟨scope, old, hscope, hold⟩ := Heap.exists_of_binder hbinder
    exact .binding hscope hold
  | none =>
    rw [hbinder] at hplace
    dsimp only at hplace
    cases hslot : w.classes.slotIndex (w.heap.classOf w.context.this) name with
    | some i =>
      rw [hslot] at hplace
      cases hplace
      obtain ⟨o, ho, -⟩ := Heap.object?_of_alive (h.this ▸ h.alive_this)
      have hlt := h.typed.filled _ name i hslot
      rw [Heap.object, ho, Option.getD_some] at hlt
      exact .slot ho hlt
    | none =>
      rw [hslot] at hplace
      obtain ⟨⟨c, i⟩, hdatum, rfl⟩ := Option.map_eq_some_iff.mp hplace
      obtain ⟨d, hd⟩ := getElem?_of_classDatumOf hdatum
      exact .classDatum hd

/-- A name has been given a value in the place that it stands for.  Names stand for what they stood for; where the name stands
for that place the value is read, and nothing else is read in another way. -/
structure Assigned (w : World) (name : String) (value : Ref) (place : Place) (w' : World) : Prop where
  resolves : ∀ c n p, (w.heap.scope? c.env.innermost).isSome → (w'.Resolves c n p ↔ w.Resolves c n p)
  there : ∀ c, w.Resolves c name (some place) → w'.reads c name = .ok value
  elsewhere : ∀ c n, (w.heap.scope? c.env.innermost).isSome → ¬ (n = name ∧ w.Resolves c n (some place)) →
    w'.reads c n = w.reads c n

/-! ### Assigning -/

/-- The value is nil or of a class that is declared for the place, if one is. -/
def Admits (w : World) (place : Place) (value : Ref) : Prop :=
  ∀ c, declaredAt w place = some c → value = .nil ∨ w.classes.isSubtype (w.heap.classOf value) c = true

theorem assignVariable_of_none (hplace : placeOf w name = none) (value : Ref) :
    assignVariable name value w = (.error (.raised (.ofKind (.undefinedVariable name))), w.release [.object value]) := by
  rw [assignVariable_eq, get_bind, hplace]
  rfl

theorem checkData_cases (value : Ref) (c : ClassId) (w : World) :
    (value = .nil ∨ w.classes.isSubtype (w.heap.classOf value) c = true) ∧ checkData value c w = (.ok (), w) ∨
    ¬ (value = .nil ∨ w.classes.isSubtype (w.heap.classOf value) c = true) ∧
      ∃ e, checkData value c w = (.error (.raised e), w) := by
  unfold checkData
  split
  · next hnil => exact .inl ⟨.inl hnil, rfl⟩
  · next hnil =>
    cases hsub : w.classes.isSubtype (w.heap.classOf value) c with
    | true => exact .inl ⟨.inr rfl, by simp [checkType, get_bind, hsub]; rfl⟩
    | false => exact .inr ⟨by simp [hnil], _, by simp [checkType, get_bind, hsub]; rfl⟩

/-- A value that conforms is stored, and the one before is given up; any other is given up itself. -/
theorem assignVariable_of_some (hplace : placeOf w name = some place) (value : Ref) :
    w.Admits place value ∧ assignVariable name value w = store name value place w ∨
    ¬ w.Admits place value ∧ ∃ e, assignVariable name value w = (.error (.raised e), w.release [.object value]) := by
  rw [assignVariable_eq, get_bind, hplace]
  dsimp only
  cases hdeclared : declaredAt w place with
  | none => exact .inl ⟨fun c hc ↦ (by rw [hdeclared] at hc; cases hc), rfl⟩
  | some c =>
    rcases checkData_cases value c w with ⟨hfits, hcheck⟩ | ⟨hmisfit, e, hcheck⟩
    · refine .inl ⟨fun d hd ↦ by cases hdeclared.symm.trans hd; exact hfits, ?_⟩
      have helse : elseRelease (checkData value c) [value] w = (.ok (), w) := by
        rw [elseRelease, hcheck]
      exact bind_of_ok helse
    · refine .inr ⟨fun h ↦ hmisfit (h c hdeclared), e, ?_⟩
      have helse : elseRelease (checkData value c) [value] w = (.error (.raised e), w.release [.object value]) := by
        rw [elseRelease, hcheck]
        rfl
      exact bind_of_error helse

/-- A stored value is read where the name stands for the place, and nothing else is read in another way. -/
theorem Room.assigned (hroom : w.Room name place) (hn : w.heap.Nested) (hw : w.Filled) (hplace : placeOf w name = some place)
    (value : Ref) : w.Assigned name value place (store name value place w).2 := by
  have hreleased := SameData.release (storeAt w name value place).2 ((storeAt w name value place).1.toList.map .object)
  have hsame := (hroom.samePlaces value).trans hreleased.samePlaces
  have hw' := hsame.filled hw
  rw [show (store name value place w).2 =
    (storeAt w name value place).2.release ((storeAt w name value place).1.toList.map .object) from rfl]
  have hthere : ∀ {c n p}, w.Resolves c n p → placeOf { w with context := c } n = p := fun h ↦
    (resolves_iff hn h.scope_isSome).mp h
  refine ⟨fun c n p hc ↦ ?_, fun c hc ↦ ?_, fun c n hc hne ↦ ?_⟩
  · rw [resolves_iff hn hc, resolves_iff (hsame.names.nested hn) ((hsame.names.isSome _).trans hc), hsame.placeOf_eq]
  · rw [reads_eq hw', hsame.placeOf_eq, hthere hc, Option.bind_some, hreleased.valueAt_eq, hroom.valueAt_self value]
  · rw [reads_eq hw', reads_eq hw, hsame.placeOf_eq]
    cases hp : placeOf { w with context := c } n with
    | none => rfl
    | some p =>
      have hresolves := (resolves_iff hn hc).mpr hp
      have hother : p ≠ place ∨ n ≠ name ∧ ∃ s, place = .binding s := by
        by_cases heq : p = place
        · subst heq
          have hname : n ≠ name := fun h ↦ hne ⟨h, hresolves⟩
          refine .inr ⟨hname, ?_⟩
          by_contra hbinding
          exact hname (name_unique (c := w.context) hplace hp fun s hs ↦ hbinding ⟨s, hs⟩)
        · exact .inl heq
      rw [Option.bind_some, Option.bind_some, hreleased.valueAt_eq, valueAt_storeAt_of_ne value hother]

end World

/-- The worlds that code meets: those that a host or a native member comes to, those where an expression has just been
evaluated or where a frame is between two of its tasks, and each of these with one more reference held. -/
inductive Visited : World → Prop where
  | reached {owned : List Link} {w : World} : Reached owned w → Visited w
  | evaluated {owned : List Link} {w w' : World} {value : Ref} (n : ℕ) (id : ExprId) : Reached owned w →
      (Engine.ofBudget n).eval id w = (.ok value, w') → Visited w'
  | stepping {owned : List Link} {w w' : World} {m : MindId} {id : FrameId} {entry : FrameEntry} {frame : Frame}
      {k : Continuation} {callStack : CallStack} (n j : ℕ) : Reached owned w → w.entryAt m id = some entry →
      w.isFinished entry.handle = false → entry.frame = some frame → frame.body = .script k →
      runTasks (.ofBudget n) frame.context.arena j k { w.takeFrame m id entry frame with callStack } =
        (.error .exhausted, w') → Visited w'
  | held {w : World} {r : Ref} : Visited w → w.heap.Alive (.object r) → Visited (w.retain (.object r))

theorem Visited.sane {w : World} (h : Visited w) : ∃ σ A, Sane σ A w := by
  induction h with
  | reached h =>
    obtain ⟨σ, h⟩ := h.sane
    exact ⟨σ, _, h⟩
  | evaluated n id h hrun =>
    obtain ⟨σ, h⟩ := h.sane
    have hgives := (Engine.careful_ofBudget n).eval id h
    rw [Gives, Yields, hrun] at hgives
    exact ⟨_, _, hgives⟩
  | @stepping owned w w' m id entry frame k callStack n j h he hu hframe hbody hrun =>
    obtain ⟨σ, h⟩ := h.sane
    have hlinks : frame.body.links = k.links := by
      rw [hbody]
      rfl
    have htaken := h.takeFrame he hu hframe
    have hpushed : Sane { σ with stack := (m, id) :: σ.stack, this := frame.context.this }
        (k.links ++ (w.context.links ++ (entry.delivered.toList.map .object ++ owned)))
        { w.takeFrame m id entry frame with callStack } := by
      have hin := htaken.mono (B := k.links ++ (w.context.links ++ (entry.delivered.toList.map .object ++ owned))) fun l ↦ by
        simp only [List.count_append, hlinks]
        omega
      exact hin.unconcerned rfl rfl rfl rfl rfl rfl
    have hgives := Gives.runTasks (Engine.careful_ofBudget n) frame.context.arena j hpushed
    rw [Gives, Yields, hrun] at hgives
    obtain ⟨τ, h⟩ := hgives
    exact ⟨_, _, h⟩
  | held _ hr ih =>
    obtain ⟨σ, A, h⟩ := ih
    exact ⟨_, _, h.retain hr⟩

open World

/-- Every walk along the scopes ends, and reading and assigning take a name for the same place.  What is assigned is read by
all code for which the name stands for that place, and nothing else is read in another way; an assignment that fails has
changed nothing that a name can stand for. -/
theorem assigned_is_read {w w' : World} {r : Except Interrupt Unit} (hw : Visited w) (name : String) (value : Ref)
    (hrun : assignVariable name value w = (r, w')) :
    (∀ s n, (w.heap.scope? s).isSome → ∃! b, w.heap.Finds n s b) ∧
    (∀ c n, (w.heap.scope? c.env.innermost).isSome → ∃! p, w.Resolves c n p ∧ w.reads c n =
      match p.bind (valueAt w n) with
      | some read => .ok read
      | none => .error (.raised (.ofKind (.undefinedVariable n)))) ∧
    (w.heap.scope? w.context.env.innermost).isSome ∧
    (r = .ok () ↔ ∃ place, w.Resolves w.context name (some place) ∧ w.Admits place value) ∧
    match r with
    | .ok () => (lookupVariable name w').1 = .ok value ∧ w'.context = w.context ∧
      ∃ place, w.Resolves w.context name (some place) ∧ w.Assigned name value place w'
    | .error i => (∃ e, i = .raised e) ∧ w.SameData w' ∧ ∀ c n, w'.reads c n = w.reads c n := by
  obtain ⟨σ, A, hsane⟩ := hw.sane
  have hn : w.heap.Nested := hsane.covered.nested
  have hw : w.Filled := hsane.typed.filled
  have hscope : (w.heap.scope? w.context.env.innermost).isSome := by
    obtain ⟨scope, hscope, -⟩ := Heap.scope?_of_alive hsane.alive_innermost
    rw [hscope]
    rfl
  have hstands : ∀ p, w.Resolves w.context name p ↔ placeOf w name = p := fun p ↦ resolves_iff hn hscope
  refine ⟨fun s n hs ↦ ⟨_, hn.finds n hs, fun b hb ↦ hb.unique (hn.finds n hs)⟩, fun c n hc ↦ ?_, hscope, ?_⟩
  · exact ⟨_, ⟨resolves hn hc n, reads_eq hw⟩, fun p hp ↦ hp.1.unique (resolves hn hc n)⟩
  cases hplace : placeOf w name with
  | none =>
    rw [assignVariable_of_none hplace] at hrun
    cases hrun
    have hsame := SameData.release w [.object value]
    refine ⟨⟨fun h ↦ (by cases h), fun ⟨place, hresolves, _⟩ ↦ ?_⟩, ⟨_, rfl⟩, hsame, hsame.reads_eq hw⟩
    cases hplace.symm.trans ((hstands _).mp hresolves)
  | some place =>
    rcases assignVariable_of_some hplace value with ⟨hadmits, heq⟩ | ⟨hrefuses, e, heq⟩
    · have hassigned := (hsane.room hplace).assigned hn hw hplace value
      obtain ⟨rfl, rfl⟩ : .ok () = r ∧ (store name value place w).2 = w' := Prod.mk.inj (heq.symm.trans hrun)
      have hcontext : (store name value place w).2.context = w.context := by cases place <;> rfl
      have hresolves := (hstands _).mpr hplace
      have hread := hassigned.there _ hresolves
      rw [← hcontext] at hread
      exact ⟨⟨fun _ ↦ ⟨place, hresolves, hadmits⟩, fun _ ↦ rfl⟩, hread, hcontext, place, hresolves, hassigned⟩
    · rw [heq] at hrun
      cases hrun
      have hsame := SameData.release w [.object value]
      refine ⟨⟨fun h ↦ (by cases h), fun ⟨p, hresolves, hadmits⟩ ↦ ?_⟩, ⟨_, rfl⟩, hsame, hsame.reads_eq hw⟩
      cases hplace.symm.trans ((hstands _).mp hresolves)
      exact absurd hadmits hrefuses

/-! ### A block with one variable -/

/-- A block that binds a name to a number and then reads it. -/
def Arena.counting : Arena where
  nodes := #[.int 7, .bind "count" ⟨0⟩, .ident "count", .block ⟨0, 2⟩]
  lists := #[⟨1⟩, ⟨2⟩]

/-- The run was given up on the way. -/
def gaveUp {α : Type} : Except Interrupt α → Bool
  | .error .exhausted => true
  | _ => false

/-- The evaluation of the block, stopped as soon as the name is bound. -/
def evaluateCounting : Machine Ref :=
  let E := Engine.pausing (fun w ↦ (w.heap.binder w.context.env.innermost "count").isSome) 3
  evaluateBody E .counting ⟨3⟩ >>= finishHostCall E

def World.counting : World := (evaluateCounting (.new {})).2

theorem Visited.counting : Visited .counting := by
  have hstops : gaveUp (evaluateCounting (.new {})).1 = true := by decide +kernel
  have hrun : evaluateCounting (.new {}) = (.error .exhausted, .counting) := by
    refine Prod.ext ?_ rfl
    unfold gaveUp at hstops
    split at hstops
    · assumption
    · cases hstops
  exact .reached ((Reached.start {}).midway _ 3 (.body (.evaluate .counting ⟨3⟩)) hrun)

theorem assigned_is_read_counting : Visited .counting ∧ (lookupVariable "count" .counting).1.toOption = some ⟨1⟩ ∧
    ∃ w', assignVariable "count" .nil .counting = (.ok (), w') ∧ (lookupVariable "count" w').1 = .ok .nil := by
  have hstored : (assignVariable "count" .nil .counting).1.toOption.isSome = true := by decide +kernel
  cases hassign : assignVariable "count" .nil .counting with
  | mk r w' =>
    obtain ⟨-, -, -, -, hreads⟩ := assigned_is_read .counting "count" .nil hassign
    rw [hassign] at hstored
    cases r with
    | error i => cases hstored
    | ok _ => exact ⟨.counting, by decide +kernel, w', rfl, hreads.1⟩

end MindScript
