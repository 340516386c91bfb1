import MindScript.Proofs.Custody.Exchange
import MindScript.Proofs.Custody.Failures
import MindScript.Proofs.Custody.Stored
import MindScript.Proofs.Custody.Typing
import MindScript.Proofs.Wakeups.Posted

/-!
# Worlds in good order

Between any two changes the references that the interpreter holds are accounted for: those of the running context,
of class data, of the stored frames and to nil are its roots, and whatever the code that is running right now holds
besides is its hand.  A sane world covers both, is typed, and keeps its books about frames.  What an action does to
the hand is all that its callers have to know of it.
-/

namespace MindScript

/-- What every action leaves as it finds it: the steps under way, the receiver, the number of classes, that there are so
many Minds, and the instances under construction, which their makers hold on to. -/
structure Footing where
  stack : List FrameKey
  this : Ref
  classes : Nat
  minds : Nat
  building : List Ref

namespace Footing

/-- The class is registered. -/
def Knows (σ : Footing) (c : ClassId) : Prop := c.index < σ.classes

/-- The instance is nil, the receiver, or in the hand. -/
def Lends (σ : Footing) (hand : List Link) (r : Ref) : Prop := r = .nil ∨ r = σ.this ∨ .object r ∈ hand

variable {σ : Footing} {A B : List Link} {r : Ref}

theorem lends_this : σ.Lends A σ.this := .inr (.inl rfl)

theorem lends_of_mem (h : .object r ∈ A) : σ.Lends A r := .inr (.inr h)

theorem Lends.mono (h : σ.Lends A r) (hle : ∀ l ∈ A, l ∈ B) : σ.Lends B r := h.imp_right (Or.imp_right (hle _))

end Footing

namespace World

/-! ### Sane worlds -/

/-- What an interpreter knows of its frames agrees with what they are. -/
structure Books (s : List FrameKey) (known : ClassId → Prop) (w : World) : Prop where
  valid : Moment.Valid ⟨s, w⟩
  listed : w.Listed
  posted : w.Posted
  frames : ∀ fr, w.Stores fr → fr.Decent known
  failures : ∀ e, w.Failed e → e.isLoopExit = false

/-- The references that the interpreter holds itself. -/
def roots (w : World) : List Link :=
  w.context.links ++ (w.classes.classDataValues.map .object ++ (w.stored ++ [.object .nil]))

structure Sane (σ : Footing) (hand : List Link) (w : World) : Prop where
  books : w.Books σ.stack σ.Knows
  this : w.context.this = σ.this
  rooted : w.context.Rooted
  classes : w.classes.size = σ.classes
  minds : σ.minds ≤ w.minds.size
  covered : w.heap.Covers (hand ++ (w.roots ++ σ.building.map .object))
  unmarked : ∀ r ∈ σ.building, ¬ w.heap.Destructed r
  typed : w.Typed
  queued : w.heap.Queued
  members : ∀ m, w.classes.Offers m → m.body.Decent σ.Knows

variable {σ : Footing} {s : List FrameKey} {known : ClassId → Prop} {w w' : World} {A B : List Link} {l : Link} {r : Ref}

theorem Books.failures_after (h : w.Books s known) (hblames : Blames w w') (e : EvalError) (he : w'.Failed e) :
    e.isLoopExit = false :=
  (hblames e he).elim (h.failures e) EvalError.Blamed.isLoopExit

/-- What has nothing to do with frames leaves the books in order. -/
theorem Books.of_minds (h : w.Books s known) (hminds : w'.minds = w.minds) (hcurrent : w'.current = w.current)
    (hdefault : w'.defaultMind = w.defaultMind)
    (houtcomes : w'.heap.outcomes.map Outcome.bare = w.heap.outcomes.map Outcome.bare) : w'.Books s known := by
  have hstill : Still w w' := ⟨by rw [hminds], by rw [hminds], houtcomes⟩
  exact ⟨h.valid.act (.compute hstill ⟨hcurrent, hdefault, by rw [hminds]⟩), h.listed.of_minds hminds,
    h.posted.tethers (.of_still hstill), fun fr hfr ↦ h.frames fr (NoNewFrames.of_minds hminds fr hfr),
    h.failures_after (.of_outcomes houtcomes)⟩

/-- Links in hand may be put in another order, and dropped. -/
theorem Sane.mono (h : Sane σ A w) (hle : Within B A) : Sane σ B w :=
  { h with
    covered := h.covered.mono fun l ↦ by
      have hl := hle l
      simp only [List.count_append]
      omega }

/-! ### What is alive -/

namespace Sane

theorem alive (h : Sane σ A w) (hl : l ∈ A) : w.heap.Alive l := h.covered.alive (List.mem_append_left _ hl)

theorem alive_of_roots (h : Sane σ A w) (hl : l ∈ w.roots) : w.heap.Alive l :=
  h.covered.alive (List.mem_append_right _ (List.mem_append_left _ hl))

theorem alive_building (h : Sane σ A w) (hr : r ∈ σ.building) : w.heap.Alive (.object r) :=
  h.covered.alive (List.mem_append_right _ (List.mem_append_right _ (List.mem_map_of_mem hr)))

theorem alive_nil (h : Sane σ A w) : w.heap.Alive (.object .nil) := h.alive_of_roots (by simp [roots])

theorem alive_this (h : Sane σ A w) : w.heap.Alive (.object σ.this) :=
  h.alive_of_roots (by simp [roots, Context.links, h.this])

theorem alive_lent (h : Sane σ A w) (hr : σ.Lends A r) : w.heap.Alive (.object r) := by
  rcases hr with rfl | rfl | hmem
  · exact h.alive_nil
  · exact h.alive_this
  · exact h.alive hmem

theorem alive_scope (h : Sane σ A w) {c : ScopeId} (hc : c ∈ w.context.env.scopes.items) :
    w.heap.Alive (.scope c) :=
  h.alive_of_roots (by simp [roots, Context.links, Environment.links, Stack.toList, hc])

theorem alive_innermost (h : Sane σ A w) : w.heap.Alive (.scope w.context.env.innermost) := by
  refine h.alive_scope ?_
  rw [Environment.innermost, Stack.top?, List.head?_eq_some_head h.rooted]
  exact List.head_mem h.rooted

theorem alive_stored (h : Sane σ A w) {m : MindId} {id : FrameId} {e : FrameEntry} (he : w.entryAt m id = some e)
    (hl : l ∈ e.links) : w.heap.Alive l :=
  h.alive_of_roots (by simp [roots, (within_stored he).mem hl])

theorem alive_classDatum (h : Sane σ A w) {c : ClassId} {i : Nat} (hr : w.classes.classDataValue c i = some r) :
    w.heap.Alive (.object r) := by
  refine h.alive_of_roots ?_
  have hmem : r ∈ w.classes.classDataValues := by
    obtain ⟨d, hd, hvalue⟩ := Option.bind_eq_some_iff.mp hr
    rw [Registry.classDataOf, Registry.record, Array.getD_eq_getD_getElem?] at hd
    cases hc : w.classes.classes[c.index]? with
    | none =>
      rw [hc] at hd
      exact absurd hd (by simp [show (default : ClassRecord).classData = [] from rfl])
    | some record =>
      rw [hc, Option.getD_some] at hd
      refine List.mem_flatMap.mpr ⟨record, by simpa using Array.mem_of_getElem? hc, ?_⟩
      exact List.mem_filterMap.mpr ⟨d, List.mem_of_getElem? hd, hvalue⟩
  simp [roots, hmem]

/-- Items of a live list and slots of a live instance are alive. -/
theorem alive_of_payload (h : Sane σ A w) (hr : w.heap.Alive (.object r)) {p : Payload}
    (hp : w.heap.payload r = p) (hl : l ∈ p.links) : w.heap.Alive l := by
  obtain ⟨o, ho, -⟩ := Heap.object?_of_alive hr
  have hpayload : o.payload = p := by rw [← hp, Heap.payload, Heap.object, ho, Option.getD_some]
  exact h.covered.alive_of_object hr ho (List.mem_append_left _ (hpayload ▸ hl))

theorem alive_slot (h : Sane σ A w) (hr : w.heap.Alive (.object r)) {i : Nat} {value : Ref}
    (hv : (w.heap.object r).slots[i]? = some value) : w.heap.Alive (.object value) := by
  obtain ⟨o, ho, -⟩ := Heap.object?_of_alive hr
  rw [Heap.object, ho, Option.getD_some] at hv
  refine h.covered.alive_of_object hr ho (List.mem_append_right _ ?_)
  exact List.mem_map.mpr ⟨value, by simpa using Array.mem_of_getElem? hv, rfl⟩

theorem alive_result (h : Sane σ A w) {x : Handle} (hx : w.heap.Alive (.outcome x.outcome))
    (hr : (w.heap.outcome x.outcome).result = some r) : w.heap.Alive (.object r) := by
  obtain ⟨o, ho, -⟩ := Heap.outcome?_of_alive hx
  rw [Heap.outcome, ho, Option.getD_some] at hr
  exact h.covered.alive_of_outcome hx ho (by simp [Outcome.links, hr])

/-- What a frame failed with is no loop exit. -/
theorem exit_of_error (h : Sane σ A w) {o : OutcomeId} {e : EvalError} (he : (w.heap.outcome o).error = some e) :
    e.isLoopExit = false := by
  rw [Heap.outcome] at he
  cases ho : w.heap.outcome? o with
  | none =>
    rw [ho] at he
    cases he
  | some c =>
    rw [ho] at he
    exact h.books.failures e ⟨o, c.bare, by rw [cell?, ho, Option.map_some], he⟩

theorem conforms (h : Sane σ A w) (hr : w.heap.Alive (.object r)) {c : ClassId}
    (hc : w.classes.isSubtype (w.heap.classOf r) c = true) : w.Conforms r c := by
  obtain ⟨o, ho, -⟩ := Heap.object?_of_alive hr
  rw [Heap.classOf, Heap.object, ho, Option.getD_some] at hc
  exact ⟨o, ho, (h.typed.instances r o ho).classId, hc⟩

/-- The items of a live list conform to its class. -/
theorem conforms_item (h : Sane σ A w) {p : Sequence} (hr : w.heap.Alive (.object r))
    (hp : w.heap.payload r = .list p) {value : Ref} (hv : value ∈ p.items.toList) : w.Conforms value p.itemClass := by
  obtain ⟨o, ho, -⟩ := Heap.object?_of_alive hr
  have hpayload : o.payload = .list p := by rw [← hp, Heap.payload, Heap.object, ho, Option.getD_some]
  exact (h.typed.instances r o ho).items p hpayload value hv

/-! ### Changes to the heap -/

theorem setHeap (h : Sane σ A w) {heap : Heap} (houtcomes : heap.outcomes.map Outcome.bare = w.heap.outcomes.map Outcome.bare)
    (hexchanges : w.heap.Exchanges A B heap) (htyped : Typed { w with heap }) (hqueued : heap.Queued) :
    Sane σ B { w with heap } where
  books := h.books.of_minds rfl rfl rfl houtcomes
  this := h.this
  rooted := h.rooted
  classes := h.classes
  minds := h.minds
  covered := (hexchanges _ h.covered).1
  unmarked r hr hd := by
    refine h.unmarked r hr ((hexchanges _ h.covered).2 r ?_ hd)
    exact List.mem_append_right _ (List.mem_map_of_mem hr)
  typed := htyped
  queued := hqueued
  members := h.members

/-- Changes that leave instances as they are, up to their counts and marks. -/
theorem age (h : Sane σ A w) {heap : Heap} (houtcomes : heap.outcomes.map Outcome.bare = w.heap.outcomes.map Outcome.bare)
    (hexchanges : w.heap.Exchanges A B heap) (hages : w.heap.Ages heap) : Sane σ B { w with heap } :=
  h.setHeap houtcomes hexchanges (h.typed.of_stock hages.stock rfl) (hages.queued h.queued)

theorem retain (h : Sane σ A w) (hl : w.heap.Alive l) : Sane σ (l :: A) (w.retain l) :=
  h.age (still_retain w l).outcomes (.retain hl A) (.retain l)

theorem release {ls : List Link} (h : Sane σ (ls ++ A) w) : Sane σ A (w.release ls) :=
  h.age (still_release w ls).outcomes ((Heap.Exchanges.release w.heap ls).frame A) (.release ls)

theorem newObject {o : Object} (h : Sane σ (o.links ++ A) w) (ho : w.Houses o) (hone : o.count = 1)
    (hnew : o.destructed = false) :
    Sane σ (.object (w.heap.newObject o).1 :: A) { w with heap := (w.heap.newObject o).2 } := by
  refine h.setHeap rfl (.newObject hone hnew A) (h.typed.newObject ho) ⟨h.queued.once, fun s hs ↦ ?_⟩
  obtain ⟨o', ho', hd⟩ := h.queued.marked s hs
  refine ⟨o', ?_, hd⟩
  rw [Heap.object?_newObject_of_ne, ho']
  rintro rfl
  have hlt := (Array.getElem?_eq_some_iff.mp ho').1
  exact absurd hlt (Nat.lt_irrefl _)

theorem newScope {parent : Option ScopeId} (h : Sane σ (parent.toList.map .scope ++ A) w) :
    Sane σ (.scope (w.heap.newScope parent).1 :: A) { w with heap := (w.heap.newScope parent).2 } :=
  h.age rfl (.of_objects rfl fun G hG ↦ Heap.Covers.newScope (by simpa using hG)) (.of_objects rfl rfl rfl)

/-- An action goes on in another context, and takes the links of that one from the hand. -/
theorem setContext {c : Context} (h : Sane σ A w) (hc : c.Rooted)
    (hle : Within (c.links ++ B) (w.context.links ++ A)) : Sane { σ with this := c.this } B { w with context := c } where
  books := h.books.of_minds rfl rfl rfl rfl
  this := rfl
  rooted := hc
  classes := h.classes
  minds := h.minds
  covered := h.covered.mono fun l ↦ by
    have hl := hle l
    have hstored : ({ w with context := c } : World).stored = w.stored := rfl
    simp only [List.count_append] at hl
    simp only [roots, hstored, List.count_append]
    omega
  unmarked := h.unmarked
  typed := h.typed.of_stock rfl rfl
  queued := h.queued
  members := h.members

theorem setEnv {env : Environment} (h : Sane σ A w) (henv : env.scopes.items ≠ [])
    (hle : Within (env.links ++ B) (w.context.env.links ++ A)) :
    Sane σ B { w with context := { w.context with env } } := by
  have hset := h.setContext (c := { w.context with env }) (B := B) henv fun l ↦ by
    have hl := hle l
    simp only [Context.links, List.count_append] at hl ⊢
    omega
  rwa [h.this] at hset

/-- Notes that nothing refers to. -/
theorem unconcerned (h : Sane σ A w) (hcontext : w'.context = w.context) (hheap : w'.heap = w.heap)
    (hclasses : w'.classes = w.classes) (hminds : w'.minds = w.minds) (hcurrent : w'.current = w.current)
    (hdefault : w'.defaultMind = w.defaultMind) : Sane σ A w' where
  books := h.books.of_minds hminds hcurrent hdefault (by rw [hheap])
  this := hcontext ▸ h.this
  rooted := hcontext ▸ h.rooted
  classes := hclasses ▸ h.classes
  minds := hminds ▸ h.minds
  covered := by
    rw [hheap, roots, hcontext, hclasses, stored_congr hminds]
    exact h.covered
  unmarked := hheap ▸ h.unmarked
  typed := h.typed.of_stock (by rw [hheap]) (by rw [hclasses])
  queued := hheap ▸ h.queued
  members := hclasses ▸ h.members

/-! ### Instances under construction -/

/-- The maker of an instance takes the reference to it out of the hand. -/
theorem build (h : Sane σ (.object r :: A) w) (hnew : ¬ w.heap.Destructed r) :
    Sane { σ with building := r :: σ.building } A w :=
  { h with
    covered := h.covered.mono fun l ↦ by
      simp only [List.map_cons, List.count_append, List.cons_append, count_cons_hits]
      omega
    unmarked := List.forall_mem_cons.mpr ⟨hnew, h.unmarked⟩ }

theorem built (h : Sane { σ with building := r :: σ.building } A w) : Sane σ (.object r :: A) w :=
  { h with
    covered := h.covered.mono fun l ↦ by
      simp only [List.map_cons, List.count_append, List.cons_append, count_cons_hits]
      omega
    unmarked := (List.forall_mem_cons.mp h.unmarked).2 }

/-- Another instance can be marked. -/
theorem mark (h : Sane σ A w) {s : Ref} (hcovers : Heap.Covers (w.heap.modifyObject s fun o ↦ { o with destructed := true })
    (A ++ (w.roots ++ σ.building.map .object))) (hbuilt : s ∉ σ.building) :
    Sane σ A { w with heap := w.heap.modifyObject s fun o ↦ { o with destructed := true } } where
  books := h.books.of_minds rfl rfl rfl rfl
  this := h.this
  rooted := h.rooted
  classes := h.classes
  minds := h.minds
  covered := hcovers
  unmarked r hr hd := by
    obtain ⟨o, ho, hd⟩ := hd
    have hne : s ≠ r := fun heq ↦ hbuilt (heq ▸ hr)
    rw [Heap.object?_modifyObject, if_neg hne] at ho
    exact h.unmarked r hr ⟨o, ho, hd⟩
  typed := h.typed.of_stock (Heap.map_modify_of_eq (f := fun o : Object ↦ { o with destructed := true }) (fun _ ↦ rfl) _ _) rfl
  queued := h.queued.modifyObject s fun _ _ ↦ rfl
  members := h.members

/-! ### Scopes -/

/-- A frame opens a scope inside a live one. -/
theorem chained (h : Sane σ A w) {parent : ScopeId} (hp : w.heap.Alive (.scope parent)) :
    Sane σ ((Environment.chained w.heap parent).1.links ++ A)
      { w with heap := (Environment.chained w.heap parent).2 } := by
  have hretained : Sane σ (.scope parent :: A) (w.retain (.scope parent)) := h.retain hp
  exact @newScope _ _ _ (some parent) hretained

theorem newEnv (h : Sane σ A w) :
    Sane σ ((Environment.new w.heap).1.links ++ A) { w with heap := (Environment.new w.heap).2 } :=
  @newScope _ _ _ none h

theorem pushScope (h : Sane σ A w) : Sane σ A (Machine.pushScope w).2 := by
  have hnew := h.chained h.alive_innermost
  let opened := ((w.heap.retain (.scope w.context.env.innermost)).newScope (some w.context.env.innermost)).1
  have hopened : (Environment.chained w.heap w.context.env.innermost).1.links = [.scope opened] := rfl
  have hpushed : (w.context.env.push w.heap).1.links = w.context.env.links ++ [.scope opened] := by
    simp only [Environment.push, Environment.links, Stack.toList_push, List.map_append, opened]
    rfl
  refine hnew.setEnv (List.cons_ne_nil _ _) fun l ↦ ?_
  change List.count l ((w.context.env.push w.heap).1.links ++ A) ≤ _
  rw [hopened, hpushed]
  simp only [List.count_append]
  omega

theorem truncateScopes (h : Sane σ A w) (depth : Nat) : Sane σ A (Machine.truncateScopes depth w).2 := by
  let env := w.context.env
  let extra := env.depth - max depth 1
  have hheight : env.scopes.height = env.scopes.items.length := env.scopes.height_eq
  have hpos : 0 < env.scopes.items.length := List.length_pos_iff.mpr h.rooted
  have hkept : (env.scopes.drop extra).items ≠ [] := by
    rw [Stack.items_drop, ← List.length_pos_iff, List.length_drop]
    simp only [extra, Environment.depth]
    omega
  have hcut : Sane σ ((env.scopes.topmost extra).map .scope ++ A) { w with context := { w.context with
      env := (env.truncate w.heap depth).1 } } := by
    refine h.setEnv hkept fun l ↦ ?_
    have hsplit := congrArg (fun xs ↦ (xs.map Link.scope).count l) (env.scopes.toList_drop_append_topmost extra)
    simp only [List.map_append, List.count_append] at hsplit
    simp only [Environment.links, Environment.truncate, List.count_append]
    simp only [env, extra] at hsplit ⊢
    omega
  exact hcut.release

theorem popScope (h : Sane σ A w) : Sane σ A (Machine.popScope w).2 := by
  have hpop : (Machine.popScope w).2 = { w with
      heap := (w.context.env.pop w.heap).2
      context := { w.context with env := (w.context.env.pop w.heap).1 } } := rfl
  rw [hpop, Environment.pop]
  split
  · exact h.truncateScopes (w.context.env.depth - 1)
  · exact h

end Sane

end World

end MindScript
