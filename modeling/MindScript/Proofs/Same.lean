import MindScript.Proofs.Bare

/-!
# Worlds that differ in their counts

Two worlds are the same if neither has anything to destruct and their bare forms agree.  Every function of
the heap and of the scheduler leads from worlds that are the same to worlds that are the same: whatever it
looks at, it does not look at counts.
-/

namespace MindScript

namespace Heap

/-- Heaps without armed instances that differ in their counts alone. -/
structure Same (h h' : Heap) : Prop where
  unarmed : h.Unarmed
  bare : h.bare = h'.bare

/-! ### Changes in place -/

theorem map_modify {α β : Type} {f : α → α} {g : α → β} {f' : β → β} (hf : ∀ a, g (f a) = f' (g a))
    (xs : Array α) (i : Nat) : (xs.modify i f).map g = (xs.map g).modify i f' := by
  apply Array.ext (by simp)
  intro j hj hj'
  simp only [Array.getElem_map, Array.getElem_modify]
  split
  · exact hf _
  · rfl

theorem bare_modifyObject {f : Object → Object} (hf : ∀ o, (f o).bare = f o.bare) (h : Heap) (r : Ref) :
    (h.modifyObject r f).bare = h.bare.modifyObject r f := by
  simp only [bare, modifyObject, map_modify hf]

theorem bare_modifyScope {f : Scope → Scope} (hf : ∀ s, (f s).bare = f s.bare) (h : Heap) (s : ScopeId) :
    (h.modifyScope s f).bare = h.bare.modifyScope s f := by
  simp only [bare, modifyScope, map_modify hf]

theorem bare_modifyOutcome {f : Outcome → Outcome} (hf : ∀ o, (f o).bare = f o.bare) (h : Heap)
    (c : OutcomeId) : (h.modifyOutcome c f).bare = h.bare.modifyOutcome c f := by
  simp only [bare, modifyOutcome, map_modify hf]

theorem Unarmed.modifyObject {h : Heap} (hu : h.Unarmed) {f : Object → Object}
    (hf : ∀ o, (f o).armed = o.armed) (r : Ref) : (h.modifyObject r f).Unarmed := by
  intro s o ho
  rw [object?_modifyObject] at ho
  split at ho
  · obtain ⟨o', ho', rfl⟩ := Option.map_eq_some_iff.mp ho
    rw [hf, hu s o' ho']
  · exact hu s o ho

namespace Same

variable {h h' : Heap}

theorem sizes (hs : Same h h') :
    h'.objects.size = h.objects.size ∧ h'.scopes.size = h.scopes.size ∧ h'.outcomes.size = h.outcomes.size := by
  rw [← size_objects_bare h', ← size_scopes_bare h', ← size_outcomes_bare h', ← hs.bare]
  simp

theorem modifyObject (hs : Same h h') {f : Object → Object} (hf : ∀ o, (f o).bare = f o.bare)
    (harmed : ∀ o, (f o).armed = o.armed) (r : Ref) : Same (h.modifyObject r f) (h'.modifyObject r f) := by
  refine ⟨hs.unarmed.modifyObject harmed r, ?_⟩
  rw [bare_modifyObject hf, bare_modifyObject hf, hs.bare]

theorem modifyScope (hs : Same h h') {f : Scope → Scope} (hf : ∀ s, (f s).bare = f s.bare)
    (s : ScopeId) : Same (h.modifyScope s f) (h'.modifyScope s f) := by
  refine ⟨hs.unarmed, ?_⟩
  rw [bare_modifyScope hf, bare_modifyScope hf, hs.bare]

theorem modifyOutcome (hs : Same h h') {f : Outcome → Outcome} (hf : ∀ o, (f o).bare = f o.bare)
    (c : OutcomeId) : Same (h.modifyOutcome c f) (h'.modifyOutcome c f) := by
  refine ⟨hs.unarmed, ?_⟩
  rw [bare_modifyOutcome hf, bare_modifyOutcome hf, hs.bare]

theorem modifyItems (hs : Same h h') (r : Ref) (f : Sequence → Sequence) :
    Same (h.modifyItems r f) (h'.modifyItems r f) := by
  refine hs.modifyObject (fun o ↦ ?_) (fun o ↦ ?_) r
  · cases hp : o.payload <;> simp [Object.bare, hp]
  · cases hp : o.payload <;> rfl

/-! ### Counting -/

theorem retain (hs : Same h h') (l : Link) : Same (h.retain l) (h'.retain l) := by
  have hb : (h.retain l).bare = h.bare := bare_retain h l
  exact ⟨unarmed_of_bare_eq hb.symm hs.unarmed, by rw [hb, bare_retain, hs.bare]⟩

theorem release (hs : Same h h') (ls ls' : List Link) : Same (h.release ls) (h'.release ls') := by
  have hb := bare_release hs.unarmed ls
  have hb' := bare_release (unarmed_of_bare_eq hs.bare hs.unarmed) ls'
  exact ⟨unarmed_of_bare_eq hb.symm hs.unarmed, by rw [hb, hb', hs.bare]⟩

theorem takeDue (hs : Same h h') : h'.takeDue.1 = h.takeDue.1 ∧ Same h.takeDue.2 h'.takeDue.2 := by
  have hdue : h'.bare.due = h.bare.due := by rw [hs.bare]
  exact ⟨congrArg Array.toList hdue, hs.unarmed, congrArg (fun b : Heap ↦ { b with due := #[] }) hs.bare⟩

/-! ### New cells -/

theorem newObject (hs : Same h h') {o : Object} (ho : o.armed = false) :
    (h'.newObject o).1 = (h.newObject o).1 ∧ Same (h.newObject o).2 (h'.newObject o).2 := by
  refine ⟨congrArg Ref.mk hs.sizes.1, fun r o' hr ↦ ?_, ?_⟩
  · by_cases hnew : r = (h.newObject o).1
    · rw [hnew, object?_newObject_self] at hr
      exact Option.some.inj hr ▸ ho
    · rw [object?_newObject_of_ne hnew] at hr
      exact hs.unarmed r o' hr
  · have hb (h : Heap) : (h.newObject o).2.bare = (h.bare.newObject o.bare).2 := by
      simp [Heap.newObject, Heap.bare]
    rw [hb, hb, hs.bare]

theorem newScope (hs : Same h h') (parent : Option ScopeId) :
    (h'.newScope parent).1 = (h.newScope parent).1 ∧ Same (h.newScope parent).2 (h'.newScope parent).2 := by
  refine ⟨congrArg ScopeId.mk hs.sizes.2.1, hs.unarmed, ?_⟩
  have hb (h : Heap) : (h.newScope parent).2.bare = (h.bare.newScope parent).2 := by
    simp [Heap.newScope, Heap.bare, Scope.bare]
  rw [hb, hb, hs.bare]

theorem newOutcome (hs : Same h h') (status : FrameStatus) :
    Same (h.newOutcome status).2 (h'.newOutcome status).2 := by
  refine ⟨hs.unarmed, ?_⟩
  have hb (h : Heap) : (h.newOutcome status).2.bare = (h.bare.newOutcome status).2 := by
    simp [Heap.newOutcome, Heap.bare, Outcome.bare]
  rw [hb, hb, hs.bare]

theorem define (hs : Same h h') {s s' : ScopeId} (hscope : s' = s) (name : String) (value : Ref) :
    Same (h.define s name value).2 (h'.define s' name value).2 := by
  rw [hscope]
  refine hs.modifyScope (fun _ ↦ ?_) s
  rfl

/-! ### Scopes -/

theorem push (hs : Same h h') (e : Environment) :
    (e.push h').1 = (e.push h).1 ∧ Same (e.push h).2 (e.push h').2 := by
  obtain ⟨hid, hnew⟩ := (hs.retain (.scope e.innermost)).newScope (some e.innermost)
  exact ⟨Environment.ext (congrArg e.scopes.push hid), hnew⟩

theorem root (hs : Same h h') :
    (Environment.new h').1 = (Environment.new h).1 ∧ Same (Environment.new h).2 (Environment.new h').2 := by
  obtain ⟨hid, hnew⟩ := hs.newScope none
  exact ⟨Environment.ext (congrArg (fun s ↦ Stack.ofList [s]) hid), hnew⟩

theorem chained (hs : Same h h') (parent : ScopeId) :
    (Environment.chained h' parent).1 = (Environment.chained h parent).1 ∧
      Same (Environment.chained h parent).2 (Environment.chained h' parent).2 := by
  obtain ⟨hid, hnew⟩ := (hs.retain (.scope parent)).newScope (some parent)
  exact ⟨Environment.ext (congrArg (fun s ↦ Stack.ofList [s]) hid), hnew⟩

theorem truncate (hs : Same h h') (e : Environment) (depth : Nat) :
    Same (e.truncate h depth).2 (e.truncate h' depth).2 :=
  hs.release _ _

theorem pop (hs : Same h h') (e : Environment) :
    (e.pop h').1 = (e.pop h).1 ∧ Same (e.pop h).2 (e.pop h').2 := by
  unfold Environment.pop
  split
  · exact ⟨rfl, hs.truncate e _⟩
  · exact ⟨rfl, hs⟩

end Same

end Heap

namespace World

/-- There is nothing to destruct: no class has a destructor, and no instance is left from a time when its
class had one. -/
structure Inert (w : World) : Prop where
  classes : ∀ c, w.classes.hasDestructor c = false
  heap : w.heap.Unarmed

/-- Worlds with nothing to destruct that differ in their counts alone. -/
structure Same (w w' : World) : Prop where
  inert : w.Inert
  bare : w.bare = w'.bare

namespace Same

variable {w w' : World}

theorem refl (hw : w.Inert) : Same w w := ⟨hw, rfl⟩

theorem heap (h : Same w w') : Heap.Same w.heap w'.heap := ⟨h.inert.heap, congrArg World.heap h.bare⟩

/-- What does not depend on counts is read off both worlds alike. -/
theorem read {α : Type} (h : Same w w') {f : World → α} (hf : ∀ w, f w.bare = f w) : f w' = f w := by
  rw [← hf w', ← h.bare, hf w]

theorem classes (h : Same w w') : w'.classes = w.classes := h.read (f := World.classes) fun _ ↦ rfl

theorem minds (h : Same w w') : w'.minds = w.minds := h.read (f := World.minds) fun _ ↦ rfl

theorem context (h : Same w w') : w'.context = w.context := h.read (f := World.context) fun _ ↦ rfl

theorem current (h : Same w w') : w'.current = w.current := h.read (f := World.current) fun _ ↦ rfl

theorem defaultMind (h : Same w w') : w'.defaultMind = w.defaultMind :=
  h.read (f := World.defaultMind) fun _ ↦ rfl

theorem callStack (h : Same w w') : w'.callStack = w.callStack :=
  h.read (f := World.callStack) fun _ ↦ rfl

theorem mind? (h : Same w w') (m : MindId) : w'.mind? m = w.mind? m :=
  h.read (f := fun w ↦ w.mind? m) fun _ ↦ rfl

theorem entryAt (h : Same w w') (m : MindId) (id : FrameId) : w'.entryAt m id = w.entryAt m id :=
  h.read (f := fun w ↦ w.entryAt m id) fun _ ↦ rfl

theorem isFinished (h : Same w w') : w'.isFinished = w.isFinished := h.read isFinished_bare

theorem symm (h : Same w w') : Same w' w := by
  refine ⟨⟨fun c ↦ ?_, Heap.unarmed_of_bare_eq h.heap.bare h.inert.heap⟩, h.bare.symm⟩
  rw [h.classes]
  exact h.inert.classes c

theorem trans {w'' : World} (h : Same w w') (h' : Same w' w'') : Same w w'' :=
  ⟨h.inert, h.bare.trans h'.bare⟩

/-! ### Changes of parts -/

/-- A change that keeps the classes and does not look at counts. -/
theorem change (h : Same w w') {F : World → World} (hclasses : ∀ w, (F w).classes = w.classes)
    (hbare : ∀ w, (F w).bare = F w.bare) (hheap : ∀ w, (F w).heap = w.heap) : Same (F w) (F w') := by
  refine ⟨⟨fun c ↦ ?_, ?_⟩, by rw [hbare, hbare, h.bare]⟩
  · rw [hclasses]
    exact h.inert.classes c
  · rw [hheap]
    exact h.inert.heap

theorem withHeap (h : Same w w') {H H' : Heap} (hH : Heap.Same H H') :
    Same { w with heap := H } { w' with heap := H' } := by
  refine ⟨⟨h.inert.classes, hH.unarmed⟩, ?_⟩
  have hb : ({ w with heap := H } : World).bare = { w.bare with heap := H.bare } := rfl
  rw [hb, h.bare, hH.bare]
  rfl

theorem release (h : Same w w') (ls ls' : List Link) : Same (w.release ls) (w'.release ls') :=
  h.withHeap (h.heap.release ls ls')

theorem release_right (h : Same w w') (ls : List Link) : Same w (w'.release ls) :=
  h.trans ⟨h.symm.inert, (congrArg (fun heap ↦ { w' with heap }) (Heap.bare_release h.symm.inert.heap ls)).symm⟩

theorem retain_right (h : Same w w') (l : Link) : Same w (w'.retain l) :=
  h.trans ⟨h.symm.inert, (congrArg (fun heap ↦ { w' with heap }) (Heap.bare_retain w'.heap l)).symm⟩

theorem retain (h : Same w w') (l : Link) : Same (w.retain l) (w'.retain l) :=
  h.withHeap (h.heap.retain l)

theorem modifyMind (h : Same w w') (m : MindId) (f : Mind → Mind) :
    Same (w.modifyMind m f) (w'.modifyMind m f) :=
  h.change (F := fun w ↦ w.modifyMind m f) (fun _ ↦ rfl) (fun _ ↦ rfl) fun _ ↦ rfl

theorem modifyEntry (h : Same w w') (m : MindId) (id : FrameId) (f : FrameEntry → FrameEntry) :
    Same (w.modifyEntry m id f) (w'.modifyEntry m id f) :=
  h.modifyMind m _

theorem setStatus (h : Same w w') (x : Handle) (status : FrameStatus) :
    Same (w.setStatus x status) (w'.setStatus x status) := by
  refine h.withHeap (h.heap.modifyOutcome (fun _ ↦ ?_) x.outcome)
  rfl

theorem withCallStack (h : Same w w') (callStack : CallStack) :
    Same { w with callStack } { w' with callStack } :=
  h.change (F := fun w ↦ { w with callStack }) (fun _ ↦ rfl) (fun _ ↦ rfl) fun _ ↦ rfl

theorem withContext (h : Same w w') (context : Context) : Same { w with context } { w' with context } :=
  h.change (F := fun w ↦ { w with context }) (fun _ ↦ rfl) (fun _ ↦ rfl) fun _ ↦ rfl

theorem enter (h : Same w w') (context : Context) (current : Option (MindId × FrameId)) :
    Same (w.enter context current) (w'.enter context current) :=
  h.change (F := fun w ↦ w.enter context current) (fun _ ↦ rfl) (fun _ ↦ rfl) fun _ ↦ rfl

theorem foldl {α : Type} {f : World → α → World}
    (hf : ∀ {w w'}, Same w w' → ∀ a, Same (f w a) (f w' a)) (h : Same w w') (xs : List α) :
    Same (xs.foldl f w) (xs.foldl f w') := by
  induction xs generalizing w w' with
  | nil => exact h
  | cons a rest ih => exact ih (hf h a)

/-! ### The scheduler -/

theorem register (h : Same w w') (m : MindId) (name : String) (owner : ClassId) (parent : Option FrameId)
    (frame : Frame) :
    (w'.register m name owner parent frame).1 = (w.register m name owner parent frame).1 ∧
      Same (w.register m name owner parent frame).2 (w'.register m name owner parent frame).2 := by
  have hoc : (w'.openOutcome frame.context.this).1 = (w.openOutcome frame.context.this).1 := by
    simp only [openOutcome, Heap.newOutcome, h.heap.sizes.2.2]
  have hopen : Same (w.openOutcome frame.context.this).2 (w'.openOutcome frame.context.this).2 := by
    have hnew := h.withHeap (h.heap.newOutcome .pending)
    simp only [openOutcome]
    simp only [openOutcome] at hoc
    rw [hoc]
    exact (hnew.retain _).retain _
  unfold World.register
  dsimp only
  rw [hopen.mind? m, hoc]
  split
  · exact ⟨rfl, hopen⟩
  · exact ⟨rfl, hopen.modifyMind m _⟩

theorem settle (h : Same w w') (m : MindId) (id : FrameId) (ending : Ending) :
    Same (w.settle m id ending) (w'.settle m id ending) := by
  have hname : w'.frameName m id = w.frameName m id :=
    h.read (f := fun w ↦ w.frameName m id) fun _ ↦ rfl
  have horigin : w'.withFrameOrigin = w.withFrameOrigin :=
    h.read (f := World.withFrameOrigin) fun w ↦ by
      funext entry e
      simp [withFrameOrigin]
  unfold World.settle
  rw [h.entryAt, h.isFinished, hname, horigin]
  split
  · exact h.release _ _
  · split
    · exact h.release _ _
    · refine ((h.withHeap (h.heap.modifyOutcome (fun _ ↦ ?_) _)).modifyMind m _).release _ _
      rfl

theorem stopWith {finish : World → FrameId → World}
    (hfinish : ∀ {w w'}, Same w w' → ∀ id, Same (finish w id) (finish w' id)) (h : Same w w')
    (m : MindId) (id : FrameId) : Same (World.stopWith finish m w id) (World.stopWith finish m w' id) := by
  unfold World.stopWith
  rw [h.entryAt, h.isFinished]
  split
  · exact h
  · split
    · exact h
    · split
      · exact h.modifyEntry m id _
      · exact hfinish h id

theorem finishWithin (n : Nat) (h : Same w w') (m : MindId) (id : FrameId) (ending : Ending) :
    Same (World.finishWithin n m w id ending) (World.finishWithin n m w' id ending) := by
  induction n generalizing w w' id ending with
  | zero => exact h
  | succ n ih =>
    unfold World.finishWithin
    rw [h.entryAt, h.isFinished]
    split
    · exact h.release _ _
    · split
      · exact h.release _ _
      · dsimp only
        rw [← Array.foldl_toList, ← Array.foldl_toList]
        refine settle (foldl (fun h id ↦ ?_) (h.modifyEntry m id _) _) m id ending
        exact stopWith (fun h id ↦ ih h id .stopped) h m id

theorem finishFrame (h : Same w w') (m : MindId) (id : FrameId) (ending : Ending) :
    Same (w.finishFrame m id ending) (w'.finishFrame m id ending) := by
  unfold World.finishFrame
  rw [h.heap.sizes.2.2]
  exact finishWithin _ h m id ending

theorem stopFrame (h : Same w w') (m : MindId) (id : FrameId) :
    Same (World.stopFrame m w id) (World.stopFrame m w' id) :=
  stopWith (fun h id ↦ h.finishFrame m id .stopped) h m id

theorem sleep (h : Same w w') (m : MindId) (id : FrameId) (wake : Wake) :
    Same (w.sleep m id wake) (w'.sleep m id wake) := by
  unfold World.sleep
  rw [h.entryAt]
  split
  · exact h.release _ _
  · exact (h.setStatus _ _).modifyMind m _

theorem waitsFor_bare (w : World) (m : MindId) (id : FrameId) : w.bare.waitsFor m id = w.waitsFor m id := by
  simp [waitsFor]

theorem searchStep_bare (w : World) (m : MindId) (target : FrameId) (seen : Std.HashSet FrameId)
    (todo : List FrameId) : w.bare.searchStep m target seen todo = w.searchStep m target seen todo := by
  induction todo with
  | nil => rfl
  | cons id rest ih =>
    unfold searchStep
    rw [ih, waitsFor_bare]

theorem reachesWithin_bare (n : Nat) (w : World) (m : MindId) (target : FrameId)
    (seen : Std.HashSet FrameId) (todo : List FrameId) :
    reachesWithin n w.bare m target seen todo = reachesWithin n w m target seen todo := by
  induction n generalizing seen todo with
  | zero => rfl
  | succ n ih =>
    unfold reachesWithin
    rw [searchStep_bare]
    split
    · rfl
    · rfl
    · exact ih _ _

theorem suspendFrame (h : Same w w') (m : MindId) (id : FrameId) (wake : Wake) :
    Same (w.suspendFrame m id wake) (w'.suspendFrame m id wake) := by
  have hwaits : ∀ start, w'.waitsOn m start id = w.waitsOn m start id := fun start ↦
    h.read (f := fun w ↦ w.waitsOn m start id) fun w ↦ reachesWithin_bare ..
  have hname : w'.frameName m id = w.frameName m id :=
    h.read (f := fun w ↦ w.frameName m id) fun _ ↦ rfl
  unfold World.suspendFrame
  cases wake with
  | frame x =>
    dsimp only
    rw [hwaits, hname]
    split
    · exact (h.finishFrame m id _).release _ _
    · exact h.sleep m id _
  | tick => exact h.sleep m id _
  | atTime t => exact h.sleep m id _
  | event name => exact h.sleep m id _
  | children => exact h.sleep m id _

theorem sweep (h : Same w w') (m : MindId) : Same (w.sweep m) (w'.sweep m) := by
  have hsettled : w'.isSettled = w.isSettled := h.read (f := World.isSettled) fun w ↦ by
    funext mind id
    simp [isSettled]
  unfold World.sweep
  rw [h.mind?, hsettled]
  split
  · exact h
  · split
    · exact (h.modifyMind m _).release _ _
    · exact h

theorem settleMind (h : Same w w') (m : MindId) : Same (w.settleMind m) (w'.settleMind m) := by
  unfold World.settleMind
  rw [h.mind?]
  split
  · exact h
  · exact h.sweep m

theorem notify (h : Same w w') (m : MindId) (event : String) (payload : Ref) :
    (w'.notify m event payload).1 = (w.notify m event payload).1 ∧
      Same (w.notify m event payload).2 (w'.notify m event payload).2 := by
  have hawaits : w'.awaitsEvent event = w.awaitsEvent event :=
    h.read (f := fun w ↦ w.awaitsEvent event) fun w ↦ by
      funext entry
      simp [awaitsEvent]
  unfold World.notify
  rw [h.mind?, hawaits]
  split
  · exact ⟨rfl, h⟩
  · have hdeliver := fun ids ↦ foldl (f := fun w id ↦ (w.retain (.object payload)).modifyEntry m id
      fun e ↦ { e with delivered := some payload })
      (fun h id ↦ (h.retain _).modifyEntry m id _) h ids
    dsimp only
    refine ⟨rfl, ?_⟩
    split
    · exact (hdeliver _).modifyMind m _
    · exact hdeliver _

theorem stop (h : Same w w') (x : Handle) : Same (w.stop x) (w'.stop x) := by
  unfold World.stop World.ownsMind
  rw [h.minds]
  split
  · exact (h.stopFrame _ _).settleMind _
  · exact h

theorem stopAll (h : Same w w') (m : MindId) : Same (w.stopAll m) (w'.stopAll m) := by
  unfold World.stopAll
  rw [h.mind?]
  split
  · exact h
  · exact (foldl (fun h id ↦ h.stopFrame m id) h _).settleMind m

theorem stopOnMind (h : Same w w') (target : Ref) (m : MindId) :
    Same (World.stopOnMind target w m) (World.stopOnMind target w' m) := by
  unfold World.stopOnMind
  rw [h.mind?]
  split
  · exact h
  · exact (foldl (fun h id ↦ h.stopFrame m id) h _).settleMind m

theorem stopAllFor (h : Same w w') (target : Ref) : Same (w.stopAllFor target) (w'.stopAllFor target) := by
  unfold World.stopAllFor World.mindIds
  rw [h.minds]
  exact foldl (fun h m ↦ h.stopOnMind target m) h _

theorem detachChildren (h : Same w w') (m : MindId) (id : FrameId) :
    Same (w.detachChildren m id) (w'.detachChildren m id) := by
  unfold World.detachChildren
  rw [h.entryAt]
  split
  · exact h
  · exact h.modifyMind m _

/-! ### Steps -/

theorem takeFrame (h : Same w w') (m : MindId) (id : FrameId) (entry : FrameEntry) (frame : Frame) :
    Same (w.takeFrame m id entry frame) (w'.takeFrame m id entry frame) :=
  (((h.modifyEntry m id _).setStatus _ _).release _ _).enter _ _

theorem conclude (h : Same w w') (m : MindId) (id : FrameId) (step : Except EvalError Step) :
    Same (w.conclude m id step) (w'.conclude m id step) := by
  unfold World.conclude
  split
  · exact h.finishFrame m id _
  · exact h.suspendFrame m id _
  · exact (h.release _ _).finishFrame m id _

theorem returnFrame (h : Same w w') (m : MindId) (id : FrameId) (frame : Frame)
    (step : Except EvalError Step) :
    Same (w.returnFrame m id frame step) (w'.returnFrame m id frame step) := by
  unfold World.returnFrame
  rw [h.entryAt]
  split
  · exact h.release _ _
  · have hconclude := (h.modifyEntry m id fun e ↦ { e with frame := some frame }).conclude m id step
    dsimp only
    split
    · exact hconclude.stopFrame m id
    · exact hconclude

end Same

end World

end MindScript
