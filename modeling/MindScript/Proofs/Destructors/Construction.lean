import MindScript.Proofs.Destructors.Instances

/-!
# Constructions that fail

A failed construction gives its instance up, and nobody else may see the half-built instance destroyed.  While its
constructor runs the instance is held and has no mark; when that fails, the mark that it gets keeps it off the queue for
good.  Only where a class has no constructor to take the arguments, the instance is given up without a mark.
-/

namespace MindScript

open Machine
open World (Sane History)

variable {w w' v u : World} {taken : List Ref} {r : Ref} {c : ClassId}

/-! ### Instances that are spared -/

namespace World

/-- The instance does not come on the queue of due destructors from here on, and was not taken from it since. -/
def Spares (w : World) (r : Ref) : Prop := ∀ taken u, History w taken u → r ∉ taken ++ u.heap.due.toList

theorem History.waived (h : History w taken u) (hw : w.heap.Waived r) (hr : r ∉ w.heap.due.toList) :
    u.heap.Waived r ∧ r ∉ taken ++ u.heap.due.toList := by
  have hstep : ∀ {h h' : Heap} {taken : List Ref}, h.Reaps h' → h.Waived r ∧ r ∉ taken ++ h.due.toList →
      h'.Waived r ∧ r ∉ taken ++ h'.due.toList := by
    intro h h' taken hreaps ⟨hw, hr⟩
    obtain ⟨hw', hback⟩ := hreaps.waived r hw
    rw [List.mem_append, not_or] at hr ⊢
    exact ⟨hw', hr.1, fun hdue ↦ hr.2 (hback hdue)⟩
  induction h with
  | refl => exact ⟨hw, hr⟩
  | basic _ hbasic hkept ih => exact hstep (reaps_of_kept hbasic hkept) ih
  | takeFrame m id entry frame _ ih => exact hstep (deals_takeFrame _ m id entry frame).ages.toReaps ih
  | returnFrame m id frame step _ ih => exact hstep (deals_returnFrame _ m id frame step).ages.toReaps ih
  | aside _ hobjects hdue hreaping ih => exact hstep (Heap.Ages.of_objects hobjects hdue hreaping).toReaps ih
  | retire _ ih => exact hstep (Heap.Ages.retire _).toReaps ih
  | take _ ih => exact ⟨ih.1, fun hr ↦ ih.2 (by simpa [Heap.takeDue] using hr)⟩

/-- Who has not to wait for his destructor any more never comes on the queue. -/
theorem spares_of_waived (hw : w.heap.Waived r) (hr : r ∉ w.heap.due.toList) : w.Spares r :=
  fun _ _ h ↦ (h.waived hw hr).2

end World

theorem Heap.Queued.not_mem_due {h : Heap} (hq : h.Queued) (hr : ¬ h.Destructed r) : r ∉ h.due.toList :=
  fun hmem ↦ hr (hq.marked r hmem)

/-- The mark of a failed construction keeps the instance off the queue when it is given up. -/
theorem World.spares_given_up {o : Object} (ho : w.heap.object? r = some o) (hr : r ∉ w.heap.due.toList) (ls : List Link) :
    (World.release { w with heap := w.heap.modifyObject r fun o ↦ { o with destructed := true } } ls).Spares r := by
  have hmarked : (w.heap.modifyObject r fun o ↦ { o with destructed := true }).Waived r :=
    ⟨{ o with destructed := true }, by rw [Heap.object?_modifyObject, if_pos rfl, ho, Option.map_some], fun _ _ ↦ rfl⟩
  obtain ⟨hwaived, hback⟩ := (Heap.Ages.release ls).waived r hmarked
  exact spares_of_waived hwaived fun hdue ↦ hr (hback hdue)

/-- Without it an instance that waits for its destructor comes on the queue. -/
theorem Heap.mem_due_of_release {h : Heap} {o : Object} (ho : h.object? r = some o) (harmed : o.armed = true)
    (hnew : o.destructed = false) (hlast : o.count = 1) (hreaping : h.reaping = true) (ls : List Link) :
    r ∈ (h.release (.object r :: ls)).due.toList := by
  let marked : Heap := { h.modifyObject r fun o ↦ { o with destructed := true } with due := h.due.push r }
  have hunlink : h.unlink (.object r) = (none, marked) := by
    simp only [unlink, ho, harmed, hnew, hlast, hreaping]
    rfl
  let room := h.objects.size + h.scopes.size + h.outcomes.size + 1
  have hfirst : h.release (.object r :: ls) = marked.releaseWithin room ls := by
    rw [release, releaseWithin, unlinkUntilFreed, hunlink, releaseWithin]
  have hrest : marked.Ages (marked.releaseWithin room ls) :=
    releaseWithin_induction (P := marked.Ages) (fun _ l hh ↦ hh.trans (.unlink l)) _ (.refl marked) ls
  rw [hfirst]
  exact hrest.kept r (by simp [marked])

/-! ### Making instances -/

namespace Machine

/-- The action gives a reference to nil or to an instance without a destructor. -/
def Mints (make : Machine Ref) : Prop :=
  ∀ w, ∃ r heap, make w = (.ok r, { w with heap }) ∧ heap.reaping = w.heap.reaping ∧ heap.due = w.heap.due ∧
    w.heap.objects.size ≤ heap.objects.size ∧ (r = .nil ∨ ∃ o, heap.object? r = some o ∧ o.armed = false)

namespace Mints

theorem newValue (c : ClassId) (payload : Payload) : Mints (newValue c payload) := fun w ↦
  ⟨_, _, rfl, rfl, rfl, by simp, .inr ⟨_, Heap.object?_newObject_self .., rfl⟩⟩

theorem nil : Mints nil := fun w ↦
  ⟨_, _, rfl, rfl, rfl, by simp [Heap.retain, Heap.modifyObject], .inl rfl⟩

theorem zeroValue (c : ClassId) : Mints (zeroValue c) := by
  unfold Machine.zeroValue
  split
  · exact newValue _ _
  split
  · exact newValue _ _
  split
  · exact newValue _ _
  split
  · exact newValue _ _
  · exact nil

/-- Values of the core classes have no destructors. -/
theorem constructCore? {make : Machine Ref} (h : constructCore? c = some make) : Mints make := by
  unfold Machine.constructCore? at h
  split at h
  · exact Option.some.inj h ▸ nil
  split at h
  · exact Option.some.inj h ▸ newValue Core.list (.list { itemClass := Core.object, items := #[] })
  split at h
  · exact Option.some.inj h ▸ zeroValue c
  · cases h

end Mints

theorem zeroValues_ok (slots : List Slot) (w : World) : ∃ values heap, zeroValues slots w = (.ok values, { w with heap }) ∧
    heap.reaping = w.heap.reaping ∧ w.heap.objects.size ≤ heap.objects.size := by
  induction slots generalizing w with
  | nil => exact ⟨[], w.heap, rfl, rfl, Nat.le_refl _⟩
  | cons slot rest ih =>
    obtain ⟨value, heap, hvalue, hreaping, -, hsize, -⟩ := Mints.zeroValue slot.valueClass w
    obtain ⟨values, heap', hvalues, hreaping', hsize'⟩ := ih { w with heap }
    refine ⟨value :: values, heap', ?_, hreaping'.trans hreaping, hsize.trans hsize'⟩
    rw [zeroValues, bind_of_ok hvalue, bind_of_ok hvalues]
    rfl

/-- A new instance waits for its destructor if its class has one now. -/
theorem newInstance_ok (c : ClassId) (w : World) : ∃ r slots heap, newInstance c w = (.ok r, { w with heap }) ∧
    w.heap.object? r = none ∧ heap.reaping = w.heap.reaping ∧
    heap.object? r = some { classId := c, payload := .plain, slots, armed := w.classes.hasDestructor c } := by
  obtain ⟨values, heap, hvalues, hreaping, hsize⟩ := zeroValues_ok (w.classes.layout c) w
  refine ⟨(heap.newObject _).1, values.toArray, (heap.newObject _).2, ?_, ?_, hreaping, Heap.object?_newObject_self ..⟩
  · rw [newInstance, get_bind, bind_of_ok hvalues]
    rfl
  · exact Array.getElem?_eq_none hsize

end Machine

/-! ### Failed constructions -/

variable {σ : Footing} {G : List Link} {args : ArgValues} {n : Nat} {e : EvalError} {m : Member} {E : Engine} {v₁ : World}

/-- The instance is marked and given up when its constructor fails. -/
theorem Machine.construct_of_raised (hcore : constructCore? c = none) (hmake : newInstance c w = (.ok r, v))
    (hfind : findMember c constructorName v = (.ok (some m), v₁))
    (hruns : E.invoke r m args (v₁.retain (.object r)) = (.error (.raised e), u)) :
    construct E c args w = (.error (.raised e), World.release
      { u with heap := u.heap.modifyObject r fun o ↦ { o with destructed := true } } [.object r]) := by
  have hretain : retain r v₁ = (.ok (), v₁.retain (.object r)) := rfl
  rw [construct, get_bind, hcore]
  dsimp only
  rw [bind_of_ok hmake, bind_of_ok hfind]
  dsimp only
  rw [bind_of_ok hretain, bind_of_ok (attempt_of_raised hruns)]
  rfl

/-- The instance is given up as it is when there is no constructor to take the arguments. -/
theorem Machine.construct_of_none (hcore : constructCore? c = none) (hmake : newInstance c w = (.ok r, v))
    (hfind : findMember c constructorName v = (.ok none, v₁)) (hargs : args ≠ []) :
    construct E c args w = (.error (.raised (.ofKind (.arityMismatch (w.classes.nameOf c) 0 args.length))),
      v₁.release (.object r :: args.map fun p ↦ .object p.2)) := by
  have hempty : args.isEmpty = false := by simpa using hargs
  have hheld : (r :: args.map Prod.snd).map Link.object = .object r :: args.map fun p ↦ .object p.2 := by simp
  rw [construct, get_bind, hcore]
  dsimp only
  rw [bind_of_ok hmake, bind_of_ok hfind]
  dsimp only
  rw [hempty, if_neg Bool.false_ne_true, releaseAll, hheld]
  rfl

theorem Machine.exists_raised_of_construct (hcore : constructCore? c = none) (hmake : newInstance c w = (.ok r, v))
    (hfind : findMember c constructorName v = (.ok (some m), v₁))
    (hfails : construct E c args w = (.error (.raised e), w')) :
    ∃ u, E.invoke r m args (v₁.retain (.object r)) = (.error (.raised e), u) := by
  have hretain : retain r v₁ = (.ok (), v₁.retain (.object r)) := rfl
  rcases hruns : E.invoke r m args (v₁.retain (.object r)) with ⟨(e' | _) | value, u⟩
  · cases (construct_of_raised hcore hmake hfind hruns).symm.trans hfails
    exact ⟨u, rfl⟩
  all_goals
    rw [construct, get_bind, hcore] at hfails
    dsimp only at hfails
    rw [bind_of_ok hmake, bind_of_ok hfind] at hfails
    dsimp only at hfails
    rw [bind_of_ok hretain] at hfails
  · rw [bind_of_error (attempt_of_exhausted hruns)] at hfails
    cases hfails
  · rw [bind_of_ok (attempt_of_ok hruns)] at hfails
    cases hfails

/-- While the constructor runs, its caller holds on to the instance, which nobody puts on the queue. -/
theorem not_due_of_constructor (h : Sane σ (.object r :: (argLinks args ++ G)) v) (hnew : ¬ v.heap.Destructed r)
    (hm : m.body.Decent σ.Knows)
    (hruns : (Engine.ofBudget n).invoke r m args (v.retain (.object r)) = (.error (.raised e), u)) :
    (∃ o, u.heap.object? r = some o) ∧ (∃ taken, History v taken u) ∧
      ∀ taken, History v taken u → r ∉ taken ++ u.heap.due.toList := by
  have hheld := (h.build hnew).retain ((h.build hnew).alive_building List.mem_cons_self)
  have hcall : Sane { σ with building := r :: σ.building } (argLinks args ++ (.object r :: G)) (v.retain (.object r)) :=
    hheld.mono (by grind)
  have hgives := (Engine.careful_ofBudget n).invoke r m args hcall hm
  rw [Gives, Yields, hruns] at hgives
  have hended : Sane { σ with building := r :: σ.building } (e.links ++ G) u := hgives
  have hunmarked : ¬ u.heap.Destructed r := hended.unmarked r List.mem_cons_self
  have hinvoke := (Engine.satisfies_ofBudget World.hospitable_history.toCompositional n).invoke
    ⟨σ.stack.head?, 0, true, none⟩ r m args
  obtain ⟨taken, hpast⟩ := hinvoke.along σ.stack _ hcall.books.valid rfl (Nat.zero_le _)
  rw [hruns] at hpast
  obtain ⟨o, ho, -⟩ := Heap.object?_of_alive (hended.alive_building List.mem_cons_self)
  have hretain : History v [] (v.retain (.object r)) :=
    (History.refl v).basic (σ := ⟨none, 0, true, none⟩) (.retainLink (.object r)) (Heap.Ages.retain _).kept
  exact ⟨⟨o, ho⟩, ⟨taken, hretain.trans hpast⟩, fun taken hpast hmem ↦
    hunmarked ((hpast.accounts h.queued).marked r hmem)⟩

/-- Values of the core classes are spared. -/
theorem Machine.Mints.spares {make : Machine Ref} (hmints : Mints make) (h : Sane σ G w) (hmake : make w = (.ok r, v))
    (hnew : w.heap.object? r = none) : v.Spares r := by
  obtain ⟨r', heap, hrun, -, hdue, -, hunarmed⟩ := hmints w
  obtain ⟨rfl, rfl⟩ : r' = r ∧ { w with heap } = v := by
    cases hrun.symm.trans hmake
    exact ⟨rfl, rfl⟩
  have habsent : r' ∉ w.heap.due.toList := h.queued.not_mem_due fun ⟨o, ho, _⟩ ↦ by
    rw [hnew] at ho
    cases ho
  rcases hunarmed with rfl | ⟨o, ho, harmed⟩
  · obtain ⟨o, ho, -⟩ := Heap.object?_of_alive h.alive_nil
    rw [hnew] at ho
    cases ho
  · refine World.spares_of_waived ⟨o, ho, fun _ ha ↦ ?_⟩ (hdue ▸ habsent)
    exact absurd (harmed.symm.trans ha) Bool.false_ne_true

/-- The instance of a failed construction does not come on the queue of due destructors if a core class or a class
without a destructor was to be instantiated, or if the constructor failed.  If the class has a destructor, but no
constructor to take the arguments, then the destructor of the instance becomes due. -/
theorem failed_construction_spares (h : Sane σ (argLinks args ++ G) w) (hc : σ.Knows c)
    (hfails : construct (.ofBudget n) c args w = (.error (.raised e), w')) :
    (∀ make r v, constructCore? c = some make → make w = (.ok r, v) → w.heap.object? r = none → v.Spares r) ∧
    (constructCore? c = none → ∃ r v found v₁, newInstance c w = (.ok r, v) ∧ w.heap.object? r = none ∧
      findMember c constructorName v = (.ok found, v₁) ∧
      (¬ (w.classes.hasDestructor c = true ∧ w.heap.reaping = true) → v.Spares r) ∧
      (∀ m, found = some m → ∃ u,
        (Engine.ofBudget n).invoke r m args (v₁.retain (.object r)) = (.error (.raised e), u) ∧
        (∃ taken, History v₁ taken u) ∧ (∀ taken, History v₁ taken u → r ∉ taken ++ u.heap.due.toList) ∧
        (∃ taken, History u taken w') ∧ w'.Spares r) ∧
      (found = none → args ≠ [] ∧
        (w.classes.hasDestructor c = true ∧ w.heap.reaping = true → r ∈ w'.heap.due.toList))) := by
  refine ⟨fun make r v hmake hrun hnew ↦ (Mints.constructCore? hmake).spares h hrun hnew, fun hcore ↦ ?_⟩
  obtain ⟨r, slots, heap, hmake, hfresh, hreaping, ho⟩ := newInstance_ok c w
  have hmade := Gives.newInstance h hc
  rw [Yields, hmake] at hmade
  obtain ⟨hsane, -, hnew⟩ := hmade
  let v : World := { w with heap }
  let v₁ : World := { v with classes := (v.classes.find c constructorName).2 }
  have hfind : findMember c constructorName v = (.ok (v.classes.find c constructorName).1, v₁) := rfl
  have hfound := Yields.findMember hsane c constructorName
  rw [Yields, hfind] at hfound
  obtain ⟨hsane₁, hdecent⟩ := hfound
  refine ⟨r, v, _, v₁, hmake, hfresh, hfind, fun hwaived ↦ ?_, fun m hm ↦ ?_, fun hnone ↦ ?_⟩
  · refine World.spares_of_waived ⟨_, ho, fun hr ha ↦ absurd ⟨ha, hreaping ▸ hr⟩ hwaived⟩ ?_
    exact hsane.queued.not_mem_due hnew
  · rw [hm] at hfind
    obtain ⟨u, hruns⟩ := exists_raised_of_construct hcore hmake hfind hfails
    obtain ⟨⟨o, hu⟩, ⟨taken, hpast⟩, hmeanwhile⟩ := not_due_of_constructor hsane₁ hnew (hdecent m hm) hruns
    cases (construct_of_raised hcore hmake hfind hruns).symm.trans hfails
    refine ⟨u, hruns, ⟨taken, hpast⟩, hmeanwhile, ?_, ?_⟩
    · exact History.lasting.trans (History.lasting.basic (.disarm (σ := ⟨none, 0, true, none⟩) r) u)
        (History.lasting.release _ [.object r])
    · exact World.spares_given_up hu (fun hdue ↦ hmeanwhile taken hpast (List.mem_append_right _ hdue)) _
  · rw [hnone] at hfind
    have hargs : args ≠ [] := by
      rintro rfl
      rw [construct, get_bind, hcore] at hfails
      dsimp only at hfails
      rw [bind_of_ok hmake, bind_of_ok hfind] at hfails
      cases hfails
    cases (construct_of_none hcore hmake hfind hargs).symm.trans hfails
    refine ⟨hargs, ?_⟩
    rintro ⟨harmed, hreaping'⟩
    exact Heap.mem_due_of_release ho harmed rfl rfl (hreaping.trans hreaping') _

def constructorDecl : MemberDecl := ⟨constructorName, .method, default⟩

/-- A call on a full call stack fails before the body of the member starts. -/
theorem invokeMember_of_full {E : Engine} {this : Ref} (hfull : w.callStack.maxDepth ≤ w.callStack.depth) :
    invokeMember E this m args w = (.error (.raised (.ofKind (.stackOverflow w.callStack.maxDepth))),
      w.release ((args.map Prod.snd ++ [this]).map .object)) := by
  have hpush : w.callStack.push ⟨w.classes.nameOf m.owner, m.name⟩ =
      .error (.ofKind (.stackOverflow w.callStack.maxDepth)) := by
    rw [CallStack.push, if_neg (Nat.not_lt.mpr hfull)]
  rw [invokeMember, get_bind, withInvocation, get_bind]
  dsimp only
  rw [hpush]
  rfl

/-- The checks of a class with a constructor and a destructor pass. -/
theorem looks_constructed :
    (CoreClass.all.foldl Registry.adding {}).accepts (thing [constructorDecl, Registry.destructorDecl]) = true ∧
    (coreAnd (thing [constructorDecl, Registry.destructorDecl])).size = 12 ∧
    (coreAnd (thing [constructorDecl, Registry.destructorDecl])).hasDestructor ⟨11⟩ = true ∧
    ((coreAnd (thing [constructorDecl, Registry.destructorDecl])).search ⟨11⟩ constructorName).isSome = true := by
  decide +kernel

/-- On a call stack without room the constructor fails at once. -/
theorem failed_construction_spares_withoutRoom : ∃ w, Reached [] w ∧ w.heap.reaping = true ∧
    w.classes.hasDestructor ⟨11⟩ = true ∧ ∃ e r v w', newInstance ⟨11⟩ w = (.ok r, v) ∧
      construct (.ofBudget 1) ⟨11⟩ [] w = (.error (.raised e), w') ∧ w'.Spares r := by
  obtain ⟨haccepts, hsize, harmed, hfound⟩ := looks_constructed
  obtain ⟨classes, hclasses, hw⟩ := Reached.exists_registered { maxCallDepth := 0 } haccepts
    (by simp [thing, constructorDecl, Registry.destructorDecl, MemberBody.Decent])
  let w : World := { World.new { maxCallDepth := 0 } with classes }
  obtain ⟨σ, hsane⟩ := hw.sane
  have hsize : classes.size = 12 := hclasses.size.trans hsize
  have harmed : classes.hasDestructor ⟨11⟩ = true := (hclasses.hasDestructor _).trans harmed
  have hknows : σ.Knows ⟨11⟩ := by
    rw [Footing.Knows, ← hsane.classes]
    exact hsize ▸ Nat.lt_succ_self 11
  obtain ⟨m, hm⟩ : ∃ m, classes.search ⟨11⟩ constructorName = some m := by
    rwa [hclasses.search, ← Option.isSome_iff_exists]
  obtain ⟨r, slots, heap, hmake, -, -, -⟩ := newInstance_ok ⟨11⟩ w
  obtain ⟨hanswer, -⟩ := Registry.find_of_sound hclasses.sound (c := ⟨11⟩) (hsize ▸ Nat.lt_succ_self 11) constructorName
  let v₁ : World := { w with heap, classes := (classes.find ⟨11⟩ constructorName).2 }
  have hfind : findMember ⟨11⟩ constructorName { w with heap } = (.ok (some m), v₁) := by
    rw [← hm, ← hanswer]
    rfl
  have hruns : (Engine.ofBudget 1).invoke r m [] (v₁.retain (.object r)) = _ := invokeMember_of_full (Nat.zero_le _)
  have hfails := construct_of_raised rfl hmake hfind hruns
  obtain ⟨r', v', found, v₁', hmake', -, hfind', -, hspared, -⟩ := (failed_construction_spares hsane hknows hfails).2 rfl
  cases hmake.symm.trans hmake'
  cases hfind.symm.trans hfind'
  obtain ⟨u, -, -, -, -, hspares⟩ := hspared m rfl
  exact ⟨w, hw, rfl, harmed, _, r, _, _, hmake, hfails, hspares⟩

/-- An argument for a class that has a destructor and no constructor. -/
theorem not_every_failed_construction_spares : ¬ ∀ owned w c rs args w₁ n e w' r v, Reached owned w →
    c.index < w.classes.size → (∀ a ∈ rs, Owns owned a) → shareArgs rs w = (.ok args, w₁) →
    construct (.ofBudget n) c args w₁ = (.error (.raised e), w') → constructCore? c = none →
    newInstance c w₁ = (.ok r, v) → w'.Spares r := by
  intro hall
  obtain ⟨haccepts, hsize, -, hsearch, harmed⟩ := looks_armed
  obtain ⟨classes, hclasses, hw⟩ := Reached.exists_registered {} haccepts
    (fun d hd _ ↦ List.mem_singleton.mp hd ▸ trivial)
  have hsize : 11 < classes.size := hclasses.size.trans hsize ▸ Nat.lt_succ_self 11
  have harmed : classes.hasDestructor ⟨11⟩ = true := (hclasses.hasDestructor _).trans harmed
  have hsearch : classes.search ⟨11⟩ constructorName = none := by rwa [hclasses.search]
  let w₁ : World := World.retain { World.new {} with classes } (.object .nil)
  obtain ⟨r, slots, heap, hmake, -, hreaping, ho⟩ := newInstance_ok ⟨11⟩ w₁
  obtain ⟨hanswer, -⟩ := Registry.find_of_sound hclasses.sound (c := ⟨11⟩) hsize constructorName
  have hfind : findMember ⟨11⟩ constructorName { w₁ with heap } =
      (.ok none, { w₁ with heap, classes := (classes.find ⟨11⟩ constructorName).2 }) := by
    rw [← hsearch, ← hanswer]
    rfl
  have hgiven : ([(none, .nil)] : ArgValues) ≠ [] := List.cons_ne_nil _ _
  have hfails := construct_of_none (E := .ofBudget 0) rfl hmake hfind hgiven
  have hspares := hall _ _ ⟨11⟩ [.nil] _ w₁ 0 _ _ r _ hw hsize (by simp [Owns]) rfl hfails rfl hmake
  exact hspares [] _ (.refl _) (Heap.mem_due_of_release ho harmed rfl rfl hreaping _)

end MindScript
