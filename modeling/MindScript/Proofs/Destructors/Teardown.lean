import MindScript.Proofs.Calls.Calm
import MindScript.Proofs.Class.Founded
import MindScript.Proofs.Custody.Variables
import MindScript.Proofs.Destructors.Drains

/-!
# The end of an interpreter

An interpreter ends with a collection.  Before it all coroutines are stopped and all class data give up their values, so
the instances that nothing else kept join those that are due; these keep their places at the head of the queue.  Each has
its turn as in any other collection.  But code that reads class data then fails, and whoever runs a destructor does not
hear of it.
-/

namespace MindScript

open Machine
open World (Sane SamePlaces SameData)

/-! ### Giving up class data -/

namespace Registry

variable {r : Registry}

theorem classDataValue_clearClassData (r : Registry) (c : ClassId) (i : Nat) :
    r.clearClassData.classDataValue c i = none := by
  rw [classDataValue, classDataOf, record_clearClassData, List.getElem?_map]
  cases (r.record c).classData[i]? <;> rfl

theorem classDatum_clearClassData (r : Registry) (c : ClassId) (name : String) :
    r.clearClassData.classDatum c name = r.classDatum c name := by
  simp only [classDatum, ancestors, record_clearClassData, List.findIdx?_map, Function.comp_def]

theorem slotIndex_clearClassData (r : Registry) (c : ClassId) (name : String) :
    r.clearClassData.slotIndex c name = r.slotIndex c name := by
  rw [slotIndex, layout, record_clearClassData, slotIndex, layout]

theorem clearClassData_of_nil (h : r.classDataValues = []) : r.clearClassData = r := by
  have hnone : ∀ record ∈ r.classes, ∀ d ∈ record.classData, d.value = none := fun record hrecord ↦
    List.filterMap_eq_nil_iff.mp (List.flatMap_eq_nil_iff.mp h record (Array.mem_toList_iff.mpr hrecord))
  have hsame : r.classes.map (fun record : ClassRecord ↦
      { record with classData := record.classData.map fun d ↦ { d with value := none } }) = r.classes := by
    refine (Array.map_congr_left fun record hrecord ↦ ?_).trans (Array.map_id _)
    have hdata : record.classData.map (fun d ↦ { d with value := none }) = record.classData := by
      refine (List.map_congr_left fun d hd ↦ ?_).trans (List.map_id _)
      rw [← hnone record hrecord d hd, id_eq]
    rw [hdata, id_eq]
  rw [clearClassData, hsame]

end Registry

/-- Whoever is on the queue keeps his place when references are given up. -/
theorem Heap.due_prefix_release (h : Heap) (ls : List Link) : h.due.toList <+: (h.release ls).due.toList := by
  refine release_induction (P := fun h' ↦ h.due.toList <+: h'.due.toList) (fun h' l hh ↦ ?_) (List.prefix_refl _) ls
  rcases unlink_cases h' l with heq | ⟨r, -, heq⟩ | ⟨s, heq⟩ | ⟨c, heq⟩ | ⟨r, o, -, -, -, -, -, heq⟩ <;> rw [heq]
  · exact hh
  · exact hh
  · exact hh
  · exact hh
  · rw [Array.toList_push]
    exact hh.trans (List.prefix_append _ _)

namespace World

/-- The world after all class data have given up their values. -/
def withoutClassData (w : World) : World :=
  { w with classes := w.classes.clearClassData }.release (w.classes.classDataValues.map .object)

/-- The world in which destructors run no more. -/
def retired (w : World) : World := { w with heap := { w.heap with reaping := false } }

/-- The second world is the first one without the values of class data.  Instances change in their counts and marks alone,
and whoever was due is still at the head of the queue.  Names stand for what they stood for, and code in any context reads
what it would have read, except that it cannot read class data. -/
structure Forgets (w u : World) : Prop where
  others : u = { w with classes := w.classes.clearClassData, heap := u.heap }
  stock : u.heap.objects.map Object.stock = w.heap.objects.map Object.stock
  due : w.heap.due.toList <+: u.heap.due.toList
  places : w.SamePlaces u
  read : ∀ c name, (∀ d i, placeOf { w with context := c } name ≠ some (.classDatum d i)) → u.reads c name = w.reads c name
  unread : ∀ c name d i, placeOf { w with context := c } name = some (.classDatum d i) →
    u.reads c name = .error (.raised (.ofKind (.undefinedVariable name)))
  same : u = w ↔ w.classes.classDataValues = []

theorem samePlaces_withoutClassData (w : World) : w.SamePlaces w.withoutClassData := by
  have hcleared : w.SamePlaces { w with classes := w.classes.clearClassData } :=
    ⟨fun _ _ ↦ rfl, fun _ ↦ rfl, fun _ ↦ rfl, w.classes.slotIndex_clearClassData, w.classes.classDatum_clearClassData⟩
  exact hcleared.trans (SameData.release _ _).samePlaces

theorem valueAt_withoutClassData (w : World) (name : String) {p : Place} (hp : ∀ d i, p ≠ .classDatum d i) :
    valueAt w.withoutClassData name p = valueAt w name p := by
  rw [withoutClassData, (SameData.release _ _).valueAt_eq]
  cases p with
  | binding s => rfl
  | slot owner i => rfl
  | classDatum d i => exact absurd rfl (hp d i)

theorem forgets_withoutClassData (w : World) (hw : w.Filled) : w.Forgets w.withoutClassData where
  others := rfl
  stock := (Heap.Ages.release _).stock
  due := w.heap.due_prefix_release _
  places := w.samePlaces_withoutClassData
  read c name hplace := by
    rw [reads_eq (w.samePlaces_withoutClassData.filled hw), reads_eq hw, w.samePlaces_withoutClassData.placeOf_eq]
    cases hp : placeOf { w with context := c } name with
    | none => rfl
    | some p =>
      rw [Option.bind_some, Option.bind_some, w.valueAt_withoutClassData name fun d i heq ↦ hplace d i (heq ▸ hp)]
  unread c name d i hplace := by
    have hnone : valueAt w.withoutClassData name (.classDatum d i) = none := w.classes.classDataValue_clearClassData d i
    rw [reads_eq (w.samePlaces_withoutClassData.filled hw), w.samePlaces_withoutClassData.placeOf_eq, hplace,
      Option.bind_some, hnone]
  same := by
    refine ⟨fun hsame ↦ ?_, fun hnone ↦ ?_⟩
    · have hclasses : w.classes.clearClassData = w.classes := congrArg World.classes hsame
      rw [← hclasses, Registry.classDataValues_clear]
    · rw [withoutClassData, hnone, Registry.clearClassData_of_nil hnone]
      rfl

end World

/-! ### The last collection -/

variable {owned : List Link} {w : World}

theorem teardown_eq (E : Engine) (w : World) : teardown E w =
    (runDestructors E >>= fun _ ↦ modify World.retired) w.stopEverything.withoutClassData := rfl

/-- What a teardown does is to stop all coroutines, to give up the values of class data, and to collect: everybody who is
due, also because of the stops, has his turn in the order of the queue, alive, and with room on the call stack his
destructor is evaluated.  Unless a class datum holds a value at that time, that is the collection of a host that has
stopped everything. -/
theorem teardown_collects (hw : Reached owned w) (hidle : w.draining = false) (n : Nat) :
    (∀ r ∈ w.heap.due.toList, r ∈ w.stopEverything.heap.due.toList) ∧ ∃ u, w.stopEverything.Forgets u ∧
      ((∃ w', teardown (.ofBudget (n + 1)) w = (.error .exhausted, w')) ∨
        ∃ total u', runDestructors (.ofBudget (n + 1)) u = (.ok total, u') ∧ u'.heap.due = #[] ∧
          teardown (.ofBudget (n + 1)) w = (.ok (), u'.retired) ∧
          ∀ before r rest, w.stopEverything.heap.due.toList = before ++ r :: rest → ∃ more v v',
            Draining (.ofBudget (n + 1)) { u with draining := true } before (r :: (rest ++ more)) v ∧
            v.isAlive r = true ∧ runDestructor (.ofBudget (n + 1)) r v = (.ok (), v') ∧
            ∀ m classes, Registry.resolve (v.heap.classOf r) destructorName none v.classes = (.ok m, classes) →
              v.callStack.depth < v.callStack.maxDepth → ∃ result v'',
                attempt (runMember (.ofBudget n) r m []) (v.enteringDestructor r m classes) = (.ok result, v'')) := by
  obtain ⟨σ, hsane⟩ := hw.sane
  have hforgets := w.stopEverything.forgets_withoutClassData hsane.stopEverything.typed.filled
  refine ⟨(World.deals_stopEverything w).ages.kept, _, hforgets, ?_⟩
  have hgiven : Sane σ owned w.stopEverything.withoutClassData := hsane.stopEverything.clearClassData.release
  have hstart : w.stopEverything.withoutClassData.draining = false := by
    rw [hforgets.others, w.inward_stopEverything.others, hidle]
  rw [teardown_eq]
  generalize w.stopEverything.withoutClassData = u at hforgets hgiven hstart ⊢
  have hbegun : Sane σ owned { u with draining := true } := hgiven.unconcerned rfl rfl rfl rfl rfl rfl
  -- Destructors raise nothing, so that a collection without an end has used up its budget.
  rcases hrun : runDestructors (.ofBudget (n + 1)) u with ⟨(e | _) | total, u'⟩
  · exact absurd (congrArg Prod.fst hrun) (Calm.runDestructors _ _ e)
  · exact .inl ⟨u', bind_of_error hrun⟩
  · obtain ⟨done, v, -, hempty, -, rfl⟩ := draining_of_runDestructors hstart hrun
    refine .inr ⟨total, _, rfl, hempty, bind_of_ok hrun, fun before r rest hdue ↦ ?_⟩
    obtain ⟨more, hmore⟩ := hforgets.due
    have hqueue : u.heap.due.toList = before ++ r :: (rest ++ more) := by
      rw [← hmore, hdue, List.append_assoc, List.cons_append]
    obtain ⟨v, v', hdrain, hturn⟩ := turn_of_due hstart hrun hqueue
    have halive := (hdrain.sane (Engine.careful_ofBudget (n + 1)) hbegun).isAlive List.mem_cons_self
    exact ⟨more, v, v', hdrain, halive, hturn, fun m classes hfound hroom ↦ body_of_turn hturn hfound hroom⟩

/-- An instance waits on the queue when the interpreter ends. -/
theorem teardown_collects_due : ∃ w, Reached [] w ∧ w.draining = false ∧ w.heap.due = #[⟨1⟩] ∧ ∀ n,
    (∃ w', teardown (.ofBudget (n + 1)) w = (.error .exhausted, w')) ∨
      ∃ w' v v', teardown (.ofBudget (n + 1)) w = (.ok (), w') ∧ w'.heap.due = #[] ∧ v.isAlive ⟨1⟩ = true ∧
        runDestructor (.ofBudget (n + 1)) ⟨1⟩ v = (.ok (), v') := by
  obtain ⟨w, hw, hdue, hidle⟩ := Reached.exists_due
  refine ⟨w, hw, hidle, hdue, fun n ↦ ?_⟩
  obtain ⟨hkept, u, -, hstopped | ⟨total, u', -, hempty, htorn, hturns⟩⟩ := teardown_collects hw hidle n
  · exact .inl hstopped
  · obtain ⟨before, rest, hsplit⟩ := List.append_of_mem (hkept ⟨1⟩ (by simp [hdue]))
    obtain ⟨more, v, v', -, halive, hturn, -⟩ := hturns before ⟨1⟩ rest hsplit
    exact .inr ⟨_, v, v', htorn, hempty, halive, hturn⟩

/-! ### A destructor that reads class data -/

/-- The last reference to an instance of the class is given up. -/
theorem Reached.exists_tally : ∃ w, Reached [] w ∧ w.draining = false ∧ w.minds = #[] ∧ w.heap.due = #[⟨2⟩] ∧
    tallied.Remembers w.classes ∧ w.heap.classOf ⟨2⟩ = ⟨11⟩ ∧
    w.heap.binder w.context.env.innermost "total" = none := by
  obtain ⟨classes, hclasses, hregistered⟩ := Reached.exists_tallied
  obtain ⟨-, hsize, hlayout, hsearch, harmed, -⟩ := looks_tallied
  have hc : 11 < tallied.size := hsize ▸ Nat.lt_succ_self 11
  obtain ⟨classes', hclasses', hmade⟩ := hregistered.make hclasses hc rfl hsearch (by rw [hlayout]; rfl)
  rw [harmed] at hmade
  have hdue : Reached [] (World.release _ [.object ⟨2⟩]) := hmade.returns 0 (.release [.object ⟨2⟩]) rfl
  rw [World.release, Heap.release_last (r := ⟨2⟩) rfl rfl rfl rfl rfl] at hdue
  exact ⟨_, hdue, rfl, rfl, rfl, hclasses', rfl, rfl⟩

/-- What the code of a destructor would read when all coroutines are stopped cannot be read when the interpreter ends. -/
theorem not_everything_is_still_read : ¬ ∀ owned w c name value u, Reached owned w → w.draining = false →
    c.this ∈ w.heap.due.toList → w.stopEverything.reads c name = .ok value → w.stopEverything.Forgets u →
    u.reads c name = .ok value := by
  intro hall
  obtain ⟨w, hw, hidle, hminds, hdue, hclasses, hclass, hfree⟩ := Reached.exists_tally
  let c : Context := { w.context with this := ⟨2⟩ }
  have hstopped : w.stopEverything = w := by
    rw [World.stopEverything, World.mindIds, hminds]
    rfl
  obtain ⟨-, -, -, -, -, hslot, hdatum, hvalue⟩ := looks_tallied
  have hslot : w.classes.slotIndex ⟨11⟩ "total" = none := by
    rw [Registry.slotIndex, hclasses.layout]
    exact hslot
  have hdatum : w.classes.classDatum ⟨11⟩ "total" = some (⟨11⟩, 0) := by
    rw [Registry.classDatum, hclasses.ancestors, hclasses.record]
    exact hdatum
  have hvalue : w.classes.classDataValue ⟨11⟩ 0 = some ⟨1⟩ := by
    rw [Registry.classDataValue, hclasses.classDataOf]
    exact hvalue
  have hplace : placeOf { w with context := c } "total" = some (.classDatum ⟨11⟩ 0) := by
    unfold placeOf classDatumOf
    dsimp only [c]
    rw [hfree, hclass, hslot, hdatum]
    rfl
  obtain ⟨σ, hsane⟩ := hw.sane
  have hforgets := w.stopEverything.forgets_withoutClassData hsane.stopEverything.typed.filled
  have hread : w.stopEverything.reads c "total" = .ok ⟨1⟩ := by
    rw [hstopped, World.reads_eq hsane.typed.filled, hplace, Option.bind_some, valueAt, hvalue]
  have hunread := hforgets.unread c "total" ⟨11⟩ 0 (hstopped.symm ▸ hplace)
  cases hunread.symm.trans (hall [] w c "total" ⟨1⟩ _ hw hidle (by simp [c, hdue]) hread hforgets)

end MindScript
