import MindScript.Proofs.Class.Founded
import MindScript.Proofs.Destructors.History

/-!
# Instances of classes with destructors

A host registers classes, makes instances and adds members later on.  Whether the destructor of an instance will ever
run is decided when the instance is made: it is put on the queue when the last reference to it is given up, if its
class had a destructor then.
-/

namespace MindScript

open Machine
open World (Sane)

variable {owned : List Link} {w w' : World} {c : ClassId} {r : Ref}

theorem Machine.onClasses_of_ok {α : Type} {act : Registry.Action α} {a : α} {classes : Registry}
    (h : act w.classes = (.ok a, classes)) : onClasses act w = (.ok a, { w with classes }) := by
  rw [onClasses, h]

/-! ### Giving up an instance -/

/-- An instance that waits for its destructor when the last reference to it is given up comes on the queue, which then
holds that reference. -/
theorem Heap.release_last {h : Heap} {o : Object} (ho : h.object? r = some o) (harmed : o.armed = true)
    (hnew : o.destructed = false) (hlast : o.count = 1) (hreaping : h.reaping = true) :
    h.release [.object r] =
      { h.modifyObject r fun o ↦ { o with destructed := true } with due := h.due.push r } := by
  have hunlink : h.unlink (.object r) =
      (none, { h.modifyObject r fun o ↦ { o with destructed := true } with due := h.due.push r }) := by
    simp only [unlink, ho, harmed, hnew, hlast, hreaping]
    rfl
  rw [release, releaseWithin, unlinkUntilFreed, hunlink]
  rfl

/-- Nobody who waits for his destructor is freed before it is scheduled. -/
theorem Reached.guarded (h : Reached owned w) : w.heap.Guarded := by
  obtain ⟨config, taken, hpast⟩ := h.history
  refine hpast.guarded fun _ r o ho harmed ↦ ?_
  rw [Heap.object?, World.heap_new] at ho
  obtain ⟨_ | i⟩ := r
  · obtain rfl := Option.some.inj ho
    cases harmed
  · cases ho

/-! ### What a host does with classes

What becomes of classes does not depend on the answers that a registry remembers. -/

namespace Reached

variable {r : Registry}

theorem register (h : Reached owned w) (hr : r.Remembers w.classes) {decl : ClassDecl} (haccepts : r.accepts decl = true)
    (hdecent : ∀ d ∈ decl.members, d.body.Decent (·.index ≤ w.classes.size)) :
    ∃ classes, (r.adding decl).Remembers classes ∧ Reached owned { w with classes } := by
  obtain ⟨classes, hregister, hremembers⟩ := Registry.register_of_accepts hr haccepts
  refine ⟨classes, hremembers, h.returns 0 (.registerClass hdecent) (a := ⟨r.size⟩) ?_⟩
  have hdata : classes.classDataOf ⟨r.size⟩ = [] :=
    (hremembers.classDataOf _).trans (congrArg ClassRecord.classData (Registry.record_addRecord_self r _))
  rw [Machine.registerClass, bind_of_ok (onClasses_of_ok hregister), get_bind]
  dsimp only
  rw [hdata]
  rfl

theorem define (h : Reached owned w) (hr : r.Remembers w.classes) (hc : c.index < r.size) {decl : MemberDecl}
    (hadmits : r.Admits (r.supertypes c) (r.nameOf c) decl) (hreplace : r.checkReplace c decl = .ok ())
    (hdecent : decl.body.Decent (·.index < w.classes.size)) :
    ∃ classes, (r.storeMember c decl).Remembers classes ∧ Reached owned { w with classes } := by
  obtain ⟨classes, hdefine, hremembers⟩ := Registry.define_of_admits hr hc hadmits hreplace
  exact ⟨classes, hremembers, h.returns 0 (.defineMember c hdecent) (onClasses_of_ok hdefine)⟩

/-- An instance of a class without constructor, whose slots have got their first values. -/
theorem make (h : Reached owned w) (hr : r.Remembers w.classes) (hc : c.index < r.size)
    (hcore : Machine.constructCore? c = none) (hsearch : r.search c constructorName = none) {slots : List Ref} {heap : Heap}
    (hslots : zeroValues (r.layout c) w = (.ok slots, { w with heap })) :
    ∃ classes, r.Remembers classes ∧ Reached (.object ⟨heap.objects.size⟩ :: owned)
      { w with
        classes
        heap := (heap.newObject
          { classId := c, payload := .plain, slots := slots.toArray, armed := r.hasDestructor c }).2 } := by
  have hsize : w.classes.size = r.size := hr.size
  obtain ⟨hanswer, -⟩ := Registry.find_of_sound hr.sound (hsize ▸ hc) constructorName
  rw [hr.search, hsearch] at hanswer
  let object : Object := { classId := c, payload := .plain, slots := slots.toArray, armed := r.hasDestructor c }
  let made : World := { w with heap := (heap.newObject object).2 }
  let classes : Registry := (w.classes.find c constructorName).2
  have hnew : newInstance c w = (.ok ⟨heap.objects.size⟩, made) := by
    rw [newInstance, get_bind, hr.layout, bind_of_ok hslots, allocate, get_bind]
    dsimp only
    rw [hr.hasDestructor]
    rfl
  have hfound : Registry.findMember c constructorName w.classes = (.ok none, classes) :=
    congrArg (fun answer ↦ (Except.ok answer, classes)) hanswer
  have hfind : findMember c constructorName made = (.ok none, { made with classes }) := onClasses_of_ok hfound
  have hconstruct : construct (.ofBudget 0) c [] w = (.ok ⟨heap.objects.size⟩, { made with classes }) := by
    rw [construct, get_bind, hcore]
    exact (bind_of_ok hnew).trans (bind_of_ok hfind)
  have hbody : FairBody (.ofBudget 0) w owned (newBody (.ofBudget 0) c []) fun r ↦ [.object r] :=
    .new (hsize ▸ hc) fun r hr ↦ by cases hr
  exact ⟨classes, hr.find hc constructorName, h.safePoint 0 hbody (attempt_of_ok hconstruct)⟩

end Reached

/-! ### A class with a datum -/

/-- A class whose instances read a datum of the class when they end. -/
def tally : ClassDecl where
  name := "Tally"
  classData := [⟨"total", "Integer"⟩]
  members := [⟨destructorName, .method, .script { nodes := #[.ident "total"] } .empty ⟨0⟩⟩]

/-- The classes of a new interpreter and that class, whose datum has no value yet. -/
def coreAndTally : Registry :=
  let r := CoreClass.all.foldl Registry.adding {}
  r.addRecord (r.newRecord tally [Core.object] [] [⟨"total", Core.integer, none⟩])

/-- The same classes after the datum has got its first value. -/
def tallied : Registry := (coreAndTally.setClassData ⟨11⟩ 0 ⟨1⟩).2

/-- It has neither slots nor a constructor. -/
theorem looks_tallied :
    coreAndTally.classDataOf ⟨11⟩ = [⟨"total", Core.integer, none⟩] ∧
    tallied.size = 12 ∧ tallied.layout ⟨11⟩ = [] ∧ tallied.search ⟨11⟩ constructorName = none ∧
    tallied.hasDestructor ⟨11⟩ = true ∧ tallied.slotIndex ⟨11⟩ "total" = none ∧
    tallied.classDatum ⟨11⟩ "total" = some (⟨11⟩, 0) ∧ tallied.classDataValue ⟨11⟩ 0 = some ⟨1⟩ := by
  decide +kernel

theorem register_tally : ∃ classes, Registry.register tally CoreClass.registry = (.ok ⟨11⟩, classes) ∧
    coreAndTally.Remembers classes := by
  let r := CoreClass.all.foldl Registry.adding {}
  have hsize : r.size = 11 := CoreClass.plain_foldl.1
  obtain ⟨hname, hsuper, hroom, hclassData, hadmits⟩ : r.checkName tally = .ok () ∧
      r.resolveSupertypes tally.supertypes = .ok [Core.object] ∧ r.size < Registry.maxSize ∧
      (tally.classData.mapM fun d ↦ do
        return { name := d.name, valueClass := ← r.resolveDataClass tally.name ⟨r.size⟩ d, value := none : ClassDatum }) =
          .ok [⟨"total", Core.integer, none⟩] ∧
      ∀ m ∈ tally.members, r.Admits [Core.object] tally.name m := by
    decide +kernel
  obtain ⟨classes, hregister, hremembers⟩ :=
    Registry.register_of_checks CoreClass.registry_remembers hname hsuper hroom rfl hclassData hadmits
  exact ⟨classes, hsize ▸ hregister, hremembers⟩

/-- A new interpreter without Minds in which the class has been registered. -/
theorem Reached.exists_tallied : ∃ classes, tallied.Remembers classes ∧ Reached [] { World.new { defaultMind := none } with
    classes
    heap := ((World.new { defaultMind := none }).heap.newObject { classId := Core.integer, payload := .integer 0 }).2 } := by
  obtain ⟨classes, hregister, hclasses⟩ := register_tally
  refine ⟨(classes.setClassData ⟨11⟩ 0 ⟨1⟩).2, ⟨?_, ?_⟩, ?_⟩
  · exact congrArg (fun cs : Array ClassRecord ↦ (Registry.setClassData { classes := cs } ⟨11⟩ 0 ⟨1⟩).2.classes)
      hclasses.classes
  · have hfounded : CoreClass.registry.Founded destructorName := .core
    have hafter := (hfounded.request (q := .register tally) trivial trivial).setClassData ⟨11⟩ 0 ⟨1⟩
    rw [Registry.Request.after, hregister] at hafter
    exact hafter.sound
  · have hdecent : ∀ d ∈ tally.members, ∀ known, d.body.Decent known := fun d hd _ ↦ List.mem_singleton.mp hd ▸ trivial
    refine (Reached.start { defaultMind := none }).returns 0 (.registerClass fun d hd ↦ hdecent d hd _) (a := ⟨11⟩) ?_
    have hdata : classes.classDataOf ⟨11⟩ = [⟨"total", Core.integer, none⟩] :=
      (hclasses.classDataOf _).trans looks_tallied.1
    rw [Machine.registerClass, bind_of_ok (onClasses_of_ok hregister), get_bind]
    dsimp only
    rw [hdata]
    rfl

/-! ### An instance of a class with a destructor, and one of a class that gets it too late -/

def thing (members : List MemberDecl) : ClassDecl := { name := "Thing", members }

/-- The classes of a new interpreter and one more. -/
def coreAnd (decl : ClassDecl) : Registry := (CoreClass.all.foldl Registry.adding {}).adding decl

/-- What has a destructor has no constructor and no slots. -/
theorem looks_armed :
    (CoreClass.all.foldl Registry.adding {}).accepts (thing [Registry.destructorDecl]) = true ∧
    (coreAnd (thing [Registry.destructorDecl])).size = 12 ∧ (coreAnd (thing [Registry.destructorDecl])).layout ⟨11⟩ = [] ∧
    (coreAnd (thing [Registry.destructorDecl])).search ⟨11⟩ constructorName = none ∧
    (coreAnd (thing [Registry.destructorDecl])).hasDestructor ⟨11⟩ = true := by
  decide +kernel

/-- What has no members gets its destructor later. -/
theorem looks_bare :
    (CoreClass.all.foldl Registry.adding {}).accepts (thing []) = true ∧ (coreAnd (thing [])).size = 12 ∧
    (coreAnd (thing [])).layout ⟨11⟩ = [] ∧ (coreAnd (thing [])).search ⟨11⟩ constructorName = none ∧
    (coreAnd (thing [])).hasDestructor ⟨11⟩ = false ∧
    (coreAnd (thing [])).Admits ((coreAnd (thing [])).supertypes ⟨11⟩) ((coreAnd (thing [])).nameOf ⟨11⟩)
      Registry.destructorDecl ∧
    (Member.lookup ((coreAnd (thing [])).ownMembers ⟨11⟩) destructorName).isNone = true ∧
    ⟨11⟩ ∈ (coreAnd (thing [])).ancestors ⟨11⟩ := by
  decide +kernel

theorem Reached.exists_registered (config : Config) {decl : ClassDecl}
    (haccepts : (CoreClass.all.foldl Registry.adding {}).accepts decl = true)
    (hdecent : ∀ d ∈ decl.members, ∀ known, d.body.Decent known) :
    ∃ classes, (coreAnd decl).Remembers classes ∧ Reached [] { World.new config with classes } := by
  have hcore : (CoreClass.all.foldl Registry.adding {}).Remembers (World.new config).classes :=
    World.classes_new config ▸ CoreClass.registry_remembers
  exact (Reached.start config).register hcore haccepts fun d hd ↦ hdecent d hd _

theorem Reached.exists_thing (members : List MemberDecl)
    (haccepts : (CoreClass.all.foldl Registry.adding {}).accepts (thing members) = true)
    (hdecent : ∀ d ∈ members, ∀ known, d.body.Decent known) (hsize : (coreAnd (thing members)).size = 12)
    (hlayout : (coreAnd (thing members)).layout ⟨11⟩ = [])
    (hsearch : (coreAnd (thing members)).search ⟨11⟩ constructorName = none) :
    ∃ w, Reached [.object ⟨1⟩] w ∧ (coreAnd (thing members)).Remembers w.classes ∧ w.heap.reaping = true ∧
      w.heap.due = #[] ∧ w.draining = false ∧ w.heap.object? ⟨1⟩ = some
        { classId := ⟨11⟩, payload := .plain, armed := (coreAnd (thing members)).hasDestructor ⟨11⟩ } := by
  obtain ⟨classes, hclasses, hregistered⟩ := exists_registered {} haccepts hdecent
  have hc : 11 < (coreAnd (thing members)).size := hsize ▸ Nat.lt_succ_self 11
  obtain ⟨classes', hclasses', hmade⟩ := hregistered.make hclasses hc rfl hsearch (by rw [hlayout]; rfl)
  exact ⟨_, hmade, hclasses', rfl, rfl, rfl, rfl⟩

/-- The last reference to an instance of a class with a destructor is given up. -/
theorem Reached.exists_due : ∃ w, Reached [] w ∧ w.heap.due = #[⟨1⟩] ∧ w.draining = false := by
  obtain ⟨haccepts, hsize, hlayout, hsearch, harmed⟩ := looks_armed
  obtain ⟨w, hw, -, hreaping, hdue, hdraining, ho⟩ := exists_thing [Registry.destructorDecl] haccepts
    (fun d hd _ ↦ List.mem_singleton.mp hd ▸ trivial) hsize hlayout hsearch
  have hrelease := Heap.release_last ho harmed rfl rfl hreaping
  refine ⟨w.release [.object ⟨1⟩], hw.returns 0 (.release [.object ⟨1⟩]) rfl, ?_, hdraining⟩
  rw [World.release, hrelease, hdue]
  rfl

/-- A host owns the only reference to an instance whose class has got a destructor since. -/
theorem Reached.exists_late : ∃ w, Reached [.object ⟨1⟩] w ∧ w.heap.reaping = true ∧ w.heap.due = #[] ∧
    (∃ m, w.classes.search ⟨11⟩ destructorName = some m) ∧
    w.heap.object? ⟨1⟩ = some { classId := ⟨11⟩, payload := .plain } := by
  obtain ⟨haccepts, hsize, hlayout, hsearch, hunarmed, hadmits, hfree, hself⟩ := looks_bare
  obtain ⟨w, hw, hclasses, hreaping, hdue, -, ho⟩ :=
    exists_thing [] haccepts (fun _ hd ↦ by cases hd) hsize hlayout hsearch
  have hc : 11 < (coreAnd (thing [])).size := hsize ▸ Nat.lt_succ_self 11
  have hreplace : (coreAnd (thing [])).checkReplace ⟨11⟩ Registry.destructorDecl = .ok () := by
    rw [Registry.checkReplace, Registry.destructorDecl, Option.isNone_iff_eq_none.mp hfree]
  obtain ⟨classes, hdefined, hlate⟩ := hw.define hclasses hc hadmits hreplace trivial
  rw [hunarmed] at ho
  refine ⟨_, hlate, hreaping, hdue, ?_, ho⟩
  have hself : (⟨11⟩ : ClassId) ∈ ((coreAnd (thing [])).storeMember ⟨11⟩ Registry.destructorDecl).ancestors ⟨11⟩ := by
    rwa [Registry.ancestors_storeMember _ _ _ hc]
  have hlookup := Registry.lookup_storeMember (coreAnd (thing [])) ⟨11⟩ Registry.destructorDecl hc destructorName
  rw [if_pos ⟨rfl, rfl⟩] at hlookup
  rw [hdefined.search]
  exact Registry.exists_search hself hlookup

end MindScript
