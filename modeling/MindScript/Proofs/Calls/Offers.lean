import MindScript.Proofs.Along
import MindScript.Proofs.Class.Destructors

/-!
# The members on offer

What dispatch can come upon is declared by a class or remembered from an earlier search.  Whatever an
interpreter does between two declarations, no member comes on offer that was not.
-/

namespace MindScript

namespace Registry

variable {r r' : Registry} {m : Member}

/-- A member that dispatch may come upon. -/
inductive Offers (r : Registry) (m : Member) : Prop where
  | declared (c : ClassId) : m ∈ r.ownMembers c → Offers r m
  | remembered (key : ClassId × String) : r.cache[key]? = some (some m) → Offers r m

theorem Offers.of_classes (hclasses : r'.classes = r.classes)
    (hcache : ∀ key : ClassId × String, r'.cache[key]? = some (some m) → r.Offers m) (h : r'.Offers m) :
    r.Offers m := by
  cases h with
  | declared c hm =>
    refine .declared c ?_
    rwa [ownMembers, record, ← hclasses]
  | remembered key hm => exact hcache key hm

theorem offers_of_search {c : ClassId} {name : String} (h : r.search c name = some m) : r.Offers m := by
  obtain ⟨a, -, ha⟩ := search_eq_some h
  exact .declared a (List.mem_of_find?_eq_some ha)

/-- What a search finds was on offer, and by remembering its answer it adds nothing. -/
theorem offers_find (r : Registry) (c : ClassId) (name : String) :
    (∀ m, (r.find c name).1 = some m → r.Offers m) ∧ ∀ m, (r.find c name).2.Offers m → r.Offers m := by
  unfold find
  cases hcache : r.cache[(c, name)]? with
  | some answer => exact ⟨fun m hm ↦ .remembered (c, name) (hcache.trans (congrArg some hm)), fun _ hm ↦ hm⟩
  | none =>
    refine ⟨fun m hm ↦ offers_of_search hm, fun m ↦ Offers.of_classes (r := r) rfl fun key hkey ↦ ?_⟩
    simp only [Std.HashMap.getElem?_insert] at hkey
    split at hkey
    · exact offers_of_search (Option.some.inj hkey)
    · exact .remembered key hkey

/-- Dispatch finds members on offer, and adds none. -/
theorem offers_resolve (r : Registry) (c : ClassId) (name : String) (qualifier : Option ClassId) :
    (∀ m r', resolve c name qualifier r = (.ok m, r') → r.Offers m) ∧
      ∀ m, (resolve c name qualifier r).2.Offers m → r.Offers m := by
  rcases r.resolve_cases c name qualifier with ⟨start, h⟩ | ⟨note, h⟩ <;> rw [h]
  · obtain ⟨hanswer, hadds⟩ := offers_find r start name
    refine ⟨fun m r' hm ↦ hanswer m ?_, hadds⟩
    cases hfound : (r.find start name).1 with
    | none =>
      rw [hfound] at hm
      cases hm
    | some found =>
      rw [hfound] at hm
      cases hm
      rfl
  · exact ⟨fun m r' hm ↦ (nomatch hm), fun _ hm ↦ hm⟩

theorem offers_setClassData {c : ClassId} {i : Nat} {value : Ref}
    (h : (r.setClassData c i value).2.Offers m) : r.Offers m := by
  cases h with
  | declared d hm =>
    refine .declared d ?_
    simp only [ownMembers, record, setClassData, Array.getD_eq_getD_getElem?, Array.getElem?_modify] at hm ⊢
    split at hm
    · cases hd : r.classes[d.index]? <;> simpa [hd] using hm
    · exact hm
  | remembered key hm => exact .remembered key hm

/-! ### Registering a class -/

/-- An action on the registry after which nothing new is on offer. -/
def Action.Quiet {α : Type} (act : Action α) : Prop := ∀ r m, (act r).2.Offers m → r.Offers m

theorem Action.Quiet.bind {α β : Type} {f : Action α} {F : α → Action β} (hf : f.Quiet) (hF : ∀ a, (F a).Quiet) :
    (f >>= F).Quiet := by
  intro r m h
  rcases hr : f r with ⟨e | a, r₁⟩
  · rw [bind_of_error hr] at h
    exact hf r m (hr ▸ h)
  · rw [bind_of_ok hr] at h
    exact hf r m (hr ▸ hF a r₁ m h)

theorem quiet_checkMembers (supertypes : List ClassId) (className : String) (ms : List MemberDecl) :
    (checkMembers supertypes className ms).Quiet := by
  have hoverride (supertypes : List ClassId) (d : MemberDecl) : (checkOverride supertypes d className).Quiet := by
    induction supertypes with
    | nil => exact fun _ _ h ↦ h
    | cons s rest ih =>
      refine .bind (fun r ↦ (offers_find r s d.name).2) fun inherited ↦ ?_
      cases inherited with
      | none => exact ih
      | some inherited =>
        dsimp only
        split
        · exact fun _ _ h ↦ h
        · exact ih
  induction ms with
  | nil => exact fun _ _ h ↦ h
  | cons d rest ih => exact .bind (fun _ _ h ↦ h) fun _ ↦ (hoverride supertypes d).bind fun _ ↦ ih

/-- The members of a table that declarations were added to. -/
theorem body_of_mem_foldl_insert {decls : List MemberDecl} {owner : ClassId} {table : List Member} {m : Member}
    (h : m ∈ (decls.map fun d ↦ Member.ofDecl d owner).foldl Member.insert table) :
    m ∈ table ∨ ∃ d ∈ decls, m.body = d.body := by
  induction decls generalizing table with
  | nil => exact .inl h
  | cons d rest ih =>
    rcases ih h with hm | ⟨d', hd', hbody⟩
    · rcases List.mem_cons.mp hm with rfl | hm
      · exact .inr ⟨d, List.mem_cons_self, rfl⟩
      · exact .inl (List.mem_of_mem_filter hm)
    · exact .inr ⟨d', List.mem_cons_of_mem d hd', hbody⟩

/-- What comes on offer with a class is declared with it. -/
theorem offers_register {decl : ClassDecl} (h : (register decl r).2.Offers m) :
    r.Offers m ∨ ∃ d ∈ decl.members, m.body = d.body := by
  rcases register_cases decl r with hr | ⟨supertypes, r₁, -, hcheck, hr | ⟨own, classData, -, hr⟩⟩
  · exact .inl (hr ▸ h)
  · exact .inl (quiet_checkMembers supertypes decl.name decl.members r m (hcheck ▸ hr ▸ h))
  · rw [hr] at h
    have hold : r₁.Offers m → r.Offers m := fun h ↦
      quiet_checkMembers supertypes decl.name decl.members r m (hcheck ▸ h)
    cases h with
    | remembered key hm => exact .inl (hold (.remembered key hm))
    | declared c hm =>
      rw [ownMembers] at hm
      rcases record_addRecord r₁ (r₁.newRecord decl supertypes own classData) c with ⟨-, heq⟩ | ⟨-, subs, heq⟩
      · rw [heq] at hm
        refine .inr ?_
        exact (body_of_mem_foldl_insert hm).resolve_left List.not_mem_nil
      · rw [heq] at hm
        exact .inl (hold (.declared c hm))

end Registry

/-! ### Actions add no members -/

/-- Every member on offer in the second world was on offer in the first. -/
def World.NoNewMembers (w w' : World) : Prop := ∀ m, w'.classes.Offers m → w.classes.Offers m

namespace World.NoNewMembers

open Machine

theorem of_classes {w w' : World} (h : w'.classes = w.classes) : NoNewMembers w w' := fun _ hm ↦ h ▸ hm

theorem onClasses {α : Type} {act : Registry.Action α} {w : World}
    (h : ∀ m, (act w.classes).2.Offers m → w.classes.Offers m) : NoNewMembers w (onClasses act w).2 := by
  intro m hm
  refine h m ?_
  unfold Machine.onClasses at hm
  rcases hact : act w.classes with ⟨_ | _, classes⟩ <;> rw [hact] at hm <;> exact hm

theorem store (w : World) (name : String) (value : Ref) (place : Place) :
    NoNewMembers w (store name value place w).2 := by
  cases place with
  | binding s => exact of_classes rfl
  | slot owner i => exact of_classes rfl
  | classDatum c i => exact fun m hm ↦ Registry.offers_setClassData hm

theorem basic {σ : Setting} {α : Type} {f : Machine α} (h : Basic σ f) (w : World) :
    NoNewMembers w (f w).2 := by
  cases h with
  | findMember c name => exact onClasses (Registry.offers_find w.classes c name).2
  | resolve c name qualifier => exact onClasses (Registry.offers_resolve w.classes c name qualifier).2
  | store name value place => exact store w name value place
  | register m name owner parent frame => exact of_classes (World.inward_register ..).classes
  | deferFrame m name owner parent frame => exact of_classes (w.inward_register m name owner parent frame).classes
  | settleMind m => exact of_classes (World.inward_settleMind ..).classes
  | stop x => exact of_classes (World.inward_stop ..).classes
  | stopAll m => exact of_classes (World.inward_stopAll ..).classes
  | stopAllFor r => exact of_classes (World.inward_stopAllFor ..).classes
  | detachChildren m id => exact of_classes (World.inward_detachChildren ..).classes
  | notify m event payload => exact of_classes (World.inward_notify ..).classes
  | @endUpdate m _ => exact of_classes (World.inward_sweep w m).classes
  | popReady _ =>
    refine of_classes ?_
    unfold Machine.popReady
    rw [modifyGet_apply]
    split <;> rfl
  | popPending _ =>
    refine of_classes ?_
    unfold Machine.popPending
    rw [modifyGet_apply]
    split <;> rfl
  | _ => exact of_classes rfl

theorem lasting : World.Lasting NoNewMembers where
  refl _ _ hm := hm
  trans h h' m hm := h m (h' m hm)
  basic := basic
  enter _ _ _ := of_classes rfl
  callStack _ _ := of_classes rfl
  take _ _ _ _ _ := of_classes rfl
  back _ _ _ _ _ := of_classes (World.inward_returnFrame ..).classes

end World.NoNewMembers

end MindScript
