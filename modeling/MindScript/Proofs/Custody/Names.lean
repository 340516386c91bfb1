import MindScript.Proofs.Custody.Variables
import MindScript.Proofs.Destructors.History

/-!
# Names stay bound

No action takes a scope away, moves it out of the scope it lies in, or takes a name from it.  So a name that was bound for
running code is bound after whatever that code evaluates.
-/

namespace MindScript

open Machine

/-- The scopes that there were are there, lie in the same scopes as before, and bind what they bound. -/
def Heap.KeepsNames (h h' : Heap) : Prop :=
  ∀ s scope, h.scope? s = some scope → ∃ scope', h'.scope? s = some scope' ∧ scope'.parent = scope.parent ∧
    ∀ name, (scope.bindings.lookup name).isSome → (scope'.bindings.lookup name).isSome

namespace Heap.KeepsNames

variable {h h' h'' : Heap}

theorem refl (h : Heap) : KeepsNames h h := fun _ scope hs ↦ ⟨scope, hs, rfl, fun _ ↦ id⟩

theorem trans (hh : KeepsNames h h') (hh' : KeepsNames h' h'') : KeepsNames h h'' := by
  intro s scope hs
  obtain ⟨scope', hs', hparent, hnames⟩ := hh s scope hs
  obtain ⟨scope'', hs'', hparent', hnames'⟩ := hh' s scope' hs'
  exact ⟨scope'', hs'', hparent'.trans hparent, fun name hname ↦ hnames' name (hnames name hname)⟩

theorem of_sameNames (hsame : h.SameNames h') : KeepsNames h h' := by
  intro s scope hs
  have hparent := hsame.parent s
  rw [hs] at hparent
  obtain ⟨scope', hs', hparent⟩ := Option.map_eq_some_iff.mp hparent
  refine ⟨scope', hs', hparent, fun name hname ↦ ?_⟩
  have hname' := hsame s name
  rw [hs, hs', Option.map_some, Option.map_some, Option.some.injEq, Prod.mk.injEq] at hname'
  rwa [hname'.1]

theorem of_scopes (hscopes : h'.scopes = h.scopes) : KeepsNames h h' :=
  of_sameNames (.of_bare (congrArg (Array.map Scope.bare) hscopes))

theorem release (h : Heap) (ls : List Link) : KeepsNames h (h.release ls) :=
  of_sameNames (.of_bare (bare_scopes_release h ls))

theorem modifyScope (h : Heap) (s : ScopeId) {f : Scope → Scope} (hparent : ∀ o, (f o).parent = o.parent)
    (hnames : ∀ o name, (o.bindings.lookup name).isSome → ((f o).bindings.lookup name).isSome) :
    KeepsNames h (h.modifyScope s f) := by
  intro t scope ht
  rw [scope?_modifyScope]
  split
  · exact ⟨f scope, by rw [ht, Option.map_some], hparent scope, hnames scope⟩
  · exact ⟨scope, ht, rfl, fun _ ↦ id⟩

theorem retain (h : Heap) (l : Link) : KeepsNames h (h.retain l) := by
  cases l with
  | scope s => exact modifyScope h s (fun _ ↦ rfl) fun _ _ ↦ id
  | object r => exact of_scopes rfl
  | outcome x => exact of_scopes rfl

theorem define (h : Heap) (s : ScopeId) (name : String) (value : Ref) : KeepsNames h (h.define s name value).2 := by
  refine modifyScope h s (fun _ ↦ rfl) fun o n hn ↦ ?_
  by_cases heq : n = name
  · simp [heq]
  · simp only [List.lookup_cons, beq_eq_false_iff_ne.mpr heq, lookup_filter_ne heq]
    exact hn

theorem newScope (h : Heap) (parent : Option ScopeId) : KeepsNames h (h.newScope parent).2 := by
  intro s scope hs
  have hlt := (Array.getElem?_eq_some_iff.mp hs).1
  exact ⟨scope, (Array.getElem?_push_lt hlt).trans ((Array.getElem?_eq_getElem hlt).symm.trans hs), rfl, fun _ ↦ id⟩

end Heap.KeepsNames

/-- The scheduler leaves names alone. -/
theorem Heap.Dealt.keepsNames {h h' : Heap} (hd : h.Dealt h') : h.KeepsNames h' := by
  induction hd with
  | refl => exact .refl h
  | retain l _ ih => exact ih.trans (.retain _ l)
  | release ls _ ih => exact ih.trans (.release _ ls)
  | newOutcome status _ ih => exact ih.trans (.of_scopes rfl)
  | modifyOutcome c f _ ih => exact ih.trans (.of_scopes rfl)

namespace World

open Heap (KeepsNames)

theorem Deals.keepsNames {w w' : World} (h : w.Deals w') : w.heap.KeepsNames w'.heap := Heap.Dealt.keepsNames h

theorem keepsNames_store (w : World) (name : String) (value : Ref) (place : Place) :
    w.heap.KeepsNames (store name value place w).2.heap := by
  cases place with
  | binding s => exact (KeepsNames.define w.heap s name value).trans (.release _ _)
  | slot owner i =>
    have hslot : w.heap.KeepsNames (w.heap.modifyObject owner fun o ↦ { o with slots := o.slots.setIfInBounds i value }) :=
      .of_scopes rfl
    exact hslot.trans (.release _ _)
  | classDatum c i => exact .release _ _

theorem keepsNames_basic {σ : Setting} {α : Type} {f : Machine α} (h : Basic σ f) (w : World) :
    w.heap.KeepsNames (f w).2.heap := by
  have hchained (s : ScopeId) : w.heap.KeepsNames (Environment.chained w.heap s).2 :=
    (KeepsNames.retain w.heap (.scope s)).trans (.newScope _ _)
  cases h with
  | retainLink l => exact (deals_retain w l).keepsNames
  | releaseLinks ls => exact (deals_release w ls).keepsNames
  | newScope => exact .newScope w.heap none
  | chainedScope s => exact hchained s
  | pushScope => exact hchained _
  | popScope =>
    have hpop : (popScope w).2.heap = (w.context.env.pop w.heap).2 := rfl
    rw [hpop, Environment.pop]
    split
    · exact .release _ _
    · exact .refl _
  | truncateScopes _ depth => exact .release _ _
  | define name value => exact keepsNames_store w name value (.binding w.context.env.innermost)
  | store name value place => exact keepsNames_store w name value place
  | findMember c name => exact heap_onClasses (Registry.findMember c name) w ▸ .refl w.heap
  | resolve c name qualifier => exact heap_onClasses (Registry.resolve c name qualifier) w ▸ .refl w.heap
  | register m name owner parent frame => exact (deals_register w m name owner parent frame).keepsNames
  | deferFrame m name owner parent frame => exact (deals_register w m name owner parent frame).keepsNames
  | settleMind m => exact (deals_settleMind w m).keepsNames
  | stop x => exact (deals_stop w x).keepsNames
  | stopAll m => exact (deals_stopAll w m).keepsNames
  | stopAllFor r => exact (deals_stopAllFor w r).keepsNames
  | detachChildren m id => exact (deals_detachChildren w m id).keepsNames
  | notify m event payload => exact (deals_notify w m event payload).keepsNames
  | endUpdate => exact (deals_sweep w _).keepsNames
  | popReady => exact heap_popReady _ w ▸ .refl w.heap
  | popPending => exact heap_popPending _ w ▸ .refl w.heap
  | _ => exact .of_scopes rfl

theorem lasting_keepsNames : World.Lasting fun w w' ↦ w.heap.KeepsNames w'.heap where
  refl w := .refl w.heap
  trans := .trans
  basic := keepsNames_basic
  enter w _ _ := .refl w.heap
  callStack w _ := .refl w.heap
  take w m id entry frame := (deals_takeFrame w m id entry frame).keepsNames
  back w m id frame step := (deals_returnFrame w m id frame step).keepsNames

end World

end MindScript
