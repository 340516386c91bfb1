import Mathlib.Data.List.Perm.Basic
import MindScript.Machine.CoreMembers
import MindScript.Proofs.Custody.Calls

/-!
# Custody in the built-in members

Receiver and arguments of a built-in member are lent: they stay the caller's, and stay alive with the caller's hand.
A list takes the items that are put into it and hands back those that are taken out, and takes only what conforms to
the class of its items.
-/

namespace MindScript

open Machine
open World (Sane)

variable {α β : Type} {σ : Footing} {A G : List Link} {w : World} {E : Engine} {this item index : Ref}

/-- The links of a step that has come to an end. -/
def Step.links : Step → List Link
  | .done value => [.object value]
  | .suspend wake => wake.links

theorem stepLinks_eq (step : Except EvalError Step) : stepLinks step = broughtBy Step.links step := by
  match step with
  | .ok (.done _) => rfl
  | .ok (.suspend _) => rfl
  | .error _ => rfl

/-! ### Items that come and go -/

namespace Sequence

variable {s s' : Sequence} {i : Int64} {r : Ref}

theorem getElem?_of_get (h : s.get i = .ok r) : ∃ k, position? i s.size = some k ∧ s.items[k]? = some r := by
  unfold get at h
  split at h
  · next r' hr =>
    cases h
    exact Option.bind_eq_some_iff.mp hr
  · cases h

theorem mem_of_get (h : s.get i = .ok r) : r ∈ s.items.toList := by
  obtain ⟨k, -, hk⟩ := getElem?_of_get h
  simpa using Array.mem_of_getElem? hk

theorem perm_set {previous : Ref} (h : s.get i = .ok previous) (item : Ref) :
    ((s.set i item).items.toList ++ [previous]).Perm (s.items.toList ++ [item]) := by
  obtain ⟨k, hposition, hk⟩ := getElem?_of_get h
  have hset : (s.set i item).items.toList = s.items.toList.set k item := by simp [set, hposition]
  rw [hset]
  rw [← Array.getElem?_toList] at hk
  obtain ⟨hlt, rfl⟩ := List.getElem?_eq_some_iff.mp hk
  generalize s.items.toList = xs at hlt
  have hout : (xs.set k item ++ [xs[k]]).Perm (xs[k] :: item :: xs.eraseIdx k) :=
    (List.perm_append_singleton ..).trans ((List.set_perm_cons_eraseIdx hlt item).cons _)
  have hin : (item :: xs[k] :: xs.eraseIdx k).Perm (xs ++ [item]) :=
    ((List.getElem_cons_eraseIdx_perm hlt).cons _).trans (List.perm_append_singleton ..).symm
  exact hout.trans ((List.Perm.swap ..).trans hin)

theorem perm_insert (h : s.insert i item = .ok s') : s'.items.toList.Perm (s.items.toList ++ [item]) := by
  unfold insert at h
  split at h
  · cases h
  · next k hk =>
    cases h
    have hle : k ≤ s.items.size := Nat.le_of_lt_succ (position?_eq_some_iff.mp hk).2
    simp only [Array.insertIdxIfInBounds, dif_pos hle, Array.toList_insertIdx]
    exact (List.perm_insertIdx item _ (by simpa using hle)).trans (List.perm_append_singleton ..).symm

theorem itemClass_insert (h : s.insert i item = .ok s') : s'.itemClass = s.itemClass := by
  unfold insert at h
  split at h <;> cases h
  rfl

theorem perm_remove (h : s.remove i = .ok (r, s')) : (s'.items.toList ++ [r]).Perm s.items.toList := by
  unfold remove at h
  split at h
  · cases h
  · next k _ =>
    split at h
    · cases h
    · next removed hk =>
      cases h
      rw [← Array.getElem?_toList] at hk
      obtain ⟨hlt, rfl⟩ := List.getElem?_eq_some_iff.mp hk
      simp only [Array.toList_eraseIdxIfInBounds]
      exact (List.perm_append_singleton ..).trans (List.getElem_cons_eraseIdx_perm hlt)

theorem itemClass_remove (h : s.remove i = .ok (r, s')) : s'.itemClass = s.itemClass := by
  unfold remove at h
  split at h
  · cases h
  · split at h <;> cases h
    rfl

theorem items_advance (s : Sequence) (cursor : Nat) : (s.advance cursor).2.items = s.items ∧
    (s.advance cursor).2.itemClass = s.itemClass ∧ ∀ item, (s.advance cursor).1 = some item → item ∈ s.items.toList := by
  unfold advance
  dsimp only
  split
  · exact ⟨rfl, rfl, fun item h ↦ by cases h⟩
  · next item hitem =>
    refine ⟨rfl, rfl, fun item' h ↦ ?_⟩
    cases h
    simpa using Array.mem_of_getElem? hitem

end Sequence

namespace Heap

theorem modifyObject_congr {h : Heap} {r : Ref} {f g : Object → Object}
    (hfg : ∀ o, h.object? r = some o → f o = g o) : h.modifyObject r f = h.modifyObject r g := by
  refine congrArg (fun objects ↦ ({ h with objects } : Heap)) (Array.ext (by simp) fun i hi hi' ↦ ?_)
  simp only [Array.getElem_modify]
  split
  · next heq =>
    subst heq
    exact hfg _ (Array.getElem?_eq_getElem _)
  · rfl

theorem modifyItems_eq {h : Heap} {r : Ref} {s : Sequence} (hs : h.payload r = .list s) (f : Sequence → Sequence) :
    h.modifyItems r f = h.setPayload r (.list (f s)) := by
  refine modifyObject_congr fun o ho ↦ ?_
  rw [payload, object, ho, Option.getD_some] at hs
  rw [hs]

theorem payload_of_stock {h h' : Heap} (hstock : h'.objects.map Object.stock = h.objects.map Object.stock) (r : Ref) :
    h'.payload r = h.payload r := by
  have hread : ∀ g : Heap, g.payload r =
      ((g.objects.map Object.stock)[r.index]?.map Object.payload).getD (default : Object).payload := fun g ↦ by
    rw [payload, object, object?, Array.getElem?_map]
    cases g.objects[r.index]? <;> rfl
  rw [hread, hstock, ← hread]

theorem payload_setPayload {h : Heap} {r : Ref} (hr : h.Alive (.object r)) (p : Payload) :
    (h.setPayload r p).payload r = p := by
  obtain ⟨o, ho, -⟩ := object?_of_alive hr
  rw [payload, object, setPayload, object?_modifyObject, if_pos rfl, ho]
  rfl

end Heap

/-- Items go into a live list from the hand, and others come back. -/
theorem World.Sane.setItems (took back : List Ref) (h : Sane σ (took.map .object ++ G) w) {r : Ref}
    (hr : w.heap.Alive (.object r)) {s s' : Sequence} (hs : w.heap.payload r = .list s)
    (hclass : s'.itemClass = s.itemClass) (hperm : (s'.items.toList ++ back).Perm (s.items.toList ++ took))
    (htook : ∀ value ∈ took, w.Conforms value s.itemClass) :
    Sane σ (back.map .object ++ G) { w with heap := w.heap.setPayload r (.list s') } := by
  refine h.setHeap rfl ?_ (h.typed.setItems fun value hvalue ↦ ?_) (h.queued.modifyObject r ?_)
  · refine .modifyObject r ?_ fun H hH ↦ Heap.Covers.setItems hH hr hs fun l ↦ ?_
    · exact fun _ ↦ rfl
    have hcount := (hperm.map Link.object).count_eq l
    simp only [List.map_append, List.count_append] at hcount ⊢
    omega
  · rw [hclass]
    rcases List.mem_append.mp (hperm.mem_iff.mp (List.mem_append_left back hvalue)) with hold | hnew
    · exact h.conforms_item hr hs hold
    · exact htook value hnew
  · exact fun _ ho ↦ ho

/-- A lent item that conforms is put into a lent list. -/
theorem World.Sane.putItem {s s' : Sequence} (back : List Ref) (h : Sane σ G w) (hthis : σ.Lends G this)
    (hitem : σ.Lends G item) (hs : w.heap.payload this = .list s)
    (hsub : w.classes.isSubtype (w.heap.classOf item) s.itemClass = true) (hclass : s'.itemClass = s.itemClass)
    (hperm : (s'.items.toList ++ back).Perm (s.items.toList ++ [item])) :
    (w.retain (.object item)).heap.payload this = .list s ∧ Sane σ (back.map .object ++ G)
      { w.retain (.object item) with heap := (w.retain (.object item)).heap.setPayload this (.list s') } := by
  have hstock := (w.deals_retain (.object item)).ages.stock
  have hpayload : (w.retain (.object item)).heap.payload this = .list s := (Heap.payload_of_stock hstock this).trans hs
  have hconforms := (World.Typed.grows_of_stock hstock rfl).conforms (h.conforms (h.alive_lent hitem) hsub)
  exact ⟨hpayload, World.Sane.setItems [item] back (h.retain (h.alive_lent hitem))
    (Heap.alive_retain (h.alive_lent hthis) _) hpayload hclass hperm (by simpa using hconforms)⟩

/-! ### Looking at payloads -/

namespace Machine.Looks

theorem payloadOf (r : Ref) : Looks (payloadOf r) w fun p ↦ w.heap.payload r = p := .read (.pure rfl)

theorem expectInteger (r : Ref) : Looks (expectInteger r) w fun _ ↦ True := by
  refine (payloadOf r).bind fun p _ ↦ ?_
  split
  · exact .pure trivial
  · exact .typeMismatch _ _

theorem expectReal (r : Ref) : Looks (expectReal r) w fun _ ↦ True := by
  refine (payloadOf r).bind fun p _ ↦ ?_
  split
  · exact .pure trivial
  · exact .typeMismatch _ _

theorem expectNumber (r : Ref) : Looks (expectNumber r) w fun _ ↦ True := by
  refine (payloadOf r).bind fun p _ ↦ ?_
  split
  · exact .pure trivial
  · exact .typeMismatch _ _

theorem expectText (r : Ref) : Looks (expectText r) w fun _ ↦ True := by
  refine (payloadOf r).bind fun p _ ↦ ?_
  split
  · exact .pure trivial
  · exact .typeMismatch _ _

theorem expectSymbol (r : Ref) : Looks (expectSymbol r) w fun _ ↦ True := by
  refine (payloadOf r).bind fun p _ ↦ ?_
  split
  · exact .pure trivial
  · exact .typeMismatch _ _

theorem expectEvent (r : Ref) : Looks (expectEvent r) w fun _ ↦ True := by
  refine (payloadOf r).bind fun p _ ↦ ?_
  split
  · exact .pure trivial
  · exact .pure trivial
  · exact .typeMismatch _ _

theorem expectList (r : Ref) : Looks (expectList r) w fun s ↦ w.heap.payload r = .list s := by
  refine (payloadOf r).bind fun p hp ↦ ?_
  split
  · exact .pure hp
  · exact .typeMismatch _ _

theorem expectClassObject (r : Ref) : Looks (expectClassObject r) w fun _ ↦ True := by
  refine (payloadOf r).bind fun p _ ↦ ?_
  split
  · exact .pure trivial
  · exact .typeMismatch _ _

theorem expectHandle (r : Ref) : Looks (expectHandle r) w fun x ↦ w.heap.payload r = .coroutine x := by
  refine (payloadOf r).bind fun p hp ↦ ?_
  split
  · exact .pure hp
  · exact .typeMismatch _ _

theorem order (a b : Ref) : Looks (order a b) w fun _ ↦ True := by
  refine (payloadOf a).bind fun p _ ↦ (payloadOf b).bind fun q _ ↦ ?_
  split
  · exact .pure trivial
  · exact (expectNumber a).bind fun _ _ ↦ (expectNumber b).bind fun _ _ ↦ .pure trivial

end Machine.Looks

namespace Machine.Gives

/-! ### Numbers, texts and handles -/

theorem answerEqual (h : Sane σ G w) (equal : Payload → Payload → Bool) (whenEqual : Bool) (a b : Ref) :
    Gives σ G (answerEqual equal whenEqual a b) w fun r ↦ [.object r] :=
  .look h (.payloadOf a) fun _ _ ↦ .look h (.payloadOf b) fun _ _ ↦ boolean h _

theorem arithmetic (h : Sane σ G w) (op : Arithmetic) (a b : Ref) :
    Gives σ G (arithmetic op a b) w fun r ↦ [.object r] := by
  refine .look h (.payloadOf a) fun p _ ↦ .look h (.payloadOf b) fun q _ ↦ ?_
  split
  · refine .look h (.ofExcept fun e he ↦ ?_) fun i _ ↦ integer h i
    exact EvalError.links_of_isLoopExit (Sealed.isLoopExit_of_integers he)
  · exact .look h (.expectNumber a) fun x _ ↦ .look h (.expectNumber b) fun y _ ↦ real h _

theorem exactInteger (h : Sane σ G w) (name : String) (x : Int) :
    Gives σ G (exactInteger name x) w fun r ↦ [.object r] := by
  unfold Machine.exactInteger
  split
  · exact integer h _
  · exact .raise h

theorem realToInteger (h : Sane σ G w) (x : Float) : Gives σ G (realToInteger x) w fun r ↦ [.object r] := by
  unfold Machine.realToInteger
  dsimp only
  split
  · exact integer h _
  · exact .raise h

theorem shareOrNil (h : Sane σ G w) {r : Option Ref} (hr : ∀ value, r = some value → w.heap.Alive (.object value)) :
    Gives σ G (shareOrNil r) w fun r ↦ [.object r] := by
  cases r with
  | some value => exact share h (hr value rfl)
  | none => exact nil h

/-- What a coroutine that a live handle observes has come to is alive. -/
theorem resultOf (h : Sane σ G w) {x : Handle} {r : Ref} (hr : w.heap.Alive (.object r))
    (hx : w.heap.payload r = .coroutine x) :
    Gives σ G (Machine.shareOrNil (w.heap.outcome x.outcome).result) w fun r ↦ [.object r] :=
  shareOrNil h fun _ hvalue ↦ h.alive_result (h.alive_of_payload hr hx (by simp [Payload.links])) hvalue

/-! ### Lists -/

section

variable (hthis : σ.Lends G this)

include hthis

theorem listSetAt (h : Sane σ G w) (hitem : σ.Lends G item) :
    Gives σ G (listSetAt this index item) w fun r ↦ [.object r] := by
  refine .look h (.expectList this) fun s hs ↦ .look h (.expectInteger index) fun i _ ↦
    .look h (.checkType item s.itemClass) fun _ hsub ↦ .look h (.ofExcept fun e he ↦
      EvalError.links_of_isLoopExit (Sealed.isLoopExit_of_get he)) fun previous hget ↦ .modified (.modified ?_)
  have hclass : (s.set i item).itemClass = s.itemClass := by
    unfold Sequence.set
    split <;> rfl
  obtain ⟨hpayload, hput⟩ := h.putItem [_] hthis hitem hs hsub hclass (Sequence.perm_set hget item)
  rw [Heap.modifyItems_eq hpayload]
  exact (release hput).bind fun _ _ h₁ ↦ share h₁ (h₁.alive_lent hitem)

theorem listAppend (h : Sane σ G w) (hitem : σ.Lends G item) :
    Gives σ G (listAppend this item) w fun r ↦ [.object r] := by
  refine .look h (.expectList this) fun s hs ↦ .look h (.checkType item s.itemClass) fun _ hsub ↦
    .modified (.modified ?_)
  obtain ⟨hpayload, hput⟩ := h.putItem [] hthis hitem hs hsub
    (show (s.push item).itemClass = s.itemClass from rfl) (by simp)
  rw [Heap.modifyItems_eq hpayload]
  exact share hput (hput.alive_lent hthis)

theorem listInsert (h : Sane σ G w) (hitem : σ.Lends G item) :
    Gives σ G (listInsert this index item) w fun r ↦ [.object r] := by
  refine .look h (.expectList this) fun s hs ↦ .look h (.expectInteger index) fun i _ ↦
    .look h (.checkType item s.itemClass) fun _ hsub ↦ .look h (.ofExcept fun e he ↦
      EvalError.links_of_isLoopExit (Sealed.isLoopExit_of_insert he)) fun s' hs' ↦ .modified (.modified ?_)
  obtain ⟨-, hput⟩ := h.putItem [] hthis hitem hs hsub (Sequence.itemClass_insert hs')
    (by simpa using Sequence.perm_insert hs')
  exact share hput (hput.alive_lent hthis)

theorem listRemoveAt (h : Sane σ G w) : Gives σ G (listRemoveAt this index) w fun r ↦ [.object r] := by
  refine .look h (.expectInteger index) fun i _ ↦ .look h (.expectList this) fun s hs ↦ .look h (.ofExcept fun e he ↦
    EvalError.links_of_isLoopExit (Sealed.isLoopExit_of_remove he)) fun removed hremoved ↦ .modified (.pure ?_)
  exact World.Sane.setItems [] [removed.1] h (h.alive_lent hthis) hs
    (Sequence.itemClass_remove hremoved) (by simpa using Sequence.perm_remove hremoved) (by simp)

theorem listClear (h : Sane σ G w) : Gives σ G (listClear this) w fun r ↦ [.object r] := by
  refine .look h (.expectList this) fun s hs ↦ .modified ?_
  have hcleared := World.Sane.setItems [] s.items.toList h (h.alive_lent hthis) hs
    (show s.clear.2.itemClass = s.itemClass from rfl) (by simp [Sequence.clear]) (by simp)
  exact (releaseAll hcleared).bind fun _ _ h₁ ↦ share h₁ (h₁.alive_lent hthis)

end

theorem shareAll {items : List Ref} (h : Sane σ G w) (hitems : ∀ r ∈ items, w.heap.Alive (.object r)) :
    Gives σ G (shareAll items) w fun _ ↦ items.map .object := by
  induction items generalizing G w with
  | nil => exact .pure h
  | cons r rest ih =>
    refine .modified ?_
    have hr := hitems r List.mem_cons_self
    have hrest := ih (h.retain hr) fun r' hr' ↦ Heap.alive_retain (hitems r' (List.mem_cons_of_mem r hr')) _
    exact Yields.mono hrest fun _ _ h₁ ↦ h₁.mono (by grind)

variable (hE : E.Careful)

include hE

/-- Each item goes to the closure, and the ones that are left are given up if a visit fails. -/
theorem visitAll {visit : Ref} (hvisit : σ.Lends G visit) (items : List Ref) (h : Sane σ (items.map .object ++ G) w) :
    Gives σ G (visitAll E visit items) w fun _ ↦ [] := by
  induction items generalizing w with
  | nil => exact .pure h
  | cons item rest ih =>
    have hcall : Gives σ (rest.map .object ++ G) (Machine.invokeClosureNow E visit [(none, item)]) w fun r ↦ [.object r] :=
      invokeClosureNow hE h (h.alive_lent (hvisit.mono fun l hl ↦ by simp [hl]))
    exact hcall.elseRelease.bind fun _ _ h₁ ↦ (release h₁).bind fun _ _ h₂ ↦ ih h₂

theorem listEach {visit : Ref} (h : Sane σ G w) (hthis : σ.Lends G this) (hvisit : σ.Lends G visit) :
    Gives σ G (listEach E this visit) w fun r ↦ [.object r] := by
  refine .look h (.expectList this) fun s hs ↦ ?_
  refine (shareAll h fun r hr ↦ h.alive_of_payload (h.alive_lent hthis) hs ?_).bind fun _ _ h₁ ↦ ?_
  · exact List.mem_map.mpr ⟨r, hr, rfl⟩
  · exact (visitAll hE hvisit _ h₁).bind fun _ _ h₂ ↦ share h₂ (h₂.alive_lent hthis)

/-! ### Methods -/

/-- A built-in method, whichever it is. -/
theorem runCore (h : Sane σ G w) (hthis : σ.Lends G this) {args : List Ref} (hargs : ∀ r ∈ args, σ.Lends G r)
    (method : CoreMethod) : Gives σ G (runCore E method this args) w fun r ↦ [.object r] := by
  have harg : ∀ i, σ.Lends G (args.getD i .nil) := fun i ↦ by
    rw [List.getD_eq_getElem?_getD]
    cases hi : args[i]? with
    | none => exact .inl rfl
    | some r => exact hargs r (List.mem_of_getElem? hi)
  have hlive := h.alive_lent hthis
  cases method with
  | identical whenEqual => exact boolean h _
  | describe => exact .read (string h _)
  | className => exact .read (string h _)
  | classOf => exact .read (classObject h _)
  | isNil answer => exact boolean h _
  | nilText => exact string h _
  | equalBooleans whenEqual => exact answerEqual h ..
  | booleanNot => exact .look h (.expectBool this) fun _ _ ↦ boolean h _
  | booleanText => exact .look h (.expectBool this) fun _ _ ↦ string h _
  | arithmetic op => exact arithmetic h ..
  | equalNumbers whenEqual => exact answerEqual h ..
  | compareNumbers op => exact .look h (.order ..) fun _ _ ↦ boolean h _
  | lesser =>
    refine .look h (.order ..) fun _ _ ↦ share h ?_
    split
    · exact h.alive_lent (harg 0)
    · exact hlive
  | greater =>
    refine .look h (.order ..) fun _ _ ↦ share h ?_
    split
    · exact h.alive_lent (harg 0)
    · exact hlive
  | integerNegated => exact .look h (.expectInteger this) fun _ _ ↦ exactInteger h ..
  | integerAbs => exact .look h (.expectInteger this) fun _ _ ↦ exactInteger h ..
  | integerText => exact .look h (.expectInteger this) fun _ _ ↦ string h _
  | integerSelf => exact .look h (.expectInteger this) fun _ _ ↦ share h hlive
  | integerToReal => exact .look h (.expectNumber this) fun _ _ ↦ real h _
  | realNegated => exact .look h (.expectReal this) fun _ _ ↦ real h _
  | realAbs => exact .look h (.expectReal this) fun _ _ ↦ real h _
  | realText => exact .look h (.expectReal this) fun _ _ ↦ string h _
  | realSelf => exact .look h (.expectReal this) fun _ _ ↦ share h hlive
  | realToInteger => exact .look h (.expectReal this) fun _ _ ↦ realToInteger h _
  | textJoin => exact .look h (.expectText this) fun _ _ ↦ .look h (.expectText _) fun _ _ ↦ string h _
  | textLength => exact .look h (.expectText this) fun _ _ ↦ integer h _
  | textIsEmpty => exact .look h (.expectText this) fun _ _ ↦ boolean h _
  | equalTexts whenEqual => exact answerEqual h ..
  | textLess => exact .look h (.expectText this) fun _ _ ↦ .look h (.expectText _) fun _ _ ↦ boolean h _
  | textGreater => exact .look h (.expectText this) fun _ _ ↦ .look h (.expectText _) fun _ _ ↦ boolean h _
  | textSelf => exact .look h (.expectText this) fun _ _ ↦ share h hlive
  | textToSymbol => exact .look h (.expectText this) fun _ _ ↦ symbol h _
  | equalSymbols whenEqual => exact answerEqual h ..
  | symbolText => exact .look h (.expectSymbol this) fun _ _ ↦ string h _
  | listLength => exact .look h (.expectList this) fun _ _ ↦ integer h _
  | listIsEmpty => exact .look h (.expectList this) fun _ _ ↦ boolean h _
  | listAt =>
    refine .look h (.expectInteger _) fun i _ ↦ .look h (.expectList this) fun s hs ↦ .look h (.ofExcept fun e he ↦
      EvalError.links_of_isLoopExit (Sealed.isLoopExit_of_get he)) fun r hr ↦ share h ?_
    exact h.alive_of_payload hlive hs (List.mem_map.mpr ⟨r, Sequence.mem_of_get hr, rfl⟩)
  | listSetAt => exact listSetAt hthis h (harg 1)
  | listAppend => exact listAppend hthis h (harg 0)
  | listInsert => exact listInsert hthis h (harg 1)
  | listRemoveAt => exact listRemoveAt hthis h
  | listClear => exact listClear hthis h
  | listFirst =>
    refine .look h (.expectList this) fun s hs ↦ shareOrNil h fun r hr ↦ h.alive_of_payload hlive hs ?_
    exact List.mem_map.mpr ⟨r, by simpa using Array.mem_of_getElem? hr, rfl⟩
  | listLast =>
    refine .look h (.expectList this) fun s hs ↦ shareOrNil h fun r hr ↦ h.alive_of_payload hlive hs ?_
    exact List.mem_map.mpr ⟨r, by simpa using Array.mem_of_back? hr, rfl⟩
  | listEach => exact listEach hE h hthis (harg 0)
  | closureIsCoroutine => exact .look h (.expectClosure this) fun _ _ ↦ boolean h _
  | classText => exact .look h (.expectClassObject this) fun _ _ ↦ .read (string h _)
  | classIsSubclass =>
    exact .look h (.expectClassObject this) fun _ _ ↦ .look h (.expectClassObject _) fun _ _ ↦ .read (boolean h _)
  | equalClasses => exact answerEqual h ..
  | handleIsFinished => exact .look h (.expectHandle this) fun _ _ ↦ .read (boolean h _)
  | handleIsCompleted => exact .look h (.expectHandle this) fun _ _ ↦ .read (boolean h _)
  | handleIsRunning => exact .look h (.expectHandle this) fun _ _ ↦ .read (boolean h _)
  | handleStatus => exact .look h (.expectHandle this) fun _ _ ↦ .read (symbol h _)
  | handleResult => exact .look h (.expectHandle this) fun x hx ↦ .read (resultOf h hlive hx)
  | handleError =>
    refine .look h (.expectHandle this) fun x _ ↦ .read ?_
    split
    · exact string h _
    · exact nil h
  | handleStop =>
    refine .look h (.expectHandle this) fun x _ ↦ .modified ?_
    exact share (h.stop x) ((h.stop x).alive_lent hthis)

/-! ### Coroutines -/

omit hE in
theorem pollWait (h : Sane σ G w) (info : PollInfo) (seconds : Ref) :
    Gives σ G (pollWait info seconds) w Step.links := by
  refine .look h (.expectNumber seconds) fun x _ ↦ ?_
  dsimp only
  split
  · exact (nil h).bind fun _ _ h₁ ↦ .pure h₁
  · exact .pure h

theorem pollWaitUntil {condition : Ref} (h : Sane σ G w) (hcondition : σ.Lends G condition) :
    Gives σ G (pollWaitUntil E condition) w Step.links := by
  refine (invokeClosureNow hE (show Sane σ (argLinks [] ++ G) w from h) (h.alive_lent hcondition)).bind fun value w₁ h₁ ↦ ?_
  refine Yields.lookElse (L := [value]) h₁ (.expectBool value) fun holds _ ↦ ?_
  cases holds with
  | true => exact .pure h₁
  | false => exact (release h₁).bind fun _ _ h₂ ↦ .pure h₂

omit hE in
theorem pollWaitFor {handle : Ref} (h : Sane σ G w) (hhandle : σ.Lends G handle) :
    Gives σ G (pollWaitFor handle) w Step.links := by
  have hlive := h.alive_lent hhandle
  refine .look h (.expectHandle handle) fun x hx ↦ .read ?_
  split
  · refine (shareOrNil h fun value hvalue ↦ ?_).map fun _ _ h₁ ↦ h₁
    split at hvalue
    · exact h.alive_result (h.alive_of_payload hlive hx (by simp [Payload.links])) hvalue
    · cases hvalue
  · exact (retainLink h (h.alive_of_payload hlive hx (by simp [Payload.links]))).bind fun _ _ h₁ ↦ .pure h₁

omit hE in
/-- The payload of an event is the result, or it is given up. -/
theorem pollWaitEvent {delivered : Option Ref} (h : Sane σ (delivered.toList.map .object ++ G) w) (info : PollInfo)
    (event : Ref) : Gives σ G (pollWaitEvent info event delivered) w Step.links := by
  refine Yields.lookElse h (.expectEvent event) fun name _ ↦ ?_
  cases delivered with
  | none => exact .pure h
  | some payload =>
    dsimp only
    split
    · exact (release h).bind fun _ _ h₁ ↦ .pure h₁
    · exact .pure h

omit hE in
/-- The item that a cursor comes to is handed over. -/
theorem retainNext {next : Option Ref} (cursor : Nat) (h : Sane σ G w) (hnext : ∀ r ∈ next, w.heap.Alive (.object r)) :
    Gives σ G (match next with
      | some item => do
        Machine.retain item
        return some (item, cursor)
      | none => return none) w fun r ↦ r.toList.map fun p ↦ .object p.1 := by
  cases next with
  | none => exact .pure h
  | some item => exact (retain h (hnext item rfl)).bind fun _ _ h₁ ↦ .pure h₁

omit hE in
theorem nextItem (h : Sane σ G w) (hthis : σ.Lends G this) (state : Option Stored) :
    Gives σ G (nextItem this state) w fun r ↦ r.toList.map fun p ↦ .object p.1 := by
  refine .look h (.expectList this) fun s hs ↦ ?_
  have hlive := h.alive_lent hthis
  -- A cursor may have to be opened first; the items stay as they are.
  have hstep : ∀ (cursor : Nat) (s' : Sequence), s'.items = s.items → s'.itemClass = s.itemClass →
      let w' := { w with heap := w.heap.setPayload this (.list (s'.advance cursor).2) }
      Sane σ G w' ∧ ∀ r ∈ (s'.advance cursor).1, w'.heap.Alive (.object r) := by
    intro cursor s' hitems hclass
    obtain ⟨hsame, hsameClass, hmem⟩ := s'.items_advance cursor
    have hset := World.Sane.setItems [] [] h hlive hs
      (show (s'.advance cursor).2.itemClass = s.itemClass from hsameClass.trans hclass) (by rw [hsame, hitems]) (by simp)
    refine ⟨hset, fun item hitem ↦ ?_⟩
    have hmem' : item ∈ (s'.advance cursor).2.items.toList := hsame.symm ▸ hmem item hitem
    exact hset.alive_of_payload (hset.alive_lent hthis) (Heap.payload_setPayload hlive _)
      (List.mem_map.mpr ⟨item, hmem', rfl⟩)
  have hopened := hstep s.openCursor.1 s.openCursor.2 rfl rfl
  cases state with
  | none => exact .modified (retainNext _ hopened.1 hopened.2)
  | some state =>
    cases state with
    | cursor number => exact .modified (retainNext _ (hstep number s rfl rfl).1 (hstep number s rfl rfl).2)
    | integer value => exact .modified (retainNext _ hopened.1 hopened.2)
    | text value => exact .modified (retainNext _ hopened.1 hopened.2)

/-- One step of a built-in coroutine, whichever it is. -/
theorem pollCore {delivered : Option Ref} (h : Sane σ (delivered.toList.map .object ++ G) w) (hthis : σ.Lends G this)
    {args : List Ref} (hargs : ∀ r ∈ args, σ.Lends G r) (code : CoreCoroutine) (info : PollInfo)
    (state : Option Stored) :
    Gives σ G (pollCore E code info this args delivered state) w fun p ↦ broughtBy Step.links p.1 := by
  have harg : σ.Lends G (args.getD 0 .nil) := by
    cases args with
    | nil => exact .inl rfl
    | cons r rest => exact hargs r List.mem_cons_self
  have hmore : ∀ {r}, σ.Lends G r → σ.Lends (delivered.toList.map .object ++ G) r :=
    fun hr ↦ hr.mono fun _ hl ↦ List.mem_append_right _ hl
  unfold Machine.pollCore
  cases code with
  | wait => exact (attempt (thenRelease (pollWait h info _))).bind fun _ _ h₁ ↦ .pure h₁
  | waitUntil => exact (attempt (thenRelease (pollWaitUntil hE h (hmore harg)))).bind fun _ _ h₁ ↦ .pure h₁
  | waitEvent => exact (attempt (pollWaitEvent h info _)).bind fun _ _ h₁ ↦ .pure h₁
  | waitFor => exact (attempt (thenRelease (pollWaitFor h (hmore harg)))).bind fun _ _ h₁ ↦ .pure h₁
  | each =>
    refine (attempt (nextItem h (hmore hthis) state)).bind fun r w₁ h₁ ↦ ?_
    match r with
    | .error e =>
      have h₁ : Sane σ (e.links ++ (delivered.toList.map .object ++ G)) w₁ := h₁
      exact (releaseAll (G := e.links ++ G) (h₁.mono (by grind))).bind fun _ _ h₂ ↦ .pure h₂
    | .ok none =>
      exact (releaseAll h₁).bind fun _ _ h₂ ↦ (share h₂ (h₂.alive_lent hthis)).bind fun _ _ h₃ ↦ .pure h₃
    | .ok (some (item, cursor)) =>
      have hcall : Gives σ (delivered.toList.map .object ++ G)
          (Machine.invokeClosureNow E (args.getD 0 .nil) [(none, item)]) w₁ fun r ↦ [.object r] :=
        invokeClosureNow hE h₁ (h₁.alive_lent (harg.mono fun l hl ↦ by simp [hl]))
      refine (attempt (thenRelease hcall)).bind fun result w₂ h₂ ↦ ?_
      cases result with
      | error e => exact .pure h₂
      | ok value => exact (release h₂).bind fun _ _ h₃ ↦ .pure h₃

end Machine.Gives

end MindScript
