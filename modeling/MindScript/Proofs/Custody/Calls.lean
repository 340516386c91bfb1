import MindScript.Proofs.Calls.Sealed
import MindScript.Proofs.Custody.Arguments
import MindScript.Proofs.Custody.Scheduler
import MindScript.Proofs.Refines

/-!
# Custody of calls

A call takes its receiver and its arguments over.  A context that code runs in holds the scopes and the receiver of
the code until the call ends; a frame holds its context for as long as it is stored.
-/

namespace MindScript

open Machine
open World (Sane)

variable {α : Type} {σ : Footing} {A G : List Link} {w : World} {E : Engine} {m : MindId} {id : FrameId}

theorem Frame.links_script (c : Context) (body : ExprId) : (Frame.script c body).links = c.links := by
  have hbody : (Continuation.new body).links = [] := rfl
  rw [links, script, FrameBody.links, hbody, List.append_nil]

/-- The links that a call leads to. -/
def Invoked.links : Invoked → List Link
  | .done value => [.object value]
  | .running x => [.outcome x.outcome]

/-! ### What a sane world tells of Minds and of dispatch -/

namespace World.Sane

/-- The step under way is that of a frame of a Mind that is there. -/
theorem mind_of_head? (h : Sane σ A w) (hhead : σ.stack.head? = some (m, id)) : m.index < w.minds.size := by
  obtain ⟨c, hc, -⟩ := h.books.valid.card_of_head? hhead
  obtain ⟨e, he, -⟩ := card_eq_some_iff.mp hc
  obtain ⟨mind, hmind, -⟩ := Option.bind_eq_some_iff.mp he
  exact (Array.getElem?_eq_some_iff.mp hmind).1

theorem current (h : Sane σ A w) (hcurrent : w.current = some (m, id)) :
    σ.stack.head? = some (m, id) ∧ m.index < w.minds.size := by
  have hhead : σ.stack.head? = some (m, id) := h.books.valid.current.symm.trans hcurrent
  exact ⟨hhead, h.mind_of_head? hhead⟩

theorem defaultMind (h : Sane σ A w) (hm : w.defaultMind = some m) : m.index < w.minds.size :=
  h.books.valid.defaultMind m hm

/-- More Minds may be relied on for a while. -/
theorem minds_size (h : Sane σ A w) : Sane { σ with minds := w.minds.size } A w :=
  { h with minds := Nat.le_refl _ }

theorem minds_le {n : Nat} (h : Sane { σ with minds := n } A w) (hn : σ.minds ≤ n) : Sane σ A w :=
  { h with minds := hn.trans h.minds }

/-- The registry remembers what dispatch has found. -/
theorem setClasses (h : Sane σ A w) {classes : Registry} (hclasses : classes.classes = w.classes.classes)
    (hoffers : ∀ m, classes.Offers m → w.classes.Offers m) : Sane σ A { w with classes } where
  books := h.books.of_minds rfl rfl rfl rfl
  this := h.this
  rooted := h.rooted
  classes := (congrArg Array.size hclasses).trans h.classes
  minds := h.minds
  covered := by
    have hdata : classes.classDataValues = w.classes.classDataValues := by
      rw [Registry.classDataValues, hclasses, Registry.classDataValues]
    have hroots : ({ w with classes } : World).roots = w.roots := by
      rw [roots, hdata]
      rfl
    rw [hroots]
    exact h.covered
  unmarked := h.unmarked
  typed := h.typed.of_stock rfl hclasses
  queued := h.queued
  members m hm := h.members m (hoffers m hm)

end World.Sane

namespace Machine

namespace Yields

theorem onHeap {F : Heap → α × Heap} {Q : α → World → Prop} (h : Q (F w.heap).1 { w with heap := (F w.heap).2 }) :
    Yields σ G (onHeap F) w Q := h

/-- More Minds may be relied on for a while. -/
theorem withMinds {n : Nat} {f : Machine α} {Q : α → World → Prop} (h : Yields { σ with minds := n } G f w Q)
    (hn : σ.minds ≤ n) : Yields σ G f w Q := by
  unfold Yields at h ⊢
  rcases hf : f w with ⟨(e | _) | a, w'⟩ <;> rw [hf] at h
  · exact h.minds_le hn
  · exact h
  · exact h

/-! ### Dispatch -/

theorem findMember (h : Sane σ G w) (c : ClassId) (name : String) :
    Yields σ G (findMember c name) w fun found w' ↦ Sane σ G w' ∧ ∀ m, found = some m → m.body.Decent σ.Knows := by
  obtain ⟨hanswer, hadds⟩ := w.classes.offers_find c name
  exact .of_ok rfl ⟨h.setClasses (w.classes.classes_find c name) hadds, fun m hm ↦ h.members m (hanswer m hm)⟩

theorem resolve (h : Sane σ G w) (c : ClassId) (name : String) (qualifier : Option ClassId) :
    Yields σ G (onClasses (Registry.resolve c name qualifier)) w fun m w' ↦
      Sane σ G w' ∧ m.body.Decent σ.Knows := by
  obtain ⟨hanswer, hadds⟩ := w.classes.offers_resolve c name qualifier
  have hclasses := classes_resolve w.classes c name qualifier
  have hsealed := (Sealed.resolve c name qualifier).fails w
  rw [Yields]
  unfold Machine.onClasses at hsealed ⊢
  rcases hfound : Registry.resolve c name qualifier w.classes with ⟨e | m, classes⟩ <;>
    rw [hfound] at hadds hclasses hsealed
  · have hlinks := EvalError.links_of_isLoopExit (hsealed e rfl)
    dsimp only
    rw [hlinks]
    exact h.setClasses hclasses hadds
  · exact ⟨h.setClasses hclasses hadds, h.members m (hanswer m classes hfound)⟩

/-- Dispatch finds a member that was declared. -/
theorem resolveCall (h : Sane σ G w) (receiver : Ref) (name : String) (qualifier : Option String) :
    Yields σ G (resolveCall receiver name qualifier) w fun m w' ↦ Sane σ G w' ∧ m.body.Decent σ.Knows := by
  have hdispatch : ∀ start, Yields σ G (dispatchFrom receiver name start) w fun m w' ↦
      Sane σ G w' ∧ m.body.Decent σ.Knows := by
    refine fun start ↦ .read ((resolve h _ name start).attempt.bind (fun r w₁ h₁ ↦ ?_))
    cases r with
    | ok m => exact .pure h₁
    | error e =>
      have h₁ : Sane σ (e.links ++ G) w₁ := h₁
      dsimp only
      split
      · exact .raiseKind (h₁.mono (.append_left _ _)) _
      · exact .raise h₁
  rw [resolveCall_eq]
  cases qualifier with
  | none => exact hdispatch none
  | some q =>
    have hstart : Looks (some <$> lookupClass q) w fun _ ↦ True := by
      rw [map_eq_pure_bind]
      exact (Looks.lookupClass q).bind fun c _ ↦ .pure trivial
    exact .look h hstart fun start _ ↦ hdispatch start

theorem resolveMethod (h : Sane σ G w) (receiver : Ref) (name : String) (qualifier : Option String) :
    Yields σ G (resolveMethod receiver name qualifier) w fun m w' ↦ Sane σ G w' ∧ m.body.Decent σ.Knows := by
  refine (resolveCall h receiver name qualifier).bind (fun m w₁ h₁ ↦ ?_)
  split
  · exact .raiseKind h₁.1 _
  · exact .pure h₁

/-! ### Contexts -/

/-- A context comes into the hand, with a scope to run in. -/
abbrev Enters (σ : Footing) (G : List Link) (f : Machine Context) (w : World) (this : Ref) : Prop :=
  Yields σ G f w fun c w' ↦ Sane σ (c.links ++ G) w' ∧ c.Rooted ∧ c.this = this

theorem newContext {this : Ref} (h : Sane σ (.object this :: G) w) (arena : Arena) (c : ClassId) :
    Enters σ G (newContext arena this c) w this := by
  refine (onHeap (G := G) (Q := fun env w' ↦ Sane σ (env.links ++ (.object this :: G)) w' ∧ env.scopes.items ≠ [])
    ⟨h.newEnv, List.cons_ne_nil _ _⟩).bind (fun env w₁ h₁ ↦ ?_)
  exact .pure ⟨h₁.1.mono fun l ↦ by
    simp only [Context.links, List.count_append, count_cons_hits, List.count_nil]
    omega, h₁.2, rfl⟩

theorem chainedContext {s : ScopeId} {this : Ref} (h : Sane σ G w) (hs : w.heap.Alive (.scope s))
    (hthis : w.heap.Alive (.object this)) (arena : Arena) (c : ClassId) :
    Enters σ G (chainedContext arena s this c) w this := by
  have hchained := h.chained hs
  have halive : (Environment.chained w.heap s).2.Alive (.object this) := Heap.alive_retain hthis (.scope s)
  refine (onHeap (G := G) (Q := fun env w' ↦ Sane σ (env.links ++ G) w' ∧ env.scopes.items ≠ [] ∧
    w'.heap.Alive (.object this)) ⟨hchained, List.cons_ne_nil _ _, halive⟩).bind (fun env w₁ h₁ ↦ ?_)
  refine (Gives.retain h₁.1 h₁.2.2).bind (fun _ w₂ h₂ ↦ .pure ⟨h₂.mono fun l ↦ ?_, h₁.2.1, rfl⟩)
  simp only [Context.links, List.count_append, count_cons_hits, List.count_nil]
  omega

/-- A closure keeps its scope and its receiver alive. -/
theorem closureContext {c : Closure} {callee : Ref} (h : Sane σ G w) (hcallee : w.heap.Alive (.object callee))
    (hc : w.heap.payload callee = .closure c) : Enters σ G (closureContext c) w c.this :=
  chainedContext h (h.alive_of_payload hcallee hc (by simp [Payload.links]))
    (h.alive_of_payload hcallee hc (by simp [Payload.links])) _ _

theorem captureContext (h : Sane σ G w) : Enters σ G captureContext w σ.this := by
  have hthis : w.heap.Alive (.object w.context.this) := h.this ▸ h.alive_this
  exact .read ((chainedContext h h.alive_innermost hthis _ _).mono
    (fun _ _ hc ↦ ⟨hc.1, hc.2.1, hc.2.2.trans h.this⟩))

end Yields

theorem Looks.expectClosure (callee : Ref) :
    Looks (expectClosure callee) w fun c ↦ w.heap.payload callee = .closure c := by
  refine .read ?_
  split
  · next c hc => exact .pure hc
  · exact .typeMismatch _ _

/-! ### Running scripts -/

namespace Gives

variable {args : ArgValues} {c : Context}

/-- A loop exit ends at the boundary, and its value with it. -/
theorem failLoopExit {B : α → List Link} {r : Except EvalError α} (h : Sane σ (broughtBy B r ++ G) w) :
    Gives σ G (failLoopExit r) w B := by
  cases r with
  | ok a => exact .pure h
  | error e =>
    refine (releaseAll (L := e.exit.toList) h).bind fun _ w₁ h₁ ↦ .raise ?_
    rwa [EvalError.links_of_isLoopExit e.isLoopExit_toFailure]

/-- The hand as the code of a context finds it: the caller's context is in the hand now. -/
theorem enter (h : Sane σ (A ++ (c.links ++ G)) w) (hc : c.Rooted) :
    Sane { σ with this := c.this } (A ++ (w.context.links ++ G)) { w with context := c } :=
  h.setContext hc fun l ↦ by
    simp only [List.count_append]
    omega

/-- More Minds may be relied on for a while. -/
theorem withMinds {n : Nat} {f : Machine α} {B : α → List Link} (h : Gives { σ with minds := n } G f w B)
    (hn : σ.minds ≤ n) : Gives σ G f w B :=
  (Yields.mono h (fun _ _ h₁ ↦ h₁.minds_le hn)).withMinds hn

/-- An instance that is no longer under construction can be marked. -/
theorem disarm {r : Ref} (h : Sane σ G w) (hr : w.heap.Alive (.object r)) (hbuilt : r ∉ σ.building) :
    Gives σ G (disarm r) w fun _ ↦ [] := by
  obtain ⟨o, ho, hcount⟩ := Heap.object?_of_alive hr
  have hcovers : Heap.Covers (w.heap.modifyObject r fun o ↦ { o with destructed := true })
      (G ++ (w.roots ++ σ.building.map .object)) := by
    refine h.covered.change (Heap.changes_modifyObject ho _) ?_ fun l ↦ Nat.le_refl _
    simp [Heap.counted, Heap.refCount, ho]
  exact .modify (h.mark hcovers hbuilt)

theorem constructCore? (h : Sane σ G w) {d : ClassId} {make : Machine Ref} (hmake : constructCore? d = some make) :
    Gives σ G make w fun r ↦ [.object r] := by
  unfold Machine.constructCore? at hmake
  split at hmake
  · cases hmake
    exact nil h
  split at hmake
  · cases hmake
    exact list h
  split at hmake
  · cases hmake
    exact (zeroValue h d).mono fun _ _ h₁ ↦ h₁.1
  · cases hmake

section

variable (hE : E.Careful)

include hE

theorem runScript (h : Sane σ (argLinks args ++ (c.links ++ G)) w) (hc : c.Rooted) (name : String) (params : Span)
    (body : ExprId) : Gives σ G (runScript E c name params body args) w fun r ↦ [.object r] := by
  have hrun := (@bindParams _ _ _ _ hE name params _ (enter h hc)).bind fun _ w₁ h₁ ↦ hE.eval body h₁
  refine (withContext h.rooted h.this hrun).bind fun p w₁ h₁ ↦ ?_
  refine (releaseLinks (L := p.2.links) (G := broughtBy (fun r ↦ [.object r]) p.1 ++ G) ?_).bind fun _ w₂ h₂ ↦ ?_
  · exact h₁.1.mono fun l ↦ by
      simp only [afterContext, List.count_append]
      omega
  · exact failLoopExit h₂

/-- Calling a method takes its receiver and its arguments over. -/
theorem callMethod {receiver : Ref} (h : Sane σ (argLinks args ++ (.object receiver :: G)) w) (name : String)
    (qualifier : Option String) : Gives σ G (callMethod E receiver name qualifier args) w fun r ↦ [.object r] := by
  have hheld : Sane σ ((args.map Prod.snd ++ [receiver]).map .object ++ G) w := h.mono fun l ↦ by
    simp only [argLinks, List.map_append, List.map_cons, List.map_nil, List.count_append, count_cons_hits, List.count_nil]
    omega
  refine (Yields.resolveMethod hheld receiver name qualifier).elseRelease.bind fun m w₁ h₁ ↦ ?_
  refine hE.invoke receiver m args (h₁.1.mono fun l ↦ ?_) h₁.2
  simp only [argLinks, List.map_append, List.map_cons, List.map_nil, List.count_append, count_cons_hits, List.count_nil]
  omega

/-! ### Frames -/

/-- A frame that is spawned takes its links over; the handle belongs to the caller. -/
theorem spawnFrame {frame : Frame} {parent : Option FrameId} (h : Sane σ (frame.links ++ G) w)
    (hm : m.index < w.minds.size) (hparent : ∀ p, parent = some p → σ.stack.head? = some (m, p))
    (hframe : frame.Decent σ.Knows) (hfresh : frame.Fresh) (name : String) (owner : ClassId) (deferred : Bool) :
    Gives σ G (spawnFrame E m name owner parent frame deferred) w fun x ↦ [.outcome x.outcome] := by
  have hregister : Gives σ G (registerFrame m name owner parent frame) w fun x ↦ [.outcome x.outcome] :=
    .modifyGet (h.register name owner hm hparent hframe hfresh)
  refine hregister.bind fun x w₁ h₁ ↦ ?_
  cases deferred with
  | true =>
    have hdefer : Gives σ (.outcome x.outcome :: G) (defer m x.frame) w₁ fun _ ↦ [] := by
      refine .modify (h₁.modifyMind m ?_ ?_ ?_ ?_)
      · exact fun _ ↦ rfl
      · exact fun _ ↦ rfl
      · exact fun _ ↦ rfl
      · exact fun _ ↦ Nat.le_refl _
    exact hdefer.bind fun _ _ h₂ ↦ .pure h₂
  | false => exact (hE.resume (G := .outcome x.outcome :: G) m x.frame h₁).bind fun _ _ h₂ ↦ .pure h₂

theorem scriptFrame (h : Sane σ (argLinks args ++ (c.links ++ G)) w) (hc : c.Rooted) (name : String) (params : Span)
    (body : ExprId) : Yields σ G (scriptFrame E c name params body args) w fun fr w' ↦
      Sane σ (fr.links ++ G) w' ∧ fr.Decent σ.Knows ∧ fr.Fresh := by
  refine (withContext h.rooted h.this (bindParams hE (enter h hc))).bind (fun p w₁ h₁ ↦ ?_)
  obtain ⟨bound, after⟩ := p
  cases bound with
  | ok _ =>
    refine .pure ⟨?_, ⟨h₁.2.1, trivial⟩, .script after body⟩
    rw [Frame.links_script]
    exact h₁.1
  | error e =>
    refine (releaseLinks (L := after.links) (G := e.links ++ G) (h₁.1.mono fun l ↦ ?_)).bind fun _ w₂ h₂ ↦ .raise h₂
    simp only [afterContext, broughtBy, List.count_append]
    omega

/-- The frame of a coroutine member takes the receiver and the arguments over. -/
theorem memberFrame {this : Ref} {member : Member} (h : Sane σ (argLinks args ++ (.object this :: G)) w)
    (hmember : member.body.Decent σ.Knows) : Yields σ G (memberFrame E this member args) w fun fr w' ↦
      Sane σ (fr.links ++ G) w' ∧ fr.Decent σ.Knows ∧ fr.Fresh := by
  unfold Machine.memberFrame
  split
  · next arena params body _ =>
    have hthis : Sane σ (.object this :: (argLinks args ++ G)) w := h.mono (by grind)
    refine (Yields.newContext hthis arena member.owner).bind fun c w₁ h₁ ↦ ?_
    exact scriptFrame hE (h₁.1.mono fun l ↦ by
      simp only [List.count_append]
      omega) h₁.2.1 _ _ _
  · next params code heq =>
    have hnative : Gives σ ([this].map .object ++ G) (Machine.bindNative member.name params args) w fun values ↦
        values.map .object := bindNative h
    refine hnative.elseRelease.bind fun values w₁ h₁ ↦ ?_
    have hthis : Sane σ (.object this :: (values.map .object ++ G)) w₁ := h₁.mono (by grind)
    refine (Yields.newContext hthis {} member.owner).bind fun c w₂ h₂ ↦
      .pure ⟨h₂.1.mono fun l ↦ ?_, ⟨h₂.2.1, ?_⟩, .native c code values⟩
    · simp only [Frame.links, FrameBody.links, List.count_append]
      omega
    · rw [heq] at hmember
      exact hmember
  · refine (releaseAll (L := args.map Prod.snd ++ [this]) (h.mono fun l ↦ ?_)).bind fun _ _ h₁ ↦ .raiseKind h₁ _
    simp only [argLinks, List.map_append, List.map_cons, List.map_nil, List.count_append, count_cons_hits, List.count_nil]
    omega

theorem spawnMember {mind : MindId} {parent : Option FrameId} {this : Ref} {member : Member}
    (h : Sane σ (argLinks args ++ (.object this :: G)) w) (hmember : member.body.Decent σ.Knows)
    (hparent : ∀ p, parent = some p → σ.stack.head? = some (mind, p)) (deferred : Bool) :
    Gives σ G (spawnMember E mind parent this member args deferred) w fun x ↦ [.outcome x.outcome] := by
  have hheld : Sane σ ((args.map Prod.snd ++ [this]).map .object ++ G) w := h.mono fun l ↦ by
    simp only [argLinks, List.map_append, List.map_cons, List.map_nil, List.count_append, count_cons_hits, List.count_nil]
    omega
  refine .read ?_
  split
  · exact (releaseAll hheld).bind fun _ _ h₁ ↦ .raiseKind h₁ _
  · next howned =>
    split
    · exact (releaseAll hheld).bind fun _ _ h₁ ↦ .raise h₁
    · -- The frame is made in between, and the Mind must still be there afterwards.
      have hmind : mind.index < w.minds.size := by simpa [World.ownsMind] using howned
      refine withMinds (n := w.minds.size) ?_ h.minds
      refine (memberFrame hE h.minds_size hmember).bind fun frame w₁ h₁ ↦ ?_
      exact spawnFrame hE h₁.1 (Nat.lt_of_lt_of_le hmind h₁.1.minds) hparent h₁.2.1 h₁.2.2 _ _ deferred

/-- A member that is called from a frame runs, or starts as a child of the frame. -/
theorem callCoroutine {receiver : Ref} (h : Sane σ (argLinks args ++ (.object receiver :: G)) w) (name : String)
    (qualifier : Option String) : Gives σ G (callCoroutine E receiver name qualifier args) w Invoked.links := by
  have hheld : Sane σ ((args.map Prod.snd ++ [receiver]).map .object ++ G) w := h.mono fun l ↦ by
    simp only [argLinks, List.map_append, List.map_cons, List.map_nil, List.count_append, count_cons_hits, List.count_nil]
    omega
  refine (Yields.resolveCall hheld receiver name qualifier).elseRelease.bind fun member w₁ h₁ ↦ ?_
  have hargs : Sane σ (argLinks args ++ (.object receiver :: G)) w₁ := h₁.1.mono fun l ↦ by
    simp only [argLinks, List.map_append, List.map_cons, List.map_nil, List.count_append, count_cons_hits, List.count_nil]
    omega
  split
  · refine .read ?_
    split
    · next mind parent hcurrent =>
      refine (spawnMember hE hargs h₁.2 (fun p hp ↦ ?_) false).map fun _ _ h₂ ↦ h₂
      cases hp
      exact (hargs.current hcurrent).1
    · exact (releaseAll h₁.1).bind fun _ _ h₂ ↦ .raiseKind h₂ _
  · exact (hE.invoke receiver member args hargs h₁.2).map fun _ _ h₂ ↦ h₂

/-! ### Closures -/

/-- The callee stays alive while a closure is called. -/
theorem invokeClosureNow {callee : Ref} (h : Sane σ (argLinks args ++ G) w) (hcallee : w.heap.Alive (.object callee)) :
    Gives σ G (invokeClosureNow E callee args) w fun r ↦ [.object r] := by
  refine Yields.lookElse (L := args.map Prod.snd) h (.expectClosure callee) fun c hc ↦ ?_
  split
  · exact (releaseAll (L := args.map Prod.snd) h).bind fun _ _ h₁ ↦ .raiseKind h₁ _
  · refine .read (withInvocation (L := args.map Prod.snd) h fun callStack h₁ ↦ ?_)
    refine (Yields.closureContext h₁ hcallee hc).bind fun context w₂ h₂ ↦ ?_
    exact runScript hE (h₂.1.mono fun l ↦ by
      simp only [argLinks, List.count_append]
      omega) h₂.2.1 _ _ _

theorem callClosure {callee : Ref} (h : Sane σ (argLinks args ++ G) w) (hcallee : w.heap.Alive (.object callee)) :
    Gives σ G (callClosure E callee args) w Invoked.links := by
  refine Yields.lookElse (L := args.map Prod.snd) h (.expectClosure callee) fun c hc ↦ ?_
  split
  · exact (invokeClosureNow hE h hcallee).map fun _ _ h₁ ↦ h₁
  · refine .read ?_
    split
    · exact (releaseAll (L := args.map Prod.snd) h).bind fun _ _ h₁ ↦ .raiseKind h₁ _
    · next mind parent hcurrent =>
      obtain ⟨hhead, hmind⟩ := h.current hcurrent
      refine (Yields.closureContext h hcallee hc).bind fun context w₁ h₁ ↦ ?_
      have hargs : Sane σ (argLinks args ++ (context.links ++ G)) w₁ := h₁.1.mono fun l ↦ by
        simp only [List.count_append]
        omega
      refine (scriptFrame hE hargs h₁.2.1 _ _ _).bind fun frame w₂ h₂ ↦ ?_
      refine (spawnFrame hE h₂.1 ?_ (fun p hp ↦ by cases hp; exact hhead) h₂.2.1 h₂.2.2 _ _ false).map fun _ _ h₃ ↦ h₃
      exact h₂.1.mind_of_head? hhead

/-! ### Construction -/

/-- An instance is made and then its constructor runs as it. -/
theorem construct {d : ClassId} (h : Sane σ (argLinks args ++ G) w) (hd : σ.Knows d) :
    Gives σ G (construct E d args) w fun r ↦ [.object r] := by
  refine .read ?_
  split
  · next make hmake =>
    refine (constructCore? h hmake).bind fun value w₁ h₁ ↦ ?_
    split
    · exact .pure (h₁.mono (by grind))
    · exact (releaseAll (L := value :: args.map Prod.snd) h₁).bind fun _ _ h₂ ↦ .raiseKind h₂ _
  · refine (newInstance h hd).bind fun object w₁ ⟨h₁, hnot, hnew⟩ ↦ ?_
    refine (Yields.findMember (h₁.build hnew) d constructorName).building.bind fun found w₂ h₂ ↦ ?_
    split
    · next member =>
      refine (retain h₂.1 (h₂.1.alive_building List.mem_cons_self)).building.bind fun _ w₃ h₃ ↦ ?_
      have hcall : Sane { σ with building := object :: σ.building } (argLinks args ++ (.object object :: G)) w₃ :=
        h₃.mono (by grind)
      refine (attempt (hE.invoke object member args hcall (h₂.2 member rfl))).building.bind fun result w₄ h₄ ↦ ?_
      cases result with
      | ok value =>
        have h₄ : Sane σ (.object object :: .object value :: G) w₄ := h₄.built
        exact (release (G := .object object :: G) (h₄.mono (by grind))).bind fun _ _ h₅ ↦ .pure h₅
      | error e =>
        have h₄ : Sane σ (.object object :: (e.links ++ G)) w₄ := h₄.built
        refine (disarm h₄ (h₄.alive List.mem_cons_self) hnot).bind fun _ w₅ h₅ ↦ ?_
        exact (release (G := e.links ++ G) h₅).bind fun _ _ h₆ ↦ .raise h₆
    · split
      · exact .pure (h₂.1.built.mono (by grind))
      · exact (releaseAll (L := object :: args.map Prod.snd) h₂.1.built).bind fun _ _ h₃ ↦ .raiseKind h₃ _

theorem instantiate (h : Sane σ (argLinks args ++ G) w) (className : String) :
    Gives σ G (instantiate E className args) w fun r ↦ [.object r] :=
  Yields.lookElse (L := args.map Prod.snd) h (.lookupClass className) fun _ hc ↦
    construct hE h (by rwa [Footing.Knows, ← h.classes])

/-! ### Branches and groups -/

theorem spawnBranch (h : Sane σ G w) (body : ExprId) :
    Gives σ G (spawnBranch E body) w fun x ↦ [.outcome x.outcome] := by
  refine .read ?_
  split
  · exact .raiseKind h _
  · next mind hmind =>
    have hthere : mind.index < w.minds.size := by
      rcases Option.or_eq_some_iff.mp hmind with hcurrent | ⟨-, hdefault⟩
      · obtain ⟨⟨m, id⟩, hm, rfl⟩ := Option.map_eq_some_iff.mp hcurrent
        exact (h.current hm).2
      · exact h.defaultMind hdefault
    refine withMinds (n := w.minds.size) ?_ h.minds
    refine (Yields.captureContext h.minds_size).bind fun context w₁ h₁ ↦ ?_
    have hframe : Sane { σ with minds := w.minds.size } ((Frame.script context body).links ++ G) w₁ := by
      rw [Frame.links_script]
      exact h₁.1
    refine (spawnFrame hE hframe (Nat.lt_of_lt_of_le hthere h₁.1.minds) (fun p hp ↦ by cases hp) ⟨h₁.2.1, trivial⟩
      (.script context body) _ _ false).bind fun x w₂ h₂ ↦ ?_
    have hsettle : Gives { σ with minds := w.minds.size } (.outcome x.outcome :: G)
        (modify fun w ↦ w.settleMind mind) w₂ fun _ ↦ [] := .modify (h₂.settleMind mind)
    exact hsettle.bind fun _ _ h₃ ↦ .pure h₃

theorem spawnGroup (h : Sane σ G w) (policy : Policy) (branches : Span) :
    Gives σ G (spawnGroup E policy branches) w fun x ↦ [.outcome x.outcome] := by
  refine .read ?_
  split
  · exact .raiseKind h _
  · next mind parent hcurrent =>
    obtain ⟨hhead, hmind⟩ := h.current hcurrent
    refine (Yields.captureContext h).bind fun context w₁ h₁ ↦ ?_
    have hframe : Sane σ (Frame.links { context, body := .group { policy, branches } } ++ G) w₁ := by
      simpa [Frame.links, FrameBody.links] using h₁.1
    exact spawnFrame hE hframe (h₁.1.mind_of_head? hhead) (fun p hp ↦ by cases hp; exact hhead) ⟨h₁.2.1, trivial⟩
      (.group context policy branches) _ _ false

end

end Gives

end Machine

end MindScript
