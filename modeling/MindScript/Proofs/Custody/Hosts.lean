import MindScript.Proofs.Class.Foundation
import MindScript.Proofs.Custody.Declarations
import MindScript.Proofs.Custody.Engine

/-!
# Worlds that hosts come to

A host owns references: those that its calls handed to it and those that it took, until it gives them up.  It passes
on what it owns, names classes that there are, and supplies members that do so too.  Native members are bound by the
same rules in the middle of the calls that they are run by.  Then every world is sane: between calls, wherever a call
is stopped in the middle, and at the safe points.
-/

namespace MindScript

open Machine
open World (Sane)

/-- What a host may pass on: nil and what it owns. -/
def Owns (owned : List Link) (r : Ref) : Prop := r = .nil ∨ .object r ∈ owned

/-- What a call does before the safe point that it ends with, where the caller owns some links, and what it brings. -/
inductive FairBody (E : Engine) (w : World) (owned : List Link) :
    {α : Type} → Machine (Except EvalError α) → (α → List Link) → Prop where
  | new {c : ClassId} {args : List Ref} : c.index < w.classes.size → (∀ r ∈ args, Owns owned r) →
      FairBody E w owned (newBody E c args) fun r ↦ [.object r]
  | evaluate (arena : Arena) (root : ExprId) : FairBody E w owned (evaluateBody E arena root) fun r ↦ [.object r]
  | invoke {target : Ref} {args : List Ref} (member : String) : Owns owned target → (∀ r ∈ args, Owns owned r) →
      FairBody E w owned (invokeBody E target member args) fun r ↦ [.object r]
  | start {target : Ref} {args : List Ref} (member : String) (m : MindId) (deferred : Bool) : Owns owned target →
      (∀ r ∈ args, Owns owned r) →
      FairBody E w owned (startBody E target member args m deferred) fun x ↦ [.outcome x.outcome]

/-- The calls that a host may make when it owns some links, and what it owns after each. -/
inductive FairCall (E : Engine) (w : World) :
    List Link → {α : Type} → Machine α → (α → List Link) → Prop where
  | body {owned : List Link} {α : Type} {body : Machine (Except EvalError α)} {brings : α → List Link} :
      FairBody E w owned body brings → FairCall E w owned (body >>= finishHostCall E) fun a ↦ brings a ++ owned
  | update {owned : List Link} (m : MindId) (elapsed : Float) :
      FairCall E w owned (update E m elapsed) fun _ ↦ owned
  | runDestructors {owned : List Link} : FairCall E w owned (runDestructors E) fun _ ↦ owned
  | notify {owned : List Link} {payload : Ref} (m : MindId) (event : String) : Owns owned payload →
      FairCall E w owned (modifyGet fun w ↦ w.notify m event payload) fun _ ↦ owned
  | stop {owned : List Link} (x : Handle) : FairCall E w owned (modify fun w ↦ w.stop x) fun _ ↦ owned
  | stopAll {owned : List Link} (m : MindId) : FairCall E w owned (modify fun w ↦ w.stopAll m) fun _ ↦ owned
  | stopAllFor {owned : List Link} (r : Ref) : FairCall E w owned (modify fun w ↦ w.stopAllFor r) fun _ ↦ owned
  | setSuspended {owned : List Link} (m : MindId) (suspended : Bool) :
      FairCall E w owned (modify fun w ↦ w.setSuspended m suspended) fun _ ↦ owned
  | setUpdateInterval {owned : List Link} (x : Handle) (seconds : Float) :
      FairCall E w owned (modify fun w ↦ w.setUpdateInterval x seconds) fun _ ↦ owned
  | createMind {owned : List Link} (name : String) :
      FairCall E w owned (modifyGet fun w ↦ w.createMind name) fun _ ↦ owned
  | takeFailures {owned : List Link} (m : MindId) :
      FairCall E w owned (modifyGet fun w ↦ w.takeFailures m) fun _ ↦ owned
  | takeHistory {owned : List Link} (m : MindId) :
      FairCall E w owned (modifyGet fun w ↦ w.takeHistory m) fun _ ↦ owned
  | literal {owned : List Link} (v : Literal) : FairCall E w owned (literal v) fun r ↦ .object r :: owned
  /-- What is alive can be reached, and be read out of where it is. -/
  | retain {owned : List Link} {l : Link} : w.heap.Alive l → FairCall E w owned (retainLink l) fun _ ↦ l :: owned
  | release {owned : List Link} (ls : List Link) : FairCall E w (ls ++ owned) (releaseLinks ls) fun _ ↦ owned
  | registerClass {owned : List Link} {decl : ClassDecl} :
      (∀ d ∈ decl.members, d.body.Decent (·.index ≤ w.classes.size)) →
      FairCall E w owned (registerClass decl) fun _ ↦ owned
  | defineMember {owned : List Link} {decl : MemberDecl} (c : ClassId) : decl.body.Decent (·.index < w.classes.size) →
      FairCall E w owned (defineMember c decl) fun _ ↦ owned
  | teardown {owned : List Link} : FairCall E w owned (teardown E) fun _ ↦ owned

/-- The worlds that an interpreter comes to, with what the host or native member owns that makes the next call.  A
failed call may hand over a value with its error, and references may be lost. -/
inductive Reached : List Link → World → Prop where
  | start (config : Config) : Reached [] (.new config)
  | returns {owned : List Link} {w w' : World} {α : Type} {f : Machine α} {gains : α → List Link} {a : α} (n : Nat) :
      Reached owned w → FairCall (.ofBudget n) w owned f gains → f w = (.ok a, w') → Reached (gains a) w'
  | fails {owned : List Link} {w w' : World} {α : Type} {f : Machine α} {gains : α → List Link} {e : EvalError}
      (n : Nat) : Reached owned w → FairCall (.ofBudget n) w owned f gains → f w = (.error (.raised e), w') →
      Reached (e.links ++ owned) w'
  /-- In the middle of a call, where a native member may go on with calls of its own. -/
  | midway {owned : List Link} {w w' : World} {α : Type} {f : Machine α} {gains : α → List Link}
      (stop : World → Bool) (n : Nat) : Reached owned w → FairCall (.pausing stop n) w owned f gains →
      f w = (.error .exhausted, w') → Reached owned w'
  /-- Where a call has come to its safe point. -/
  | safePoint {owned : List Link} {w w' : World} {α : Type} {body : Machine (Except EvalError α)} {brings : α → List Link}
      {result : Except EvalError α} (n : Nat) : Reached owned w → FairBody (.ofBudget n) w owned body brings →
      body w = (.ok result, w') → Reached (broughtBy brings result ++ owned) w'
  | pumped {owned : List Link} {w w' : World} {resumed : Nat} (n : Nat) {m : MindId} (elapsed : Float) :
      Reached owned w → w.Idle m → pump (.ofBudget n) m elapsed w = (.ok resumed, w') → Reached owned w'
  | forget {owned owned' : List Link} {w : World} : Reached owned w → Within owned' owned → Reached owned' w

variable {σ : Footing} {owned : List Link} {E : Engine} {w : World} {r : Ref}

theorem Owns.lends (h : Owns owned r) : σ.Lends owned r := h.imp_right .inr

namespace FairBody

theorem gives (hE : E.Careful) (h : Sane σ owned w) {α : Type} {body : Machine (Except EvalError α)}
    {brings : α → List Link} (hbody : FairBody E w owned body brings) : Gives σ owned body w (broughtBy brings) := by
  cases hbody with
  | new hc hargs => exact Gives.newBody hE (by rwa [Footing.Knows, ← h.classes]) h fun r hr ↦ (hargs r hr).lends
  | evaluate arena root => exact Gives.evaluateBody hE h arena root
  | invoke member htarget hargs => exact Gives.invokeBody hE h htarget.lends member fun r hr ↦ (hargs r hr).lends
  | start member m deferred htarget hargs =>
    exact Gives.startBody hE h htarget.lends member (fun r hr ↦ (hargs r hr).lends) m deferred

theorem alike {α : Type} {body : Machine (Except EvalError α)} {brings : α → List Link} {τ : Setting}
    (h : FairBody E w owned body brings) : Alike E E τ body body := by
  cases h with
  | new _ _ => exact (Alike.shareArgs _).bind fun args ↦ (Alike.construct _ args).attempt
  | evaluate arena root =>
    exact Alike.nil.bind fun _ ↦ (Alike.newContext ..).bind fun context ↦
      (Alike.withContext context (.eval root)).bind fun _ ↦ (Alike.releaseLinks _).bind fun _ ↦
        (Alike.failLoopExit _).attempt
  | invoke member _ _ =>
    exact (Alike.shareArgs _).bind fun _ ↦ (Alike.retain _).bind fun _ ↦ (Alike.callMethod ..).attempt.bind fun result ↦
      Alike.blame _ member result
  | start member m deferred _ _ =>
    exact (Alike.shareArgs _).bind fun _ ↦ (Alike.startMember ..).attempt.bind fun result ↦
      (Alike.blame _ member result).bind fun result ↦ (Alike.basic (.settleMind m)).bind fun _ ↦ .pure result

end FairBody

theorem alike_pump {τ : Setting} {m : MindId} (hm : τ.pumping = some m) (elapsed : Float) :
    Alike E E τ (pump E m elapsed) (pump E m elapsed) :=
  (Alike.basic (.beginUpdate hm elapsed)).bind fun _ ↦ (Alike.resumePhases (Nat.le_refl _) hm).bind fun resumed ↦
    (Alike.basic (.endUpdate hm)).bind fun _ ↦ .pure resumed

namespace FairCall

/-- Stopping everything, forgetting class data and running destructors leaves what the host owns. -/
theorem teardown_gives (hE : E.Careful) (h : Sane σ owned w) : Gives σ owned (Machine.teardown E) w fun _ ↦ [] := by
  have hstopped := h.stopEverything
  have hcleared := hstopped.clearClassData
  refine .modified (.read (.modified ((Gives.releaseAll hcleared).bind fun _ w₁ h₁ ↦ ?_)))
  exact (Gives.runDestructors hE h₁).bind fun _ w₂ h₂ ↦
    .modify (h₂.age rfl (.of_objects rfl fun _ hG ↦ ⟨hG.counts, hG.nested⟩) (.retire _))

/-- A fair call leaves a host with what it is said to own.  There may be more classes afterwards. -/
theorem yields (hE : E.Careful) (h : Sane σ owned w) {α : Type} {f : Machine α} {gains : α → List Link}
    (hcall : FairCall E w owned f gains) : ∃ k, Yields { σ with classes := k } owned f w fun a w' ↦
      Sane { σ with classes := k } (gains a) w' := by
  cases hcall with
  | registerClass hdecl =>
    obtain ⟨k, -, hregister⟩ := Gives.registerClass h hdecl
    exact ⟨k, hregister⟩
  | body hbody => exact ⟨σ.classes, (hbody.gives hE h).bind fun _ _ h₁ ↦ Gives.finishHostCall hE h₁⟩
  | update m elapsed => exact ⟨σ.classes, Gives.update hE h m elapsed⟩
  | runDestructors => exact ⟨σ.classes, Gives.runDestructors hE h⟩
  | notify m event hpayload => exact ⟨σ.classes, .modifyGet (h.notify m event (h.alive_lent hpayload.lends))⟩
  | stop x => exact ⟨σ.classes, .modify (h.stop x)⟩
  | stopAll m => exact ⟨σ.classes, .modify (h.stopAll m)⟩
  | stopAllFor r => exact ⟨σ.classes, .modify (h.stopAllFor r)⟩
  | setSuspended m suspended =>
    exact ⟨σ.classes, .modify (h.modifyMind m (fun _ ↦ rfl) (fun _ ↦ rfl) (fun _ ↦ rfl) fun _ ↦ Nat.le_refl _)⟩
  | setUpdateInterval x seconds => exact ⟨σ.classes, .modify (h.setUpdateInterval x seconds)⟩
  | createMind name => exact ⟨σ.classes, .modifyGet (h.createMind name)⟩
  | takeFailures m => exact ⟨σ.classes, .modifyGet (h.modifyMind m (fun _ ↦ rfl) (fun _ ↦ rfl) (fun _ ↦ rfl) fun _ ↦ Nat.le_refl _)⟩
  | takeHistory m => exact ⟨σ.classes, .modifyGet (h.modifyMind m (fun _ ↦ rfl) (fun _ ↦ rfl) (fun _ ↦ rfl) fun _ ↦ Nat.le_refl _)⟩
  | literal v => exact ⟨σ.classes, Gives.literal h v⟩
  | retain hl => exact ⟨σ.classes, Gives.retainLink h hl⟩
  | release ls => exact ⟨σ.classes, .modify h.release⟩
  | defineMember c hdecl =>
    refine ⟨σ.classes, Gives.defineMember h (hdecl.mono fun _ hc ↦ ?_)⟩
    rwa [Footing.Knows, ← h.classes]
  | teardown => exact ⟨σ.classes, teardown_gives hE h⟩

/-- A fair call is one of the calls that a host can make. -/
theorem host {α : Type} {f : Machine α} {gains : α → List Link} (h : FairCall E w owned f gains) : HostCall E f := by
  cases h with
  | body hbody =>
    cases hbody with
    | new _ _ => exact hostNew_eq E _ _ ▸ .new _ _
    | evaluate arena root => exact hostEvaluate_eq E arena root ▸ .evaluate arena root
    | invoke member _ _ => exact hostInvoke_eq E _ member _ ▸ .invoke _ member _
    | start member m deferred _ _ => exact hostStart_eq E _ member _ m deferred ▸ .start _ member _ m deferred
  | update m elapsed => exact .update m elapsed
  | runDestructors => exact .runDestructors
  | notify m event _ => exact .notify m event _
  | stop x => exact .stop x
  | stopAll m => exact .stopAll m
  | stopAllFor r => exact .stopAllFor r
  | setSuspended m suspended => exact .setSuspended m suspended
  | setUpdateInterval x seconds => exact .setUpdateInterval x seconds
  | createMind name => exact .createMind name
  | takeFailures m => exact .takeFailures m
  | takeHistory m => exact .takeHistory m
  | literal v => exact .literal v
  | retain _ => exact .retain _
  | release ls => exact .release ls
  | registerClass _ => exact .registerClass _
  | defineMember c _ => exact .defineMember c _
  | teardown => exact .teardown

end FairCall

/-! ### New interpreters -/

namespace World

variable (config : Config)

theorem classes_new : (World.new config).classes = CoreClass.registry := by
  unfold World.new
  dsimp only
  split <;> rfl

theorem heap_new : (World.new config).heap =
    { objects := #[{ classId := Core.none, payload := .plain, count := 2 }], scopes := #[{}] } := by
  unfold World.new
  dsimp only
  split <;> rfl

theorem context_new : (World.new config).context = ⟨{}, ⟨.ofList [⟨0⟩], Nat.one_pos⟩, .nil, Core.object⟩ := by
  unfold World.new
  dsimp only
  split <;> rfl

theorem stored_new : (World.new config).stored = [] := by
  unfold World.new
  dsimp only
  split <;> rfl

theorem entryAt_new (m : MindId) (id : FrameId) : (World.new config).entryAt m id = none := by
  unfold World.new
  dsimp only
  split
  · rfl
  · obtain ⟨_ | i⟩ := m <;> rfl

theorem typed_new : (World.new config).Typed := by
  refine ⟨fun r o ho ↦ ?_, fun c d value hd _ ↦ ?_, fun c hc ↦ ?_⟩
  · rw [Heap.object?, heap_new] at ho
    obtain rfl : o = { classId := Core.none, payload := .plain, count := 2 } := by
      obtain ⟨_ | i⟩ := r
      · exact (Option.some.inj ho).symm
      · cases ho
    have hlt : Core.none.index < CoreClass.registry.size := by
      rw [CoreClass.size_registry]
      decide
    refine ⟨classes_new config ▸ hlt, ?_, fun s hs ↦ by cases hs⟩
    rw [classes_new, CoreClass.layout_registry hlt]
    exact .nil
  · rw [classes_new, CoreClass.classDataOf_registry] at hd
    cases hd
  · have hlt : c.index < CoreClass.registry.size := by
      rw [CoreClass.size_registry]
      exact Nat.lt_succ_of_le hc
    rw [classes_new]
    exact ⟨hlt, CoreClass.layout_registry hlt⟩

/-- The nil instance is referred to by the interpreter and by its outermost context. -/
theorem covers_new : (World.new config).heap.Covers (World.new config).roots := by
  have hroots : (World.new config).roots = [.scope ⟨0⟩, .object .nil, .object .nil] := by
    have hdata : CoreClass.registry.classDataValues = [] := by
      rw [Registry.classDataValues_eq]
      exact List.flatMap_eq_nil_iff.mpr fun i _ ↦ by rw [CoreClass.classDataOf_registry]; rfl
    rw [roots, context_new, stored_new, classes_new, hdata]
    rfl
  rw [hroots, heap_new]
  have hnested : Heap.Nested { objects := #[{ classId := Core.none, payload := .plain, count := 2 }], scopes := #[{}] } := by
    rintro ⟨_ | i⟩ scope parent hs hparent
    · cases hs
      cases hparent
    · cases hs
  refine ⟨fun l ↦ ?_, hnested⟩
  have hheld : Heap.held { objects := #[{ classId := Core.none, payload := .plain, count := 2 }], scopes := #[{}] } = [] :=
    rfl
  rw [hheld, List.count_nil, Nat.zero_add]
  rcases l with ⟨_ | i⟩ | ⟨_ | i⟩ | c
  · exact Nat.le_refl 2
  · exact Nat.zero_le _
  · exact Nat.le_refl 1
  · exact Nat.zero_le _
  · exact Nat.zero_le _

theorem sane_new :
    Sane ⟨[], .nil, (World.new config).classes.size, (World.new config).minds.size, []⟩ [] (.new config) where
  books := by
    have hnone : ∀ fr, ¬ (World.new config).Stores fr := by
      rintro fr ⟨m, id, e, he, -⟩
      rw [entryAt_new] at he
      cases he
    refine ⟨valid_new config, Attained.listed_new config, fun m mind hm f e x et he ↦ ?_, fun fr hfr ↦ absurd hfr (hnone fr),
      ?_⟩
    · have hentry : (World.new config).entryAt m f = some e := Option.bind_eq_some_iff.mpr ⟨mind, hm, he⟩
      rw [entryAt_new] at hentry
      cases hentry
    · rintro e ⟨o, c, hc, -⟩
      rw [cell?, Heap.outcome?, heap_new] at hc
      cases hc
  this := by rw [context_new]
  rooted := by
    rw [context_new]
    exact List.cons_ne_nil _ _
  classes := rfl
  minds := Nat.le_refl _
  covered := (covers_new config).mono fun _ ↦ by simp
  unmarked _ hr := by cases hr
  typed := typed_new config
  queued := by
    rw [heap_new]
    exact ⟨List.nodup_nil, fun r hr ↦ by cases hr⟩
  members m hm := by
    rw [classes_new] at hm
    exact CoreClass.body_of_offers (fun _ _ ↦ trivial) (fun _ _ ↦ trivial) hm

end World

/-! ### Reached worlds -/

/-- What the maker of the next call owns is in its hand. -/
theorem Reached.sane {owned : List Link} {w : World} (h : Reached owned w) : ∃ σ, Sane σ owned w := by
  induction h with
  | start config => exact ⟨_, World.sane_new config⟩
  | returns n _ hcall hrun ih =>
    obtain ⟨σ, h⟩ := ih
    obtain ⟨k, hyields⟩ := hcall.yields (Engine.careful_ofBudget n) h
    rw [Yields, hrun] at hyields
    exact ⟨_, hyields⟩
  | fails n _ hcall hrun ih =>
    obtain ⟨σ, h⟩ := ih
    obtain ⟨k, hyields⟩ := hcall.yields (Engine.careful_ofBudget n) h
    rw [Yields, hrun] at hyields
    exact ⟨_, hyields⟩
  | midway stop n _ hcall hrun ih =>
    obtain ⟨σ, h⟩ := ih
    obtain ⟨k, hyields⟩ := hcall.yields (Engine.careful_pausing stop n) h
    rw [Yields, hrun] at hyields
    exact hyields
  | safePoint n _ hbody hrun ih =>
    obtain ⟨σ, h⟩ := ih
    have hgives := hbody.gives (Engine.careful_ofBudget n) h
    rw [Gives, Yields, hrun] at hgives
    exact ⟨σ, hgives⟩
  | @pumped _ _ _ _ n m elapsed _ _ hrun ih =>
    obtain ⟨σ, h⟩ := ih
    have hgives := Gives.pump (Engine.careful_ofBudget n) h m elapsed
    rw [Gives, Yields, hrun] at hgives
    exact ⟨σ, hgives⟩
  | forget _ hle ih =>
    obtain ⟨σ, h⟩ := ih
    exact ⟨σ, h.mono hle⟩

/-- What holds of new interpreters, and is kept by all actions of a kind that calls of engines and hosts are of, holds of
every reached world. -/
theorem Reached.keeps {P : World → Prop} {J : ∀ {α : Type}, Setting → Machine α → Prop} (hJ : Hosting J)
    (hserves : ∀ stop n, (Engine.pausing stop n).Serves J) (hnew : ∀ config, P (.new config))
    (hkeeps : ∀ {τ : Setting} {α : Type} {f : Machine α} {s : List FrameKey} {w : World}, J τ f →
      Moment.Valid ⟨s, w⟩ → s.head? = τ.current → τ.minds ≤ w.minds.size → P w → P (f w).2)
    {owned : List Link} {w : World} (h : Reached owned w) : P w := by
  have hofBudget := fun n ↦ Engine.pausing_never n ▸ hserves (fun _ ↦ false) n
  have hnext : ∀ {owned w w'} {α : Type} {f : Machine α} {r} (pumping : Option MindId), Reached owned w →
      (∀ current, J ⟨current, 0, true, pumping⟩ f) → f w = (r, w') → P w → P w' := by
    intro owned w w' α f r pumping hw hf hrun hP
    obtain ⟨σ, hsane⟩ := hw.sane
    have hthere := hkeeps (hf σ.stack.head?) hsane.books.valid rfl (Nat.zero_le _) hP
    rwa [hrun] at hthere
  induction h with
  | start config => exact hnew config
  | returns n hw hcall hrun ih => exact hnext none hw (fun _ ↦ hcall.host.served hJ (hofBudget n) _) hrun ih
  | fails n hw hcall hrun ih => exact hnext none hw (fun _ ↦ hcall.host.served hJ (hofBudget n) _) hrun ih
  | midway stop n hw hcall hrun ih => exact hnext none hw (fun _ ↦ hcall.host.served hJ (hserves stop n) _) hrun ih
  | safePoint n hw hbody hrun ih =>
    exact hnext none hw (fun _ ↦ hbody.alike.served hJ.toComposite (hofBudget n)) hrun ih
  | @pumped _ _ _ _ n m elapsed hw _ hrun ih =>
    exact hnext (some m) hw (fun _ ↦ (alike_pump rfl elapsed).served hJ.toComposite (hofBudget n)) hrun ih
  | forget _ _ ih => exact ih

/-- A relation that the calls of engines and hosts keep, and that goes on from one to the next, leads from a new
interpreter to every reached world. -/
theorem Reached.along {R : World → World → Prop} (hR : World.Lasting R) (hJ : Hospitable (Along R)) {owned : List Link}
    {w : World} (h : Reached owned w) : ∃ config, R (.new config) w := by
  refine h.keeps (P := fun w ↦ ∃ config, R (.new config) w) hJ.toHosting
    (fun stop n ↦ (Engine.satisfies_pausing hJ.toCompositional stop n).serves hJ.toComposite)
    (fun config ↦ ⟨config, hR.refl _⟩) fun hf hvalid hhead hminds hpast ↦ ?_
  obtain ⟨config, hpast⟩ := hpast
  exact ⟨config, hR.trans hpast (hf.along _ _ hvalid hhead hminds)⟩

end MindScript
