import MindScript.Proofs.Calls.Exits

/-!
# Decent host members and frames

What a host supplies can do no harm as long as it makes nothing up: it names only classes that the interpreter told
it of, and ends with no loop exit of its own.  A stored frame that runs on has a scope to run in.  The functions of
the scheduler store no frame other than the ones they are given.
-/

namespace MindScript

/-! ### Host members -/

/-- The request names only known classes. -/
def Request.Uses (known : ClassId → Prop) : Request → Prop
  | .newInstance c _ => known c
  | _ => True

/-- The reply to a request tells of a class. -/
def Request.Teaches : (op : Request) → op.Reply → ClassId → Prop
  | .classNamed _, reply, c => reply = some c
  | _, _, _ => False

/-- A program that names only classes that it knows or is told of, and that does not end with a loop exit unless it
was given one. -/
def Program.Decent {α : Type} : Program α → (ClassId → Prop) → Prop
  | .done result, _ => Contained result
  | .request op next, known => op.Uses known ∧
    ∀ reply, op.Allows reply → (next reply).Decent fun c ↦ known c ∨ op.Teaches reply c

def NativeCoroutine.Decent (known : ClassId → Prop) : NativeCoroutine → Prop
  | .core _ => True
  | .host poll => ∀ info, (poll info).Decent known

def MemberBody.Decent (known : ClassId → Prop) : MemberBody → Prop
  | .method _ (.host program) => program.Decent known
  | .coroutine _ code => code.Decent known
  | _ => True

variable {known known' : ClassId → Prop}

theorem Program.Decent.mono {α : Type} {program : Program α} (h : program.Decent known)
    (hle : ∀ c, known c → known' c) : program.Decent known' := by
  induction program generalizing known known' with
  | done result => exact h
  | request op next ih =>
    refine ⟨?_, fun reply hreply ↦ ih reply (h.2 reply hreply) fun c ↦ Or.imp_left (hle c)⟩
    have huses := h.1
    cases op <;> first | trivial | exact hle _ huses

theorem NativeCoroutine.Decent.mono {code : NativeCoroutine} (h : code.Decent known)
    (hle : ∀ c, known c → known' c) : code.Decent known' := by
  cases code with
  | core _ => trivial
  | host poll => exact fun info ↦ (h info).mono hle

theorem MemberBody.Decent.mono {body : MemberBody} (h : body.Decent known) (hle : ∀ c, known c → known' c) :
    body.Decent known' := by
  cases body with
  | script arena params body => trivial
  | method params code =>
    cases code with
    | core _ => trivial
    | host program => exact Program.Decent.mono h hle
  | coroutine params code => exact NativeCoroutine.Decent.mono h hle

theorem Program.Decent.polite {α : Type} {program : Program α} (h : program.Decent known) : program.Polite := by
  induction program generalizing known with
  | done result => exact h
  | request op next ih => exact fun reply hreply ↦ ih reply (h.2 reply hreply)

theorem MemberBody.Decent.polite {body : MemberBody} (h : body.Decent known) : body.Polite := by
  cases body with
  | script arena params body => trivial
  | method params code =>
    cases code with
    | core _ => trivial
    | host program => exact Program.Decent.polite h
  | coroutine params code => trivial

/-! ### Frames -/

/-- A context with a scope to run in. -/
def Context.Rooted (c : Context) : Prop := c.env.scopes.items ≠ []

def FrameBody.Decent (known : ClassId → Prop) : FrameBody → Prop
  | .native code _ _ => code.Decent known
  | _ => True

structure Frame.Decent (known : ClassId → Prop) (f : Frame) : Prop where
  rooted : f.context.Rooted
  body : f.body.Decent known

theorem FrameBody.Decent.mono {body : FrameBody} (h : body.Decent known) (hle : ∀ c, known c → known' c) :
    body.Decent known' := by
  cases body with
  | native code args state => exact NativeCoroutine.Decent.mono h hle
  | _ => trivial

theorem Frame.Decent.mono {f : Frame} (h : f.Decent known) (hle : ∀ c, known c → known' c) : f.Decent known' :=
  ⟨h.rooted, h.body.mono hle⟩

/-! ### Frames that are stored -/

def Mind.Stores (mind : Mind) (f : Frame) : Prop := ∃ id e, mind.entryAt id = some e ∧ e.frame = some f

namespace World

def Stores (w : World) (f : Frame) : Prop := ∃ m id e, w.entryAt m id = some e ∧ e.frame = some f

/-- Every frame stored in the second world was stored in the first. -/
def NoNewFrames (w w' : World) : Prop := ∀ f, w'.Stores f → w.Stores f

variable {w w' w'' : World}

theorem stores_of_mind {m : MindId} {mind : Mind} {f : Frame} (hm : w.mind? m = some mind) (h : mind.Stores f) :
    w.Stores f := by
  obtain ⟨id, e, he, hf⟩ := h
  exact ⟨m, id, e, Option.bind_eq_some_iff.mpr ⟨mind, hm, he⟩, hf⟩

namespace NoNewFrames

theorem refl (w : World) : NoNewFrames w w := fun _ h ↦ h

theorem trans (h : NoNewFrames w w') (h' : NoNewFrames w' w'') : NoNewFrames w w'' := fun f hf ↦ h f (h' f hf)

theorem of_minds (h : w'.minds = w.minds) : NoNewFrames w w' := by
  rintro f ⟨m, id, e, he, hf⟩
  exact ⟨m, id, e, by rwa [entryAt, mind?, h] at he, hf⟩

theorem modifyMind (w : World) (m : MindId) {f : Mind → Mind}
    (hf : ∀ (mind : Mind) fr, (f mind).Stores fr → mind.Stores fr) : NoNewFrames w (w.modifyMind m f) := by
  rintro fr ⟨m', id, e, he, hfr⟩
  rw [entryAt_modifyMind] at he
  split at he
  · obtain ⟨mind, hmind, he⟩ := Option.bind_eq_some_iff.mp he
    exact stores_of_mind hmind (hf mind fr ⟨id, e, he, hfr⟩)
  · exact ⟨m', id, e, he, hfr⟩

end NoNewFrames

end World

namespace Mind

variable {mind : Mind} {fr : Frame}

theorem stores_congr {mind' : Mind} (h : mind'.slots = mind.slots) : mind'.Stores fr → mind.Stores fr := by
  rintro ⟨id, e, he, hfr⟩
  exact ⟨id, e, by rwa [entryAt_congr h] at he, hfr⟩

theorem stores_modifyEntry {id : FrameId} {f : FrameEntry → FrameEntry} (h : (mind.modifyEntry id f).Stores fr)
    (hf : ∀ e, (f e).frame = some fr → e.frame = some fr) : mind.Stores fr := by
  obtain ⟨k, e', he', hfr⟩ := h
  rw [entryAt_modifyEntry] at he'
  split at he'
  · obtain ⟨e, he, rfl⟩ := Option.map_eq_some_iff.mp he'
    exact ⟨id, e, he, hf e hfr⟩
  · exact ⟨k, e', he', hfr⟩

theorem stores_remove {id : FrameId} : (mind.remove id).2.Stores fr → mind.Stores fr := by
  rintro ⟨k, e, he, hfr⟩
  rw [entryAt_remove] at he
  split at he
  · cases he
  · exact ⟨k, e, he, hfr⟩

theorem stores_insert (h : mind.Tidy) {e : FrameEntry} :
    (mind.insert e).2.Stores fr → e.frame = some fr ∨ mind.Stores fr := by
  rintro ⟨k, e', he, hfr⟩
  rw [entryAt_insert h] at he
  split at he
  · obtain rfl := Option.some.inj he
    exact .inl hfr
  · exact .inr ⟨k, e', he, hfr⟩

theorem stores_enroll (h : mind.Tidy) {e : FrameEntry} (hfr : (mind.enroll e).Stores fr) :
    e.frame = some fr ∨ mind.Stores fr := by
  have hadopt : ((mind.insert e).2.adopt e.parent e.handle.frame).Stores fr := stores_congr (slots_record ..) hfr
  unfold adopt at hadopt
  split at hadopt
  · exact stores_insert h (stores_modifyEntry hadopt fun _ h ↦ h)
  · exact stores_insert h hadopt

theorem stores_leaveParent {parent id : FrameId} : (World.leaveParent mind parent id).Stores fr → mind.Stores fr := by
  unfold World.leaveParent
  split
  · exact fun h ↦ h
  · dsimp only
    have herase : (mind.modifyEntry parent fun e ↦ e.without id).Stores fr → mind.Stores fr :=
      fun h ↦ stores_modifyEntry h fun _ h ↦ h
    split
    · exact fun h ↦ herase (stores_congr (slots_wake ..) h)
    · exact herase

theorem stores_settleEntry {id : FrameId} {entry : FrameEntry} {status : FrameStatus} {failure : Option FrameFailure} :
    (World.settleEntry mind id entry status failure).Stores fr → mind.Stores fr := by
  have hsettled : ((mind.modifyEntry id FrameEntry.settled).record id entry.handle.name status).Stores fr →
      mind.Stores fr := fun h ↦ stores_modifyEntry (stores_congr (slots_record ..) h) fun e hfr ↦ by cases hfr
  rw [World.settleEntry_eq]
  have hlast : ∀ a : Mind, (failure.elim a.noteFinished a.noteFinished.recordFailure).Stores fr → a.Stores fr := by
    intro a
    cases failure <;> exact stores_congr rfl
  intro h
  unfold World.parted at h
  cases hp : entry.parent with
  | none =>
    rw [hp] at h
    exact hsettled (stores_congr (slots_wake ..) (hlast _ h))
  | some parent =>
    rw [hp] at h
    exact hsettled (stores_leaveParent (stores_congr (slots_wake ..) (hlast _ h)))

end Mind

namespace World

variable (w : World) (m : MindId)

theorem noNewFrames_modifyEntry (id : FrameId) {f : FrameEntry → FrameEntry}
    (hf : ∀ e fr, (f e).frame = some fr → e.frame = some fr) : NoNewFrames w (w.modifyEntry m id f) :=
  .modifyMind w m fun _ fr h ↦ Mind.stores_modifyEntry h fun e ↦ hf e fr

theorem noNewFrames_settle (id : FrameId) (ending : Ending) : NoNewFrames w (w.settle m id ending) := by
  unfold settle
  split
  · exact .of_minds rfl
  · split
    · exact .of_minds rfl
    · next entry _ _ =>
      have hmind := NoNewFrames.modifyMind w m (f := fun mind ↦ settleEntry mind id entry ending.status
        ((ending.error?.map (w.withFrameOrigin entry)).map fun e ↦ ⟨id, w.frameName m id, e⟩))
        fun _ _ ↦ Mind.stores_settleEntry
      exact hmind.trans (.of_minds rfl)

theorem closing_noNewFrames : Closing m NoNewFrames where
  refl := .refl
  trans := .trans
  release _ _ := .of_minds rfl
  clear w id := noNewFrames_modifyEntry w m id fun _ _ h ↦ h
  mark w id := noNewFrames_modifyEntry w m id fun _ _ h ↦ h
  settle w id ending _ := noNewFrames_settle w m id ending

theorem noNewFrames_sleep (id : FrameId) (wake : Wake) : NoNewFrames w (w.sleep m id wake) := by
  unfold sleep
  split
  · exact .of_minds rfl
  · next entry _ =>
    have hstatus : NoNewFrames w (w.setStatus entry.handle .suspended) := .of_minds rfl
    refine hstatus.trans (.modifyMind _ m fun mind fr h ↦ ?_)
    have henlist : (enlist mind m id wake).Stores fr → mind.Stores fr := by
      unfold enlist
      split
      · split
        · exact fun h ↦ Mind.stores_modifyEntry h fun _ h ↦ h
        · exact fun h ↦ h
      · exact fun h ↦ h
    exact henlist (Mind.stores_modifyEntry h fun _ h ↦ h)

/-- A frame that comes back from a step may be stored again. -/
theorem stores_returnFrame (id : FrameId) (frame : Frame) (step : Except EvalError Step) {fr : Frame}
    (h : (w.returnFrame m id frame step).Stores fr) : fr = frame ∨ w.Stores fr := by
  let R : World → World → Prop := fun a b ↦ ∀ fr, b.Stores fr → fr = frame ∨ a.Stores fr
  have hR : Closing m R :=
    { refl := fun _ _ h ↦ .inr h
      trans := fun h h' fr hfr ↦ (h' fr hfr).elim .inl (h fr)
      release := fun w ls fr hfr ↦ .inr ((closing_noNewFrames m).release w ls fr hfr)
      clear := fun w id fr hfr ↦ .inr ((closing_noNewFrames m).clear w id fr hfr)
      mark := fun w id fr hfr ↦ .inr ((closing_noNewFrames m).mark w id fr hfr)
      settle := fun w id ending hending fr hfr ↦ .inr ((closing_noNewFrames m).settle w id ending hending fr hfr) }
  refine hR.returnFrame (fun fr hfr ↦ ?_) (fun wake fr hfr ↦ .inr (noNewFrames_sleep _ m id wake fr hfr)) step fr h
  obtain ⟨m', k, e', he', hframe⟩ := hfr
  rw [entryAt_modifyEntry] at he'
  obtain ⟨e, he, rfl⟩ := Option.map_eq_some_iff.mp he'
  split at hframe
  · exact .inl (Option.some.inj hframe).symm
  · exact .inr ⟨m', k, e, he, hframe⟩

theorem noNewFrames_takeFrame (id : FrameId) (entry : FrameEntry) (frame : Frame) :
    NoNewFrames w (w.takeFrame m id entry frame) :=
  (noNewFrames_modifyEntry w m id fun e fr h ↦ by cases h).trans (.of_minds rfl)

/-- Registering a frame stores that frame. -/
theorem stores_register (htidy : w.Tidy) (name : String) (owner : ClassId) (parent : Option FrameId) (frame : Frame)
    {fr : Frame} (h : (w.register m name owner parent frame).2.Stores fr) :
    (∃ startedAt, fr = { frame with startedAt }) ∨ w.Stores fr := by
  have hopen : ∀ {fr}, (w.openOutcome frame.context.this).2.Stores fr → w.Stores fr :=
    fun h ↦ NoNewFrames.of_minds rfl _ h
  unfold register at h
  dsimp only at h
  split at h
  · exact .inr (hopen h)
  · next mind hmind =>
    obtain ⟨m', id, e, he, hfr⟩ := h
    rw [entryAt_modifyMind] at he
    split at he
    · obtain ⟨mind', hmind', he⟩ := Option.bind_eq_some_iff.mp he
      obtain rfl := Option.some.inj (hmind.symm.trans hmind')
      rcases Mind.stores_enroll (htidy m mind hmind) ⟨id, e, he, hfr⟩ with hnew | hold
      · exact .inl ⟨mind.clock, (Option.some.inj hnew).symm⟩
      · exact .inr (stores_of_mind (show w.mind? m = some mind from hmind) hold)
    · exact .inr (hopen ⟨m', id, e, he, hfr⟩)

theorem noNewFrames_sweep : NoNewFrames w (w.sweep m) := by
  unfold sweep
  split
  · exact .refl w
  · next mind _ =>
    split
    · have hremoved : ∀ (ids : List FrameId) (a : Mind) fr,
          (ids.foldl (fun mind id ↦ (mind.remove id).2) a).Stores fr → a.Stores fr := by
        intro ids
        induction ids with
        | nil => exact fun a fr h ↦ h
        | cons id rest ih => exact fun a fr h ↦ Mind.stores_remove (ih _ fr h)
      rw [List.partition_eq_filter_filter]
      have hmind := NoNewFrames.modifyMind w m
        (f := fun mind' ↦ { (mind.live.toList.filter (w.isSettled mind)).foldl (fun mind id ↦ (mind.remove id).2) mind' with
          live := (mind.live.toList.filter (not ∘ w.isSettled mind)).toArray, unswept := false })
        fun a fr h ↦ hremoved _ a fr (Mind.stores_congr rfl h)
      exact hmind.trans (.of_minds rfl)
    · exact .refl w

theorem noNewFrames_detachChildren (id : FrameId) : NoNewFrames w (w.detachChildren m id) := by
  unfold detachChildren
  split
  · exact .refl w
  · next entry _ =>
    refine .modifyMind w m fun mind fr h ↦ ?_
    have hfold : ∀ (ids : List FrameId) (a : Mind),
        (ids.foldl (fun mind c ↦ mind.modifyEntry c fun e ↦ { e with parent := none }) a).Stores fr → a.Stores fr := by
      intro ids
      induction ids with
      | nil => exact fun a h ↦ h
      | cons id rest ih => exact fun a h ↦ Mind.stores_modifyEntry (ih _ h) fun _ h ↦ h
    rw [← Array.foldl_toList] at h
    exact Mind.stores_modifyEntry (hfold _ _ h) fun _ h ↦ h

theorem noNewFrames_notify (event : String) (payload : Ref) : NoNewFrames w (w.notify m event payload).2 := by
  unfold notify
  split
  · exact .refl w
  · have hdeliver := rel_foldl (R := NoNewFrames)
      (f := fun w id ↦ (w.retain (.object payload)).modifyEntry m id fun e ↦ { e with delivered := some payload })
      .refl .trans (fun w id ↦ by
        have hretain : NoNewFrames w (w.retain (.object payload)) := .of_minds rfl
        exact hretain.trans (noNewFrames_modifyEntry _ m id fun _ _ h ↦ h))
    dsimp only
    split
    · exact (hdeliver _ w).trans (.modifyMind _ m fun _ _ h ↦ Mind.stores_congr (Mind.slots_wake ..) h)
    · exact hdeliver _ w

end World

end MindScript
