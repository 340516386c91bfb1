import MindScript.Proofs.Custody.Hosts
import MindScript.Proofs.Scheduler.Tolls
import MindScript.Proofs.Wakeups.Heedful

/-!
# Notes that are taken

Nobody but a host, or a native member, takes the failures that a Mind has noted, and it does so by a call of its own.  So
the history of an interpreter is one of calls: in some of them frames fail, and in others the notes are taken, which nothing
else is done in.  What is owed to a host are the frames that have failed since it last called for the notes.
-/

namespace MindScript

open Machine

/-! ### Failures on the way -/

/-- A frame that has not finished in the end is still there, under the same handle. -/
theorem Run.stored {M N : Moment} (h : Run M N) (hvalid : M.Valid) {m : MindId} {id : FrameId} {e : FrameEntry}
    (he : M.world.entryAt m id = some e) (hu : N.world.isFinished e.handle = false) :
    ∃ e', N.world.entryAt m id = some e' ∧ e'.handle = e.handle := by
  induction h with
  | refl => exact ⟨e, he, rfl⟩
  | @tail N N' hrun hact ih =>
    have hN := hvalid.run hrun
    cases hbefore : N.world.isFinished e.handle with
    | true => exact absurd (hu.symm.trans (hN.isFinished_of_run (.single hact) hbefore)) Bool.false_ne_true
    | false =>
      obtain ⟨e', he', hhandle⟩ := ih hbefore
      obtain ⟨e'', he'', hhandle'⟩ := hact.stored hN he' (by rwa [hhandle])
      exact ⟨e'', he'', hhandle'.trans hhandle⟩

/-- The frames of a Mind that fail on the way to a moment, in the order in which they do; nobody takes notes on that way. -/
inductive Strikes (m : MindId) (M : Moment) : List Handle → Moment → Prop where
  | refl : Strikes m M [] M
  | act {l xs : List Handle} {N N' : Moment} : Strikes m M l N → Untaken N N' → xs.Nodup →
      (∀ x, x ∈ xs ↔ World.Fails m x N.world N'.world) → Strikes m M (l ++ xs) N'

variable {m : MindId} {M N : Moment} {l xs : List Handle} {x : Handle}

theorem Untaken.occurs_of_way (h : Relation.ReflTransGen Untaken M N) : Relation.ReflTransGen Occurs M N :=
  Relation.ReflTransGen.mono (fun _ _ ↦ Untaken.occurs) _ _ h

namespace Strikes

theorem way (h : Strikes m M xs N) : Relation.ReflTransGen Untaken M N := by
  induction h with
  | refl => exact .refl
  | act _ hact _ _ ih => exact ih.tail hact

theorem run (h : Strikes m M xs N) : Run M N := Traced.run tracing_untaken h.way

theorem exists_of_way (hvalid : M.Valid) (h : Relation.ReflTransGen Untaken M N) : ∃ xs, Strikes m M xs N := by
  induction h with
  | refl => exact ⟨[], .refl⟩
  | tail hway hact ih =>
    obtain ⟨l, hl⟩ := ih
    obtain ⟨xs, hnodup, hxs⟩ := hact.exists_fails (hvalid.run hl.run) m
    exact ⟨l ++ xs, hl.act hact hnodup hxs⟩

theorem toll (h : Strikes m M xs N) (htoll : Toll m l M) : Toll m (l ++ xs) N := by
  induction h with
  | refl => rwa [List.append_nil]
  | act _ hact hnodup hxs ih =>
    rw [← List.append_assoc]
    exact ih.act hact.act hact.silent hnodup hxs

/-- None of them had failed before, and all of them have in the end. -/
theorem failed (h : Strikes m M xs N) (hvalid : M.Valid) (hx : x ∈ xs) :
    M.world.status x ≠ .failed ∧ N.world.status x = .failed := by
  induction h with
  | refl => cases hx
  | @act l xs N N' hstrikes hact _ hxs ih =>
    have hN := hvalid.run hstrikes.run
    rcases List.mem_append.mp hx with hx | hx
    · obtain ⟨hbefore, hfailed⟩ := ih hx
      have hfin : N.world.isFinished x = true := by
        rw [World.isFinished, hfailed]
        rfl
      exact ⟨hbefore, (hN.status_of_run (.single hact.act) hfin).trans hfailed⟩
    · have hfails := (hxs x).mp hx
      refine ⟨fun hbefore ↦ Bool.false_ne_true (hfails.unfinished.symm.trans ?_), hfails.failed⟩
      refine hvalid.isFinished_of_run hstrikes.run ?_
      rw [World.isFinished, hbefore]
      rfl

/-- Whoever was stored in the beginning and has failed in the end is one of them. -/
theorem mem_of_fails (h : Strikes m M xs N) (hvalid : M.Valid) (hx : World.Fails m x M.world N.world) : x ∈ xs := by
  induction h with
  | refl =>
    have hunfinished := hx.unfinished
    rw [World.isFinished, hx.failed] at hunfinished
    cases hunfinished
  | @act l xs N N' hstrikes hact _ hxs ih =>
    have hN := hvalid.run hstrikes.run
    cases hu : N.world.isFinished x with
    | true =>
      have hfailed := (hN.status_of_run (.single hact.act) hu).symm.trans hx.failed
      exact List.mem_append_left _ (ih ⟨hx.stored, hx.unfinished, hfailed⟩)
    | false =>
      obtain ⟨e, he, rfl⟩ := hx.stored
      exact List.mem_append_right _ ((hxs _).mpr ⟨hstrikes.run.stored hvalid he hu, hu, hx.failed⟩)

end Strikes

/-! ### Calls that take no notes -/

/-- The call by which a host takes the failures that a Mind has noted, with what the host owns after it. -/
inductive TakesFailures (owned : List Link) (m : MindId) : {α : Type} → Machine α → (α → List Link) → Prop where
  | mk : TakesFailures owned m (modifyGet fun w ↦ w.takeFailures m) fun _ ↦ owned

/-- The other calls have what an engine serves and a host keeps. -/
theorem FairCall.served_or_takes {J : ∀ {α : Type}, Setting → Machine α → Prop} (hJ : Calling J) {E : Engine}
    (hE : E.Serves J) {w : World} {owned : List Link} {α : Type} {f : Machine α} {gains : α → List Link}
    (h : FairCall E w owned f gains) : (∀ σ, J σ f) ∨ ∃ m, TakesFailures owned m f gains := by
  have hb : E.budget ≤ E.budget := Nat.le_refl _
  have hcomp := hJ.toComposite
  have halike : ∀ {β : Type} {g : Machine β}, (∀ σ, Alike E E σ g g) → ∀ σ, J σ g := fun hg σ ↦ (hg σ).served hcomp hE
  cases h with
  | takeFailures m => exact .inr ⟨m, .mk⟩
  | body hbody => exact .inl (halike fun _ ↦ hbody.alike.bind fun result ↦ .finishHostCall hb result)
  | update m elapsed => exact .inl (halike fun _ ↦ .update hb m elapsed)
  | runDestructors => exact .inl (halike fun _ ↦ .runDestructors hb)
  | notify m event _ => exact .inl (halike fun _ ↦ .basic (.notify m event _))
  | stop x => exact .inl (halike fun _ ↦ .basic (.stop x))
  | stopAll m => exact .inl (halike fun _ ↦ .basic (.stopAll m))
  | stopAllFor r => exact .inl (halike fun _ ↦ .basic (.stopAllFor r))
  | setSuspended m suspended => exact .inl (halike fun _ ↦ .basic (.setSuspended m suspended))
  | setUpdateInterval x seconds => exact .inl (halike fun _ ↦ .basic (.setUpdateInterval x seconds))
  | createMind name => exact .inl (halike fun _ ↦ .basic (.createMind name))
  | literal v => exact .inl (halike fun _ ↦ .literal v)
  | retain _ => exact .inl (halike fun _ ↦ .basic (.retainLink _))
  | release ls => exact .inl (halike fun _ ↦ .releaseLinks ls)
  | takeHistory m => exact .inl fun _ ↦ hJ.takeHistory m
  | registerClass _ => exact .inl fun _ ↦ hJ.registerClass _
  | defineMember c _ => exact .inl fun _ ↦ hJ.onClasses _ (.define c _)
  | teardown => exact .inl fun _ ↦ hJ.teardown hE

/-- A call of a host or native member in which it takes no notes, as far as the call comes: what is owned and the world,
before and after it.  Links may be lost between calls. -/
inductive Reached.Step (owned : List Link) (w : World) : List Link → World → Prop where
  | returns {w' : World} {α : Type} {f : Machine α} {gains : α → List Link} {a : α} (n : ℕ) :
      FairCall (.ofBudget n) w owned f gains → (¬ ∃ m, TakesFailures owned m f gains) → f w = (.ok a, w') →
      Step owned w (gains a) w'
  | fails {w' : World} {α : Type} {f : Machine α} {gains : α → List Link} {e : EvalError} (n : ℕ) :
      FairCall (.ofBudget n) w owned f gains → (¬ ∃ m, TakesFailures owned m f gains) →
      f w = (.error (.raised e), w') → Step owned w (e.links ++ owned) w'
  | midway {w' : World} {α : Type} {f : Machine α} {gains : α → List Link} (stop : World → Bool) (n : ℕ) :
      FairCall (.pausing stop n) w owned f gains → (¬ ∃ m, TakesFailures owned m f gains) →
      f w = (.error .exhausted, w') → Step owned w owned w'
  | safePoint {w' : World} {α : Type} {body : Machine (Except EvalError α)} {brings : α → List Link}
      {result : Except EvalError α} (n : ℕ) : FairBody (.ofBudget n) w owned body brings → body w = (.ok result, w') →
      Step owned w (broughtBy brings result ++ owned) w'
  | pumped {w' : World} {resumed : ℕ} (n : ℕ) {m : MindId} (elapsed : Float) : w.Idle m →
      pump (.ofBudget n) m elapsed w = (.ok resumed, w') → Step owned w owned w'
  | forget {owned' : List Link} : Within owned' owned → Step owned w owned' w

variable {owned owned' : List Link} {w w' : World}

theorem Reached.step (h : Reached owned w) (hstep : Step owned w owned' w') : Reached owned' w' := by
  cases hstep with
  | returns n hcall _ hrun => exact h.returns n hcall hrun
  | fails n hcall _ hrun => exact h.fails n hcall hrun
  | midway stop n hcall _ hrun => exact h.midway stop n hcall hrun
  | safePoint n hbody hrun => exact h.safePoint n hbody hrun
  | pumped n elapsed hidle hrun => exact h.pumped n elapsed hidle hrun
  | forget hwithin => exact h.forget hwithin

/-- Such a call is a sequence of acts in which nobody takes notes. -/
theorem Reached.Step.way (h : Step owned M.world owned' w') (hvalid : M.Valid) :
    ∃ s, Relation.ReflTransGen Untaken M ⟨s, w'⟩ := by
  have hcomp := Traced.compositional tracing_untaken
  have hpausing : ∀ stop n, (Engine.pausing stop n).Serves (Traced Untaken) := fun stop n ↦
    (Engine.satisfies_pausing hcomp stop n).serves hcomp.toComposite
  have hofBudget : ∀ n, (Engine.ofBudget n).Serves (Traced Untaken) := fun n ↦
    Engine.pausing_never n ▸ hpausing (fun _ ↦ false) n
  have hleads : ∀ {α : Type} {f : Machine α} {r} (pumping : Option MindId),
      Traced Untaken ⟨M.stack.head?, 0, true, pumping⟩ f → f M.world = (r, w') →
      ∃ s, Relation.ReflTransGen Untaken M ⟨s, w'⟩ := by
    intro α f r pumping hf hrun
    obtain ⟨s, hway, -⟩ := hf M.stack M.world hvalid rfl (Nat.zero_le _)
    rw [hrun] at hway
    exact ⟨s, hway⟩
  have hcalls : ∀ {E : Engine} {α : Type} {f : Machine α} {gains : α → List Link} {r}, E.Serves (Traced Untaken) →
      FairCall E M.world owned f gains → (¬ ∃ m, TakesFailures owned m f gains) → f M.world = (r, w') →
      ∃ s, Relation.ReflTransGen Untaken M ⟨s, w'⟩ := by
    intro E α f gains r hE hcall hnone hrun
    exact hleads none ((hcall.served_or_takes Traced.calling_untaken hE).resolve_right hnone _) hrun
  cases h with
  | returns n hcall hnone hrun => exact hcalls (hofBudget n) hcall hnone hrun
  | fails n hcall hnone hrun => exact hcalls (hofBudget n) hcall hnone hrun
  | midway stop n hcall hnone hrun => exact hcalls (hpausing stop n) hcall hnone hrun
  | safePoint n hbody hrun => exact hleads none (hbody.alike.served hcomp.toComposite (hofBudget n)) hrun
  | @pumped _ _ n m elapsed _ hrun =>
    exact hleads (some m) ((alike_pump rfl elapsed).served hcomp.toComposite (hofBudget n)) hrun
  | forget _ => exact ⟨M.stack, .refl⟩

/-! ### What is owed -/

/-- The frames of a Mind that have failed since its notes were last called for, in the order in which they did: in the
history of calls that has led to a moment, each call adds those that fail in it, and the one for the notes clears them. -/
inductive Owing (m : MindId) : List Handle → List Link → Moment → Prop where
  | start (config : Config) : Owing m [] [] ⟨[], .new config⟩
  | step {l xs : List Handle} {owned owned' : List Link} {M N : Moment} : Owing m l owned M →
      Reached.Step owned M.world owned' N.world → Strikes m M xs N → Owing m (l ++ xs) owned' N
  | take {l : List Handle} {owned : List Link} {s : List FrameKey} {w : World} (m' : MindId) : Owing m l owned ⟨s, w⟩ →
      Owing m (if m' = m then [] else l) owned ⟨s, (w.takeFailures m').2⟩

namespace Owing

theorem toll (h : Owing m l owned M) : Toll m l M := by
  induction h with
  | start config => exact .start config
  | step _ _ hstrikes ih => exact hstrikes.toll ih
  | take m' _ ih => exact ih.take m'

theorem reached (h : Owing m l owned M) : Reached owned M.world := by
  induction h with
  | start config => exact .start config
  | step _ hstep _ ih => exact ih.step hstep
  | take m' _ ih => exact ih.returns 0 (.takeFailures m') (modifyGet_apply ..)

theorem occurs (h : Owing m l owned M) : ∃ config, Relation.ReflTransGen Occurs ⟨[], .new config⟩ M := by
  induction h with
  | start config => exact ⟨config, .refl⟩
  | step _ _ hstrikes ih =>
    obtain ⟨config, hpast⟩ := ih
    exact ⟨config, hpast.trans (Untaken.occurs_of_way hstrikes.way)⟩
  | take m' _ ih =>
    obtain ⟨config, hpast⟩ := ih
    exact ⟨config, hpast.tail (.take m')⟩

/-- Whichever call comes next, it adds those that fail in it. -/
theorem exists_step (h : Owing m l owned M) (hstep : Reached.Step owned M.world owned' w') :
    ∃ xs s, Owing m (l ++ xs) owned' ⟨s, w'⟩ ∧ (∀ x, World.Fails m x M.world w' → x ∈ xs) ∧
      ∀ x ∈ xs, M.world.status x ≠ .failed ∧ w'.status x = .failed := by
  have hvalid := h.toll.valid
  obtain ⟨s, hway⟩ := hstep.way hvalid
  obtain ⟨xs, hstrikes⟩ := Strikes.exists_of_way (m := m) hvalid hway
  exact ⟨xs, s, h.step hstep hstrikes, fun x ↦ hstrikes.mem_of_fails hvalid, fun x ↦ hstrikes.failed hvalid⟩

end Owing

/-- In every reached world it can be told what is owed. -/
theorem Reached.owing (h : Reached owned w) (m : MindId) : ∃ l s, Owing m l owned ⟨s, w⟩ := by
  have hnext : ∀ {l owned owned' s w w'}, Owing m l owned ⟨s, w⟩ → Step owned w owned' w' →
      ∃ l s, Owing m l owned' ⟨s, w'⟩ := by
    intro l owned owned' s w w' hl hstep
    obtain ⟨xs, s', hxs, -⟩ := hl.exists_step hstep
    exact ⟨l ++ xs, s', hxs⟩
  induction h with
  | start config => exact ⟨[], [], .start config⟩
  | @returns owned w w' α f gains a n _ hcall hrun ih =>
    obtain ⟨l, s, hl⟩ := ih
    by_cases htakes : ∃ m', TakesFailures owned m' f gains
    · obtain ⟨m', ⟨⟩⟩ := htakes
      cases hrun
      exact ⟨_, s, hl.take m'⟩
    · exact hnext hl (.returns n hcall htakes hrun)
  | @fails owned w w' α f gains e n _ hcall hrun ih =>
    obtain ⟨l, s, hl⟩ := ih
    by_cases htakes : ∃ m', TakesFailures owned m' f gains
    · obtain ⟨m', ⟨⟩⟩ := htakes
      cases hrun
    · exact hnext hl (.fails n hcall htakes hrun)
  | @midway owned w w' α f gains stop n _ hcall hrun ih =>
    obtain ⟨l, s, hl⟩ := ih
    by_cases htakes : ∃ m', TakesFailures owned m' f gains
    · obtain ⟨m', ⟨⟩⟩ := htakes
      cases hrun
    · exact hnext hl (.midway stop n hcall htakes hrun)
  | safePoint n _ hbody hrun ih =>
    obtain ⟨l, s, hl⟩ := ih
    exact hnext hl (.safePoint n hbody hrun)
  | pumped n elapsed _ hidle hrun ih =>
    obtain ⟨l, s, hl⟩ := ih
    exact hnext hl (.pumped n elapsed hidle hrun)
  | forget _ hwithin ih =>
    obtain ⟨l, s, hl⟩ := ih
    exact hnext hl (.forget hwithin)

end MindScript
