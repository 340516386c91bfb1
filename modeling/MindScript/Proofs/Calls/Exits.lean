import MindScript.Proofs.Calls.Calm
import MindScript.Proofs.Calls.Offers
import MindScript.Proofs.Calls.Sealed
import MindScript.Proofs.Scheduler.Reachable

/-!
# Loop exits and calls

A method, a constructor and a method closure let no loop exit out, whether it comes from the body or from the
default of a parameter.  The parameters of a scripted coroutine are bound before its frame is there, and a
loop exit in one of their defaults is not stopped: it goes on to the innermost loop of the caller.

A host member may end with a loop exit of its own making, so the members on offer are taken to be polite: given
replies without loop exits they end without one.
-/

namespace MindScript

/-! ### Polite host members -/

/-- The reply brings no loop exit. -/
def Request.Allows : (op : Request) → op.Reply → Prop
  | .startCoroutine _ _ _ _ _, reply | .invokeMethod _ _ _, reply | .newInstance _ _, reply
  | .evaluate _ _, reply => Contained reply
  | _, _ => True

/-- A program that does not end with a loop exit unless it was given one. -/
def Program.Polite {α : Type} : Program α → Prop
  | .done result => Contained result
  | .request op next => ∀ reply, op.Allows reply → (next reply).Polite

def MemberBody.Polite : MemberBody → Prop
  | .method _ (.host program) => program.Polite
  | _ => True

/-- No member on offer brings a loop exit of its own. -/
def Registry.Polite (r : Registry) : Prop := ∀ m, r.Offers m → m.body.Polite

/-- The core classes have no host members at all. -/
theorem CoreClass.body_of_offers {P : MemberBody → Prop} (hmethod : ∀ params code, P (.method params (.core code)))
    (hcoroutine : ∀ params code, P (.coroutine params (.core code))) {m : Member}
    (hm : CoreClass.registry.Offers m) : P m.body := by
  have hmember (name : String) (params : List String) (code : CoreMethod) :
      P (CoreClass.method name params code).body := hmethod params code
  have hpolled (name : String) (params : List String) (code : CoreCoroutine) :
      P (CoreClass.coroutine name params code).body := hcoroutine params code
  have hcore : ∀ decl ∈ CoreClass.all, ∀ d ∈ decl.members, P d.body := by
    simp [CoreClass.all, CoreClass.derived, CoreClass.objectMembers, CoreClass.noneMembers, CoreClass.booleanMembers,
      CoreClass.numberMembers, CoreClass.integerMembers, CoreClass.realMembers, CoreClass.stringMembers,
      CoreClass.symbolMembers, CoreClass.listMembers, CoreClass.closureMembers, CoreClass.classMembers,
      CoreClass.handleMembers, hmember, hpolled]
  have hall : ∀ (decls : List ClassDecl) (r : Registry), (∀ m, r.Offers m → P m.body) →
      (∀ decl ∈ decls, ∀ d ∈ decl.members, P d.body) →
      ∀ m, (decls.foldl (fun r decl ↦ (Registry.register decl r).2) r).Offers m → P m.body := by
    intro decls
    induction decls with
    | nil => exact fun r hr _ ↦ hr
    | cons decl rest ih =>
      intro r hr hdecls
      rw [List.forall_mem_cons] at hdecls
      refine ih _ (fun m hm ↦ ?_) hdecls.2
      rcases Registry.offers_register hm with hm | ⟨d, hd, hbody⟩
      · exact hr m hm
      · exact hbody ▸ hdecls.1 d hd
  refine hall CoreClass.all {} ?_ hcore m hm
  rintro m (⟨c, hm⟩ | ⟨key, hm⟩)
  · cases hm
  · simp at hm

theorem CoreClass.polite_registry : CoreClass.registry.Polite :=
  fun _ hm ↦ body_of_offers (fun _ _ ↦ trivial) (fun _ _ ↦ trivial) hm

namespace Machine

open World (NoNewMembers)

/-! ### Worlds with polite members -/

/-- A moment in which every member on offer is polite. -/
structure Orderly (s : List FrameKey) (w : World) : Prop where
  valid : Moment.Valid ⟨s, w⟩
  polite : w.classes.Polite

/-- An action that no loop exit leaves as long as members are polite. -/
structure Civil {α : Type} (f : Machine α) : Prop where
  fails : ∀ s w, Orderly s w → ∀ e, (f w).1 = .error (.raised e) → e.isLoopExit = false

theorem Sealed.civil {α : Type} {f : Machine α} (h : Sealed f) : Civil f := ⟨fun _ w _ ↦ h.fails w⟩

theorem Orderly.after {s : List FrameKey} {w w' : World} (h : Orderly s w) {α : Type} {f : Machine α}
    (hf : ∀ σ, Along NoNewMembers σ f) {a : α} (hrun : f w = (.ok a, w')) : Orderly s w' := by
  have hin := hf ⟨s.head?, 0, true, none⟩
  obtain ⟨s', hacts, hs⟩ := hin.tracked s w h.valid rfl (Nat.zero_le _)
  have hnone := hin.along s w h.valid rfl (Nat.zero_le _)
  rw [hrun] at hacts hs hnone
  obtain rfl := hs (by simp)
  exact ⟨h.valid.journey hacts, fun m hm ↦ h.polite m (hnone m hm)⟩

namespace Civil

variable {α β : Type} {f : Machine α}

/-- What the first action hands over can be relied on in what follows. -/
theorem bind {P : α → Prop} {F : α → Machine β} (hf : ∀ σ, Along NoNewMembers σ f) (hfails : Civil f)
    (hpost : ∀ s w a w', Orderly s w → f w = (.ok a, w') → P a) (hF : ∀ a, P a → Civil (F a)) :
    Civil (f >>= F) := by
  refine ⟨fun s w hw e ↦ ?_⟩
  rcases hrun : f w with ⟨i | a, w'⟩
  · rw [bind_of_error hrun]
    intro h
    have hi : i = .raised e := Except.error.inj h
    exact hfails.fails s w hw e (by rw [hrun, hi])
  · rw [bind_of_ok hrun]
    exact (hF a (hpost s w a w' hw hrun)).fails s w' (hw.after hf hrun) e

theorem andThen {F : α → Machine β} (hf : ∀ σ, Along NoNewMembers σ f) (hfails : Civil f)
    (hF : ∀ a, Civil (F a)) : Civil (f >>= F) :=
  bind (P := fun _ ↦ True) hf hfails (fun _ _ _ _ _ _ ↦ trivial) fun a _ ↦ hF a

/-- A failed attempt gives the error of the action. -/
theorem contained_of_attempt (hf : Civil f) {s : List FrameKey} {w w' : World} (hw : Orderly s w)
    {r : Except EvalError α} (hrun : attempt f w = (.ok r, w')) : Contained r := by
  rintro e rfl
  refine hf.fails s w hw e ?_
  rcases hfw : f w with ⟨result, w₁⟩
  match result with
  | .ok a =>
    rw [attempt_of_ok hfw] at hrun
    cases hrun
  | .error (.raised e') =>
    rw [attempt_of_raised hfw] at hrun
    cases hrun
    rfl
  | .error .exhausted =>
    rw [attempt_of_exhausted hfw] at hrun
    cases hrun

end Civil

/-! ### Members -/

/-- An engine that no loop exit leaves where a polite member is invoked. -/
structure Civilized (E : Engine) : Prop where
  along : E.Along NoNewMembers
  resume : ∀ m id, Calm (E.resume m id)
  invoke : ∀ this (m : Member) args, m.body.Polite → Civil (E.invoke this m args)

section

variable {E : Engine} (hE : Civilized E)

include hE

/-- Whatever is built alike adds no members. -/
theorem Civilized.adds {σ : Setting} {α : Type} {f : Machine α} (h : Alike E E σ f f) : Along NoNewMembers σ f :=
  h.along NoNewMembers.lasting hE.along

theorem civil_construct (c : ClassId) (args : ArgValues) : Civil (construct E c args) := by
  refine ⟨fun s w hw ↦ ?_⟩
  rw [construct, get_bind]
  cases hmake : constructCore? c with
  | some make =>
    refine ((Sealed.constructCore? hmake).bind fun value ↦ ?_).fails w
    split
    · exact .pure value
    · exact (Sealed.modify _).bind fun _ ↦ .raiseKind _
  | none =>
    refine Civil.fails (.andThen (fun σ ↦ hE.adds (.newInstance c)) (Sealed.newInstance c).civil fun object ↦ ?_) s w hw
    -- The constructor that is found is on offer, so it is polite.
    refine .bind (P := fun found ↦ ∀ m, found = some m → m.body.Polite)
      (fun σ ↦ hE.adds (.basic (.findMember c constructorName))) ⟨fun _ _ _ _ he ↦ (nomatch he)⟩ ?_ fun found hfound ↦ ?_
    · rintro s w found w' hw hrun m rfl
      refine hw.polite m ((Registry.offers_find w.classes c constructorName).1 m ?_)
      exact Except.ok.inj (Prod.mk.inj hrun).1
    · cases found with
      | some constructor =>
        refine .andThen (fun σ ↦ hE.adds (.retain object)) (Sealed.modify _).civil fun _ ↦ ?_
        have hrun := hE.invoke object constructor args (hfound constructor rfl)
        refine .bind (P := Contained) (fun σ ↦ hE.adds (.attempt (.invoke object constructor args)))
          (Sealed.attempt _).civil (fun s w r w' hw h ↦ hrun.contained_of_attempt hw h) fun result hresult ↦ ?_
        cases result with
        | ok value => exact ((Sealed.modify _).bind fun _ ↦ .pure object).civil
        | error e =>
          exact ((Sealed.modify _).bind fun _ ↦ (Sealed.modify _).bind fun _ ↦ .raise (hresult e rfl)).civil
      | none =>
        refine Sealed.civil ?_
        dsimp only
        split
        · exact .pure object
        · exact (Sealed.modify _).bind fun _ ↦ .raiseKind _

/-! ### Requests of host members -/

theorem civil_hostNew (c : ClassId) (args : List Ref) : Civil (hostNew E c args) := by
  refine .andThen (fun σ ↦ hE.adds (.shareArgs args)) (Sealed.shareArgs args).civil fun args ↦ ?_
  refine .bind (P := Contained) (fun σ ↦ hE.adds (.attempt (.construct c args))) (Sealed.attempt _).civil ?_
    fun r hr ↦ (Sealed.finishHostCall hr).civil
  exact fun s w r w' hw h ↦ (civil_construct hE c args).contained_of_attempt hw h

omit hE in
theorem contained_of_keepResult {act : Machine Ref} (hact : Civil act) {run run' : ProgramRun} {s : List FrameKey}
    {w w' : World} (hw : Orderly s w) {reply : Except EvalError Reg}
    (h : keepResult run act w = (.ok (reply, run'), w')) : Contained reply := by
  obtain ⟨r, w₁, hattempt, hrest⟩ := bind_calm (Calm.attempt act) h (by simp)
  have hr := hact.contained_of_attempt hw hattempt
  cases r with
  | ok value =>
    cases hrest
    exact contained_ok _
  | error e =>
    cases hrest
    exact fun e' he' ↦ hr e' (by cases he'; rfl)

/-- A request is answered without a loop exit. -/
theorem allows_of_perform {op : Request} {run run' : ProgramRun} {s : List FrameKey} {w w' : World}
    (hw : Orderly s w) {reply : op.Reply} (h : perform E run op w = (.ok (reply, run'), w')) :
    op.Allows reply := by
  cases op with
  | startCoroutine target member args mind deferred =>
    exact contained_of_keepResult (Sealed.startValue E _ member _ mind deferred).civil hw h
  | invokeMethod target member args =>
    exact contained_of_keepResult (Sealed.hostInvoke E _ member _).civil hw h
  | newInstance c args => exact contained_of_keepResult (civil_hostNew hE c _) hw h
  | evaluate arena root => exact contained_of_keepResult (Sealed.hostEvaluate E arena root).civil hw h
  | _ => trivial

/-- A polite program ends without a loop exit. -/
theorem contained_of_runProgram {α : Type} {program : Program α} (hprogram : program.Polite) {run run' : ProgramRun}
    {s : List FrameKey} {w w' : World} (hw : Orderly s w) {result : Except EvalError α}
    (h : runProgram E program run w = (.ok (result, run'), w')) : Contained result := by
  induction program generalizing run w with
  | done r =>
    cases h
    exact hprogram
  | request op next ih =>
    obtain ⟨⟨reply, run₁⟩, w₁, hreply, hrest⟩ := bind_calm (Calm.perform hE.resume run op) h (by simp)
    refine ih reply (hprogram reply (allows_of_perform hE hw hreply)) (hw.after (fun σ ↦ ?_) hreply) hrest
    exact hE.adds (.perform (Nat.le_refl _) run op)

theorem civil_runHost {program : Program Reg} (hprogram : program.Polite) (this : Ref) (args : List Ref) :
    Civil (runHost E program this args) := by
  refine .bind (P := fun p ↦ Contained p.1) (fun σ ↦ hE.adds (.runProgram (Nat.le_refl _) program _))
    (Calm.runProgram hE.resume program _).sealed.civil
    (fun s w p w' hw h ↦ contained_of_runProgram hE hprogram hw h) fun (result, run) hresult ↦ ?_
  cases result with
  | ok r => exact ((Sealed.share _).bind fun value ↦ (Sealed.modify _).bind fun _ ↦ .pure value).civil
  | error e => exact ((Sealed.modify _).bind fun _ ↦ .raise (hresult e rfl)).civil

theorem civil_runMember (this : Ref) {m : Member} (args : ArgValues) (hm : m.body.Polite) :
    Civil (runMember E this m args) := by
  unfold runMember
  split
  · exact ((Sealed.newContext ..).bind fun context ↦ .runScript E context ..).civil
  · next params code hbody =>
    refine .andThen (fun σ ↦ hE.adds (.elseRelease (.bindNative m.name params args) [this]))
      ((Sealed.bindNative m.name params args).elseRelease [this]).civil fun values ↦ ?_
    cases code with
    | core method => exact ((Sealed.runCore E method this values).thenRelease _).civil
    | host program =>
      rw [hbody] at hm
      have hrun := civil_runHost hE hm this values
      show Civil (thenRelease (runHost E program this values) _)
      rw [thenRelease_eq]
      refine .bind (P := Contained) (fun σ ↦ hE.adds (.attempt (.runHost (Nat.le_refl _) program this values)))
        (Sealed.attempt _).civil (fun s w r w' hw h ↦ hrun.contained_of_attempt hw h) fun r hr ↦ ?_
      exact ((Sealed.modify _).bind fun _ ↦ .ofExcept hr).civil
  · exact ((Sealed.modify _).bind fun _ ↦ .raiseKind _).civil

theorem civil_invokeMember (this : Ref) {m : Member} (args : ArgValues) (hm : m.body.Polite) :
    Civil (invokeMember E this m args) := by
  have hrun := civil_runMember hE this args hm
  refine ⟨fun s w hw ↦ ?_⟩
  rw [invokeMember, get_bind, withInvocation, get_bind]
  cases hpush : w.callStack.push ⟨w.classes.nameOf m.owner, m.name⟩ with
  | error e => exact ((Sealed.modify _).bind fun _ ↦ .raise (CallStack.isLoopExit_of_push hpush)).fails w
  | ok callStack =>
    refine (Civil.andThen (fun σ ↦ (Along.compositional NoNewMembers.lasting).setCallStack _)
      (Sealed.modify _).civil fun _ ↦ ?_).fails s w hw
    refine .bind (P := Contained) (fun σ ↦ hE.adds (.attempt (.runMember (Nat.le_refl _) this m args)))
      (Sealed.attempt _).civil (fun s w r w' hw h ↦ hrun.contained_of_attempt hw h) fun r hr ↦ ?_
    refine (Sealed.read fun v ↦ (Sealed.modify _).bind fun _ ↦ ?_).civil
    cases r with
    | ok a => exact .pure a
    | error e => exact .raise ((CallStack.isLoopExit_attach v.callStack e).trans (hr e rfl))

end

theorem civilized_ofBudget (n : Nat) : Civilized (.ofBudget n) := by
  induction n with
  | zero =>
    exact ⟨Engine.along_ofBudget NoNewMembers.lasting 0, Calm.resume_ofBudget 0, fun _ _ _ _ ↦ Calm.exhausted.sealed.civil⟩
  | succ n ih =>
    exact ⟨Engine.along_ofBudget NoNewMembers.lasting (n + 1), Calm.resume_ofBudget (n + 1),
      fun this m args hm ↦ civil_invokeMember ih this args hm⟩

/-! ### Calls of script code -/

/-- Dispatch finds a polite member. -/
theorem polite_of_dispatchFrom {s : List FrameKey} {w w' : World} (hw : Orderly s w) {receiver : Ref} {name : String}
    {start : Option ClassId} {m : Member} (h : dispatchFrom receiver name start w = (.ok m, w')) : m.body.Polite := by
  rw [dispatchFrom, get_bind] at h
  obtain ⟨r, w₁, hr, hrest⟩ := bind_calm (Calm.attempt _) h (by simp)
  cases r with
  | ok found =>
    cases hrest
    unfold attempt onClasses at hr
    rcases hfound : Registry.resolve (w.heap.classOf receiver) name start w.classes with ⟨e | found, classes⟩
    · rw [hfound] at hr
      cases hr
    · rw [hfound] at hr
      cases hr
      exact hw.polite m ((Registry.offers_resolve w.classes _ name start).1 m classes hfound)
  | error e =>
    dsimp only at hrest
    split at hrest <;> cases hrest

theorem polite_of_resolveCall {E : Engine} (hE : Civilized E) {s : List FrameKey} {w w' : World} (hw : Orderly s w)
    {receiver : Ref} {name : String} {qualifier : Option String} {m : Member}
    (h : resolveCall receiver name qualifier w = (.ok m, w')) : m.body.Polite := by
  rw [resolveCall_eq] at h
  obtain ⟨start, w₁, hstart, hdispatch⟩ := exists_of_bind_eq_ok h
  refine polite_of_dispatchFrom (hw.after (fun σ ↦ hE.adds ?_) hstart) hdispatch
  cases qualifier with
  | none => exact .pure none
  | some q => exact (Alike.lookupClass q).map some

theorem civil_callMethod {E : Engine} (hE : Civilized E) (receiver : Ref) (name : String) (qualifier : Option String)
    (args : ArgValues) : Civil (callMethod E receiver name qualifier args) := by
  refine .bind (P := fun m ↦ m.body.Polite) (fun σ ↦ hE.adds ((Alike.resolveMethod receiver name qualifier).elseRelease _))
    ((Sealed.resolveMethod receiver name qualifier).elseRelease _).civil (fun s w m w' hw h ↦ ?_)
    fun m hm ↦ hE.invoke receiver m args hm
  obtain ⟨m', w₁, hcall, hrest⟩ := exists_of_bind_eq_ok (ok_of_elseRelease h)
  have hm := polite_of_resolveCall hE hw hcall
  split at hrest <;> cases hrest
  exact hm

/-- A loop exit leaves the action. -/
def Exits {α : Type} (f : Machine α) (w : World) : Prop := ∃ e, (f w).1 = .error (.raised e) ∧ e.isLoopExit = true

theorem exits_scriptFrame_iff {E : Engine} {context : Context} {name : String} {params : Span} {body : ExprId}
    {args : ArgValues} {w : World} : Exits (scriptFrame E context name params body args) w ↔
      Exits (bindParams E name params args) { w with context } := by
  have hwith : withContext context (bindParams E name params args) w =
      (attempt (bindParams E name params args) >>= fun bound ↦ do
        let after := (← get).context
        modify fun v ↦ { v with context := w.context }
        return (bound, after)) { w with context } := rfl
  unfold Exits scriptFrame
  rcases hbind : bindParams E name params args { w with context } with ⟨result, w'⟩
  match result with
  | .ok () =>
    rw [bind_of_ok (hwith.trans (bind_of_ok (attempt_of_ok hbind)))]
    refine ⟨?_, ?_⟩ <;> rintro ⟨e, he, -⟩ <;> cases he
  | .error (.raised e) =>
    rw [bind_of_ok (hwith.trans (bind_of_ok (attempt_of_raised hbind)))]
    refine ⟨?_, ?_⟩ <;> rintro ⟨e', he', hexit⟩ <;> cases he' <;> exact ⟨_, rfl, hexit⟩
  | .error .exhausted =>
    rw [bind_of_error (hwith.trans (bind_of_error (attempt_of_exhausted hbind)))]
    refine ⟨?_, ?_⟩ <;> rintro ⟨e, he, -⟩ <;> cases he

/-- A scripted coroutine is called, and a loop exit leaves the default of a parameter: the parameters are bound in
the context that is made for the coroutine. -/
def DefaultExits (E : Engine) (make : Machine Context) (name : String) (params : Span) (args : ArgValues) (w : World) :
    Prop :=
  ∃ context w₁, make w = (.ok context, w₁) ∧ Exits (bindParams E name params args) { w₁ with context }

theorem not_exits_of_sealed {α : Type} {f : Machine α} (h : Sealed f) (w : World) : ¬ Exits f w := by
  rintro ⟨e, he, hexit⟩
  rw [h.fails w e he] at hexit
  cases hexit

/-- Whether a loop exit leaves an action is decided by its second part when the first part ends well, and by the
first otherwise. -/
theorem exits_bind_iff {α β : Type} {f : Machine α} {F : α → Machine β} {w : World} (hf : Sealed f) :
    Exits (f >>= F) w ↔ ∃ a w₁, f w = (.ok a, w₁) ∧ Exits (F a) w₁ := by
  rcases hrun : f w with ⟨i | a, w₁⟩
  · refine ⟨?_, ?_⟩
    · rintro ⟨e, he, hexit⟩
      rw [bind_of_error hrun] at he
      have hi : i = .raised e := Except.error.inj he
      exact absurd ⟨e, by rw [hrun, hi], hexit⟩ (not_exits_of_sealed hf w)
    · rintro ⟨a, w₁, h, -⟩
      cases h
  · unfold Exits
    rw [bind_of_ok hrun]
    refine ⟨fun h ↦ ⟨a, w₁, rfl, h⟩, ?_⟩
    rintro ⟨a', w₁', h, hexit⟩
    obtain ⟨⟨⟩, rfl⟩ := Prod.mk.inj h
    exact hexit

theorem exits_bind_calm_iff {α β : Type} {f : Machine α} {F : α → Machine β} {w : World} (hF : ∀ a, Calm (F a)) :
    Exits (f >>= F) w ↔ Exits f w := by
  unfold Exits
  rcases hrun : f w with ⟨i | a, w₁⟩
  · rw [bind_of_error hrun]
    refine ⟨?_, ?_⟩ <;> rintro ⟨e, he, hexit⟩ <;> cases he <;> exact ⟨e, rfl, hexit⟩
  · rw [bind_of_ok hrun]
    refine ⟨?_, ?_⟩ <;> rintro ⟨e, he, -⟩
    · exact absurd he (hF a w₁ e)
    · cases he

theorem exits_map_iff {α β : Type} {f : Machine α} {F : α → β} {w : World} : Exits (F <$> f) w ↔ Exits f w := by
  rw [← bind_pure_comp]
  exact exits_bind_calm_iff fun a ↦ .pure (F a)

theorem Civil.not_exits {α : Type} {f : Machine α} (hf : Civil f) {s : List FrameKey} {w : World} (hw : Orderly s w) :
    ¬ Exits f w := by
  rintro ⟨e, he, hexit⟩
  rw [hf.fails s w hw e he] at hexit
  cases hexit

theorem ok_elseRelease_iff {α : Type} {f : Machine α} {held : List Ref} {w w' : World} {a : α} :
    elseRelease f held w = (.ok a, w') ↔ f w = (.ok a, w') := by
  refine ⟨ok_of_elseRelease, fun h ↦ ?_⟩
  unfold elseRelease
  rw [h]

section

variable {E : Engine} (hE : Civilized E)

include hE

theorem calm_spawnFrame (m : MindId) (name : String) (owner : ClassId) (parent : Option FrameId) (frame : Frame)
    (deferred : Bool) : Calm (spawnFrame E m name owner parent frame deferred) := by
  refine (Calm.modifyGet _).bind fun h ↦ ?_
  cases deferred with
  | true => exact (Calm.modify _).bind fun _ ↦ .pure h
  | false => exact (hE.resume m h.frame).bind fun _ ↦ .pure h

/-- A coroutine that is started lets a loop exit out exactly if it is scripted and one of its defaults does. -/
theorem exits_spawnMember_iff {mind : MindId} {parent : Option FrameId} {this : Ref} {m : Member} {args : ArgValues}
    {deferred : Bool} {w : World} (hmind : w.ownsMind mind = true) (hm : m.isCoroutine = true) :
    Exits (spawnMember E mind parent this m args deferred) w ↔ ∃ arena params body,
      m.body = .script arena params body ∧ DefaultExits E (newContext arena this m.owner) m.name params args w := by
  have hspawn : Exits (spawnMember E mind parent this m args deferred) w ↔ Exits (memberFrame E this m args) w := by
    have happly : spawnMember E mind parent this m args deferred w = (memberFrame E this m args >>= fun frame ↦
        spawnFrame E mind m.name m.owner parent frame deferred) w := by
      rw [spawnMember, get_bind]
      simp only [hmind, hm, Bool.not_true, Bool.false_eq_true, if_false]
    unfold Exits
    rw [happly]
    exact exits_bind_calm_iff fun frame ↦ calm_spawnFrame hE mind m.name m.owner parent frame deferred
  rw [hspawn]
  unfold memberFrame
  cases hbody : m.body with
  | script arena params body =>
    refine (exits_bind_iff (Sealed.newContext ..)).trans ⟨?_, ?_⟩
    · rintro ⟨context, w₁, hmake, hexit⟩
      exact ⟨arena, params, body, rfl, context, w₁, hmake, exits_scriptFrame_iff.mp hexit⟩
    · rintro ⟨arena', params', body', ⟨⟩, context, w₁, hmake, hexit⟩
      exact ⟨context, w₁, hmake, exits_scriptFrame_iff.mpr hexit⟩
  | coroutine params code =>
    refine iff_of_false (not_exits_of_sealed ?_ w) (by simp)
    exact ((Sealed.bindNative ..).elseRelease _).bind fun _ ↦ (Sealed.newContext ..).bind fun _ ↦ .pure _
  | method params code =>
    refine iff_of_false (not_exits_of_sealed ?_ w) (by simp)
    exact (Sealed.modify _).bind fun _ ↦ .raiseKind _

theorem exits_callCoroutine_iff {s : List FrameKey} {w : World} (hw : Orderly s w) {receiver : Ref} {name : String}
    {qualifier : Option String} {args : ArgValues} :
    Exits (callCoroutine E receiver name qualifier args) w ↔ ∃ m w₁ arena params body,
      resolveCall receiver name qualifier w = (.ok m, w₁) ∧ m.isCoroutine = true ∧ w₁.current.isSome ∧
      m.body = .script arena params body ∧
      DefaultExits E (newContext arena receiver m.owner) m.name params args w₁ := by
  refine (exits_bind_iff ((Sealed.resolveCall receiver name qualifier).elseRelease _)).trans ?_
  simp only [ok_elseRelease_iff]
  refine exists_congr fun m ↦ exists_congr fun w₁ ↦ ?_
  simp only [exists_and_left]
  refine and_congr_right fun hcall ↦ ?_
  have hw₁ : Orderly s w₁ := hw.after (fun σ ↦ hE.adds (.resolveCall receiver name qualifier)) hcall
  cases hm : m.isCoroutine with
  | false =>
    refine iff_of_false ?_ (by simp)
    have hpolite := polite_of_resolveCall hE hw hcall
    exact fun h ↦ (hE.invoke receiver m args hpolite).not_exits hw₁ (exits_map_iff.mp h)
  | true =>
    simp only [if_true, true_and]
    show Exits (get >>= _) w₁ ↔ _
    unfold Exits
    rw [get_bind]
    cases hcurrent : w₁.current with
    | none =>
      refine iff_of_false ?_ (by simp)
      exact not_exits_of_sealed ((Sealed.modify _).bind fun _ ↦ .raiseKind _) w₁
    | some step =>
      have hmind : w₁.ownsMind step.1 = true := by
        have hin := (hw₁.valid.holds (σ := ⟨s.head?, 0, true, none⟩) rfl (Nat.zero_le _)).rooted.current _ _ hcurrent
        simpa [World.ownsMind] using hin
      refine exits_map_iff.trans ((exits_spawnMember_iff hE hmind hm).trans ?_)
      simp

/-- No loop exit leaves a closure that is a method; one that is a coroutine lets it out as a member does. -/
theorem exits_callClosure_iff {w : World} {callee : Ref} {args : ArgValues} :
    Exits (callClosure E callee args) w ↔ ∃ c, w.heap.payload callee = .closure c ∧ c.kind = .coroutine ∧
      w.current.isSome ∧ DefaultExits E (closureContext c) closureName c.params args w := by
  refine (exits_bind_iff ((Sealed.expectClosure callee).elseRelease _)).trans ?_
  simp only [ok_elseRelease_iff]
  refine exists_congr fun c ↦ ?_
  have hclosure (w₁ : World) : expectClosure callee w = (.ok c, w₁) ↔ w.heap.payload callee = .closure c ∧ w = w₁ := by
    rw [expectClosure, get_bind]
    cases w.heap.payload callee with
    | closure c' =>
      refine ⟨fun h ↦ ?_, ?_⟩
      · cases h
        exact ⟨rfl, rfl⟩
      · rintro ⟨⟨⟩, rfl⟩
        rfl
    | _ => exact ⟨fun h ↦ (nomatch h), fun h ↦ (nomatch h.1)⟩
  simp only [hclosure, and_assoc, exists_and_left, exists_eq_left']
  refine and_congr_right fun _ ↦ ?_
  cases hkind : c.kind with
  | method =>
    refine iff_of_false ?_ (by simp)
    exact fun h ↦ not_exits_of_sealed (Sealed.invokeClosureNow E callee args) w (exits_map_iff.mp h)
  | coroutine =>
    simp only [reduceCtorEq, if_false, true_and]
    show Exits (get >>= _) w ↔ _
    unfold Exits
    rw [get_bind]
    cases hcurrent : w.current with
    | none =>
      refine iff_of_false ?_ (by simp)
      exact not_exits_of_sealed ((Sealed.modify _).bind fun _ ↦ .raiseKind _) w
    | some step =>
      simp only [Option.isSome_some, true_and]
      refine (exits_bind_iff (Sealed.closureContext c)).trans ?_
      refine exists_congr fun context ↦ exists_congr fun w₁ ↦ and_congr_right fun _ ↦ ?_
      refine (exits_bind_calm_iff fun frame ↦ ?_).trans exits_scriptFrame_iff
      rw [← bind_pure_comp]
      exact (calm_spawnFrame hE step.1 closureName c.thisClass (some step.2) frame false).bind fun _ ↦ .pure _

end

/-- A loop exit leaves a call exactly if the call starts a scripted coroutine, a member or a closure, and the exit
comes from the default of one of its parameters.  No other call lets one out. -/
theorem exits_call_iff {s : List FrameKey} {w : World} (h : Reachable ⟨s, w⟩) (hpolite : w.classes.Polite) (n : Nat) :
    (∀ receiver name qualifier args, ¬ Exits (callMethod (.ofBudget n) receiver name qualifier args) w) ∧
    (∀ className args, ¬ Exits (instantiate (.ofBudget n) className args) w) ∧
    (∀ callee args, ¬ Exits (invokeClosureNow (.ofBudget n) callee args) w) ∧
    (∀ receiver name qualifier args, Exits (callCoroutine (.ofBudget n) receiver name qualifier args) w ↔
      ∃ m w₁ arena params body, resolveCall receiver name qualifier w = (.ok m, w₁) ∧ m.isCoroutine = true ∧
        w₁.current.isSome ∧ m.body = .script arena params body ∧
        DefaultExits (.ofBudget n) (newContext arena receiver m.owner) m.name params args w₁) ∧
    ∀ callee args, Exits (callClosure (.ofBudget n) callee args) w ↔
      ∃ c, w.heap.payload callee = .closure c ∧ c.kind = .coroutine ∧ w.current.isSome ∧
        DefaultExits (.ofBudget n) (closureContext c) closureName c.params args w := by
  have hE := civilized_ofBudget n
  have hw : Orderly s w := ⟨h.valid, hpolite⟩
  refine ⟨fun receiver name qualifier args ↦ (civil_callMethod hE receiver name qualifier args).not_exits hw,
    fun className args ↦ Civil.not_exits ?_ hw,
    fun callee args ↦ not_exits_of_sealed (.invokeClosureNow _ callee args) w,
    fun receiver name qualifier args ↦ exits_callCoroutine_iff hE hw,
    fun callee args ↦ exits_callClosure_iff hE⟩
  exact .andThen (fun σ ↦ hE.adds ((Alike.lookupClass className).elseRelease _))
    ((Sealed.lookupClass className).elseRelease _).civil fun c ↦ civil_construct hE c args

/-! ### A coroutine whose default leaves the caller's loop -/

/-- A parameter whose default is a loop exit. -/
def exitArena : Arena where
  nodes := #[.loopExit none, .nil]
  durational := #[false, false]
  params := #[⟨"x", none, some ⟨0⟩⟩]

/-- A coroutine closure with that parameter. -/
def exitClosure : Closure := ⟨.coroutine, exitArena, ⟨0, 1⟩, ⟨1⟩, ⟨0⟩, .nil, Core.object⟩

/-- A step in which there is such a closure. -/
def exitStep : World := { World.oneStep with
  heap := (World.oneStep.heap.newObject { classId := Core.closure, payload := .closure exitClosure }).2 }

theorem reachable_exitStep : Reachable ⟨[(⟨0⟩, ⟨0, 0⟩)], exitStep⟩ :=
  reachable_oneStep.act (.compute ⟨rfl, rfl, rfl⟩ ⟨rfl, rfl, rfl⟩)

theorem exits_exitStep : Exits (callClosure (.ofBudget 2) ⟨1⟩ []) exitStep := ⟨_, rfl, rfl⟩

theorem exits_call_iff_exitStep : exitStep.classes.Polite ∧
    DefaultExits (.ofBudget 2) (closureContext exitClosure) closureName ⟨0, 1⟩ [] exitStep ∧
      ¬ Exits (invokeClosureNow (.ofBudget 2) ⟨1⟩ []) exitStep := by
  obtain ⟨-, -, hnow, -, hcall⟩ := exits_call_iff reachable_exitStep CoreClass.polite_registry 2
  obtain ⟨c, hc, -, -, hexit⟩ := (hcall ⟨1⟩ []).mp exits_exitStep
  obtain rfl : exitClosure = c := Payload.closure.inj hc
  exact ⟨CoreClass.polite_registry, hexit, hnow ⟨1⟩ []⟩

/-- A loop exit can leave the call of a coroutine closure. -/
theorem not_contained_callClosure : ¬ ∀ s w n, Reachable ⟨s, w⟩ → w.classes.Polite →
    ∀ callee args, ¬ Exits (callClosure (.ofBudget n) callee args) w :=
  fun h ↦ h _ exitStep 2 reachable_exitStep CoreClass.polite_registry ⟨1⟩ [] exits_exitStep

end Machine

end MindScript
