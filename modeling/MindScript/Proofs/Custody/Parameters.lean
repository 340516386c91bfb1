import MindScript.Proofs.Calls.Placing
import MindScript.Proofs.Custody.Names
import MindScript.Proofs.Custody.Restored
import MindScript.Proofs.Custody.Resumptions

/-!
# Binding parameters

The parameters of a script are bound one after the other, up to the first that fails.  A default is evaluated if and only if
nothing was given for its parameter, where the parameters before it are bound.
-/

namespace MindScript

open Machine

/-! ### One parameter -/

/-- The value is of the class that the parameter declares, if it declares one. -/
def World.Suits (w : World) (param : Param) (value : Ref) : Prop :=
  ∀ name, param.className = some name →
    ∃ c, w.classes.classNamed name = some c ∧ w.classes.isSubtype (w.heap.classOf value) c = true

/-- The innermost scope of the running code binds the name. -/
def World.Binds (w : World) (name : String) : Prop :=
  ∃ scope, w.heap.scope? w.context.env.innermost = some scope ∧ (scope.bindings.lookup name).isSome

/-- What is given for a parameter is its value; only where nothing is given its default is evaluated. -/
inductive Machine.Obtains (E : Engine) (param : Param) : Option Ref → World → Ref → World → Prop where
  | given {u : World} (value : Ref) : Obtains E param (some value) u value u
  | default {d : ExprId} {value : Ref} {u u' : World} : param.default = some d → E.eval d u = (.ok value, u') →
      Obtains E param none u value u'

/-- A parameter is bound to a value that suits it. -/
def Machine.BindsParam (E : Engine) (param : Param) (slot : Option Ref) (u u' : World) : Prop :=
  ∃ value v, Obtains E param slot u value v ∧ v.Suits param value ∧ u' = (define param.name value v).2

/-- The ways in which the binding of a parameter can fail. -/
inductive Machine.FailsParam (E : Engine) (member : String) (required given : ℕ) (param : Param) :
    Option Ref → World → Interrupt → World → Prop where
  /-- Nothing is given, and there is no default. -/
  | missing {u : World} : param.default = none →
      FailsParam E member required given param none u (.raised (.ofKind (.arityMismatch member required given))) u
  | default {d : ExprId} {i : Interrupt} {u v : World} : param.default = some d → E.eval d u = (.error i, v) →
      FailsParam E member required given param none u i v
  | unknownClass {slot : Option Ref} {value : Ref} {name : String} {u v : World} : Obtains E param slot u value v →
      param.className = some name → v.classes.classNamed name = none →
      FailsParam E member required given param slot u (.raised (.ofKind (.unknownClass name))) v
  | mismatch {slot : Option Ref} {value : Ref} {name : String} {c : ClassId} {u v : World} :
      Obtains E param slot u value v → param.className = some name → v.classes.classNamed name = some c →
      v.classes.isSubtype (v.heap.classOf value) c = false →
      FailsParam E member required given param slot u
        (.raised (.ofKind (.typeMismatch (v.classes.nameOf c) (v.classNameOf value)))) v

namespace Machine

variable {E : Engine} {member : String} {required given : ℕ} {param : Param} {slot : Option Ref} {value : Ref}
  {u v : World}

theorem paramValue_cases (E : Engine) (member : String) (required given : ℕ) (param : Param) (slot : Option Ref) (u : World) :
    (∃ value v, paramValue E member required given param slot u = (.ok value, v) ∧ Obtains E param slot u value v) ∨
    ∃ i v, paramValue E member required given param slot u = (.error i, v) ∧
      FailsParam E member required given param slot u i v := by
  cases slot with
  | some value => exact .inl ⟨value, u, rfl, .given value⟩
  | none =>
    unfold paramValue
    cases hdefault : param.default with
    | none => exact .inr ⟨_, u, rfl, .missing hdefault⟩
    | some d =>
      dsimp only
      cases hrun : E.eval d u with
      | mk r v =>
        cases r with
        | ok value => exact .inl ⟨value, v, rfl, .default hdefault hrun⟩
        | error i => exact .inr ⟨i, v, rfl, .default hdefault hrun⟩

theorem checkParam_cases (member : String) (required given : ℕ) (hobtains : Obtains E param slot u value v) :
    checkParam param value v = (.ok (), v) ∧ v.Suits param value ∨
    ∃ e, checkParam param value v = (.error (.raised e), v) ∧
      FailsParam E member required given param slot u (.raised e) v := by
  unfold checkParam
  cases hname : param.className with
  | none => exact .inl ⟨rfl, fun _ h ↦ by cases hname.symm.trans h⟩
  | some name =>
    dsimp only
    cases hclass : v.classes.classNamed name with
    | none =>
      have hlookup : lookupClass name v = (.error (.raised (.ofKind (.unknownClass name))), v) := by
        rw [lookupClass, get_bind, hclass]
        rfl
      exact .inr ⟨_, bind_of_error hlookup, .unknownClass hobtains hname hclass⟩
    | some c =>
      have hlookup : lookupClass name v = (.ok c, v) := by
        rw [lookupClass, get_bind, hclass]
        rfl
      rw [bind_of_ok hlookup, checkType, get_bind]
      cases hsub : v.classes.isSubtype (v.heap.classOf value) c with
      | true => exact .inl ⟨rfl, fun _ h ↦ by cases hname.symm.trans h; exact ⟨c, hclass, hsub⟩⟩
      | false => exact .inr ⟨_, rfl, .mismatch hobtains hname hclass hsub⟩

theorem elseRelease_cases {α : Type} {act : Machine α} {i : Interrupt} (held : List Ref) (h : act u = (.error i, v)) :
    ∃ v', elseRelease act held u = (.error i, v') ∧ v.SameData v' := by
  unfold elseRelease
  rw [h]
  cases i with
  | raised e => exact ⟨_, rfl, .release v _⟩
  | exhausted => exact ⟨v, rfl, rfl, rfl, rfl⟩

/-! ### All parameters -/

/-- Parameters are bound left to right, up to one of them, each in the world that the one before left. -/
def BindsUpTo (E : Engine) (slots : List (Param × Option Ref)) (j : ℕ) (us : ℕ → World) : Prop :=
  ∀ k param slot, k < j → slots[k]? = some (param, slot) → BindsParam E param slot (us k) (us (k + 1))

/-- The parameters are bound up to the first that fails. -/
theorem bindSlots_runs (E : Engine) (member : String) (required given : ℕ) (slots : List (Param × Option Ref)) (w : World) :
    ∃ us j, us 0 = w ∧ BindsUpTo E slots j us ∧
      (j = slots.length ∧ bindSlots E member required given slots w = (.ok (), us j) ∨
        ∃ param slot i v v', slots[j]? = some (param, slot) ∧
          FailsParam E member required given param slot (us j) i v ∧ v.SameData v' ∧
          bindSlots E member required given slots w = (.error i, v')) := by
  induction slots generalizing w with
  | nil => exact ⟨fun _ ↦ w, 0, rfl, fun _ _ _ hk ↦ absurd hk (Nat.not_lt_zero _), .inl ⟨rfl, rfl⟩⟩
  | cons p rest ih =>
    obtain ⟨param, slot⟩ := p
    have hfails : ∀ {i v v'}, FailsParam E member required given param slot w i v → v.SameData v' →
        bindSlots E member required given ((param, slot) :: rest) w = (.error i, v') →
        ∃ us j, us 0 = w ∧ BindsUpTo E ((param, slot) :: rest) j us ∧
          (j = ((param, slot) :: rest).length ∧
              bindSlots E member required given ((param, slot) :: rest) w = (.ok (), us j) ∨
            ∃ param' slot' i v v', ((param, slot) :: rest)[j]? = some (param', slot') ∧
              FailsParam E member required given param' slot' (us j) i v ∧ v.SameData v' ∧
              bindSlots E member required given ((param, slot) :: rest) w = (.error i, v')) :=
      fun hfails hsame hrun ↦ ⟨fun _ ↦ w, 0, rfl, fun _ _ _ hk ↦ absurd hk (Nat.not_lt_zero _),
        .inr ⟨param, slot, _, _, _, rfl, hfails, hsame, hrun⟩⟩
    rcases paramValue_cases E member required given param slot w with
      ⟨value, v, hvalue, hobtains⟩ | ⟨i, v, hvalue, hrefuses⟩
    · have hfirst : elseRelease (paramValue E member required given param slot) (rest.filterMap Prod.snd) w =
          (.ok value, v) := by
        unfold elseRelease
        rw [hvalue]
      rcases checkParam_cases member required given hobtains with
        ⟨hcheck, hsuits⟩ | ⟨e, hcheck, hrefuses⟩
      · have hsecond : elseRelease (checkParam param value) (value :: rest.filterMap Prod.snd) v = (.ok (), v) := by
          unfold elseRelease
          rw [hcheck]
        have hdefine : define param.name value v = (.ok (), (define param.name value v).2) := rfl
        have hrun : bindSlots E member required given ((param, slot) :: rest) w =
            bindSlots E member required given rest (define param.name value v).2 := by
          rw [bindSlots]
          exact (bind_of_ok hfirst).trans ((bind_of_ok hsecond).trans (bind_of_ok hdefine))
        obtain ⟨us, j, hstart, hbinds, hends⟩ := ih (define param.name value v).2
        refine ⟨fun k ↦ k.casesOn w us, j + 1, rfl, ?_, ?_⟩
        · rintro (_ | k) param' slot' hk hslot
          · cases hslot
            exact ⟨value, v, hobtains, hsuits, hstart⟩
          · exact hbinds k param' slot' (Nat.lt_of_succ_lt_succ hk) hslot
        · rw [hrun]
          rcases hends with ⟨hlast, hrest⟩ | ⟨param', slot', i, u, u', hslot, hrefuses, hsame, hrest⟩
          · exact .inl ⟨congrArg (· + 1) hlast, hrest⟩
          · exact .inr ⟨param', slot', i, u, u', hslot, hrefuses, hsame, hrest⟩
      · obtain ⟨v', hsecond, hsame⟩ := elseRelease_cases (value :: rest.filterMap Prod.snd) hcheck
        refine hfails hrefuses hsame ?_
        rw [bindSlots]
        exact (bind_of_ok hfirst).trans (bind_of_error hsecond)
    · obtain ⟨v', hfirst, hsame⟩ := elseRelease_cases (rest.filterMap Prod.snd) hvalue
      refine hfails hrefuses hsame ?_
      rw [bindSlots]
      exact bind_of_error hfirst

/-! ### What is bound on the way -/

/-- Evaluating a default leaves the running code in its context, and its scopes keep their names. -/
theorem Obtains.keeps {n : ℕ} {s : List FrameKey} (h : Obtains (.ofBudget n) param slot u value v)
    (hvalid : Moment.Valid ⟨s, u⟩) :
    Moment.Valid ⟨s, v⟩ ∧ v.context = u.context ∧ u.heap.KeepsNames v.heap := by
  cases h with
  | given => exact ⟨hvalid, rfl, .refl u.heap⟩
  | @default d _ _ _ hdefault hrun =>
    let σ : Setting := ⟨s.head?, 0, false, none⟩
    have hne : ((Engine.ofBudget n).eval d u).1 ≠ .error .exhausted := by simp [hrun]
    have hlevel := ((Engine.balanced_ofBudget n).eval σ d u (hvalid.holds rfl (Nat.zero_le _))).level hne
    obtain ⟨s', hjourney, hsame⟩ := (Engine.tracked_ofBudget n).eval σ d s u hvalid rfl (Nat.zero_le _)
    obtain rfl := hsame hne
    have hkeeps := ((Engine.along_ofBudget World.lasting_keepsNames n).eval σ d).along s' u hvalid rfl (Nat.zero_le _)
    rw [hrun] at hlevel hjourney hkeeps
    exact ⟨hvalid.journey hjourney, hlevel.context rfl, hkeeps⟩

theorem binds_define {name : String} (value : Ref) (hscope : (v.heap.scope? v.context.env.innermost).isSome) :
    (define name value v).2.Binds name := by
  obtain ⟨scope, hs⟩ := Option.isSome_iff_exists.mp hscope
  have hdefined : (v.heap.define v.context.env.innermost name value).2.scope? v.context.env.innermost = some
      { scope with bindings := (name, value) :: scope.bindings.filter fun b ↦ b.1 != name } := by
    rw [Heap.define, Heap.scope?_modifyScope, if_pos rfl, hs]
    rfl
  have hreleased := Heap.KeepsNames.release (v.heap.define v.context.env.innermost name value).2
    ((v.heap.define v.context.env.innermost name value).1.toList.map .object)
  obtain ⟨scope', hs', -, hnames⟩ := hreleased _ _ hdefined
  exact ⟨scope', hs', hnames name (by simp)⟩

/-- The parameters before one are bound in the scope in which it is bound. -/
theorem BindsUpTo.bound {n : ℕ} {s : List FrameKey} {slots : List (Param × Option Ref)} {j : ℕ} {us : ℕ → World}
    (h : BindsUpTo (.ofBudget n) slots j us) (hj : j ≤ slots.length) (hvalid : Moment.Valid ⟨s, us 0⟩)
    (hscope : ((us 0).heap.scope? (us 0).context.env.innermost).isSome) {k : ℕ} (hk : k ≤ j) :
    Moment.Valid ⟨s, us k⟩ ∧ (us k).context = (us 0).context ∧
      ((us k).heap.scope? (us 0).context.env.innermost).isSome ∧
      ∀ i param slot, i < k → slots[i]? = some (param, slot) → (us k).Binds param.name := by
  induction k with
  | zero => exact ⟨hvalid, rfl, hscope, fun _ _ _ hi ↦ absurd hi (Nat.not_lt_zero _)⟩
  | succ k ih =>
    obtain ⟨hvalid, hcontext, hthere, hbound⟩ := ih (Nat.le_of_succ_le hk)
    obtain ⟨⟨param, slot⟩, hslot⟩ : ∃ p, slots[k]? = some p := ⟨_, List.getElem?_eq_getElem (Nat.lt_of_lt_of_le hk hj)⟩
    obtain ⟨value, v, hobtains, -, hnext⟩ := h k param slot hk hslot
    obtain ⟨hvalid', hcontext', hnames⟩ := hobtains.keeps hvalid
    have hdefine : Basic ⟨s.head?, 0, false, none⟩ (define param.name value) := .define param.name value
    have hcourse := (hdefine.course (s := s) (w := v) rfl (Nat.zero_le _)).journey
    have hkeeps : (us k).heap.KeepsNames (us (k + 1)).heap :=
      hnames.trans (hnext ▸ World.lasting_keepsNames.basic hdefine v)
    have hlast : (us (k + 1)).context = (us 0).context := by
      rw [hnext]
      exact hcontext'.trans hcontext
    obtain ⟨scope, hs⟩ := Option.isSome_iff_exists.mp hthere
    obtain ⟨scope', hs', -, -⟩ := hkeeps _ scope hs
    refine ⟨hnext ▸ hvalid'.journey hcourse, hlast, by rw [hs']; rfl, fun i param' slot' hi hslot' ↦ ?_⟩
    rcases Nat.lt_or_eq_of_le (Nat.le_of_lt_succ hi) with hi | rfl
    · obtain ⟨scope, hs, hname⟩ := hbound i param' slot' hi hslot'
      obtain ⟨scope', hs', -, hnames'⟩ := hkeeps _ scope hs
      refine ⟨scope', ?_, hnames' _ hname⟩
      rw [hlast, ← hcontext, hs']
    · cases hslot.symm.trans hslot'
      rw [hnext]
      refine binds_define value ?_
      obtain ⟨scope, hs⟩ := Option.isSome_iff_exists.mp hthere
      obtain ⟨scope', hs', -, -⟩ := hnames _ scope hs
      rw [hcontext', hcontext, hs']
      rfl

/-! ### Callees -/

/-- An action in the context of a callee, which is given up afterwards. -/
def inCallee (context : Context) (act : Machine Ref) : Machine Ref := do
  let (result, after) ← withContext context act
  releaseLinks after.links
  failLoopExit result

theorem withContext_congr {α : Type} {context : Context} {f g : Machine α}
    (h : f { w with context } = g { w with context }) : withContext context f w = withContext context g w := by
  have hrun (f : Machine α) : withContext context f w = (attempt f >>= fun result ↦ get >>= fun after ↦
      (modify fun w' ↦ { w' with context := w.context }) >>= fun _ ↦ pure (result, after.context)) { w with context } := rfl
  rw [hrun, hrun]
  refine bind_of_eq ?_
  unfold attempt
  rw [h]

/-- The body runs, and it starts in the given world: at once if it can, else in the frame of a coroutine. -/
def RunsBody (E : Engine) (context : Context) (member : String) (span : Span) (args : ArgValues) (w u : World) : Prop :=
  ∀ body, runScript E context member span body args w = inCallee context (fun _ ↦ E.eval body u) w ∧
    scriptFrame E context member span body args w = (.ok (.script u.context body), { u with context := w.context })

/-- The call fails in the given world, whatever the body is. -/
def SkipsBody (E : Engine) (context : Context) (member : String) (span : Span) (args : ArgValues) (w : World)
    (i : Interrupt) (v : World) : Prop :=
  ∀ body, runScript E context member span body args w = inCallee context (fun _ ↦ (.error i, v)) w ∧
    (scriptFrame E context member span body args w).1 = .error i

theorem RunsBody.of_bound {context : Context} {span : Span} {args : ArgValues}
    (h : bindParams E member span args { w with context } = (.ok (), u)) : RunsBody E context member span args w u := by
  refine fun body ↦ ⟨?_, ?_⟩
  · have hsame : withContext context (bindParams E member span args >>= fun _ ↦ E.eval body) w =
        withContext context (fun _ ↦ E.eval body u) w := withContext_congr (bind_of_ok h)
    exact bind_of_eq hsame
  · have hbound : withContext context (bindParams E member span args) w =
        (.ok (.ok (), u.context), { u with context := w.context }) := by
      have hsame := withContext_congr (w := w) (f := bindParams E member span args) (g := fun _ ↦ (.ok (), u)) h
      exact hsame
    rw [scriptFrame, bind_of_ok hbound]
    rfl

theorem SkipsBody.of_failed {context : Context} {span : Span} {args : ArgValues} {i : Interrupt}
    (h : bindParams E member span args { w with context } = (.error i, v)) : SkipsBody E context member span args w i v := by
  refine fun body ↦ ⟨?_, ?_⟩
  · have hsame : withContext context (bindParams E member span args >>= fun _ ↦ E.eval body) w =
        withContext context (fun _ ↦ (.error i, v)) w := withContext_congr (bind_of_error h)
    exact bind_of_eq hsame
  · have hsame := withContext_congr (w := w) (f := bindParams E member span args) (g := fun _ ↦ (.error i, v)) h
    cases i with
    | exhausted =>
      have hbound : withContext context (bindParams E member span args) w = (.error .exhausted, v) := hsame
      rw [scriptFrame, bind_of_error hbound]
    | raised e =>
      have hbound : withContext context (bindParams E member span args) w =
          (.ok (.error e, v.context), { v with context := w.context }) := hsame
      rw [scriptFrame, bind_of_ok hbound]
      rfl

theorem mapM_id_cases {α : Type} (slots : List (Option α)) :
    (∃ values, slots.mapM id = some values ∧ slots = values.map some) ∨ slots.mapM id = none ∧ none ∈ slots := by
  induction slots with
  | nil => exact .inl ⟨[], rfl, rfl⟩
  | cons slot rest ih =>
    rw [List.mapM_cons]
    cases slot with
    | none => exact .inr ⟨rfl, List.mem_cons_self⟩
    | some value =>
      rcases ih with ⟨values, hrest, rfl⟩ | ⟨hrest, hnone⟩
      · exact .inl ⟨value :: values, by rw [hrest]; rfl, rfl⟩
      · exact .inr ⟨by rw [hrest]; rfl, List.mem_cons_of_mem _ hnone⟩

theorem orderArgsOrRelease_of_ok {names : List String} {args : ArgValues} {slots : List (Option Ref)}
    (h : orderArgs member names args = .ok slots) (w : World) : orderArgsOrRelease member names args w = (.ok slots, w) := by
  rw [orderArgsOrRelease, h]
  rfl

theorem orderArgsOrRelease_of_error {names : List String} {args : ArgValues} {e : EvalError × List Ref}
    (h : orderArgs member names args = .error e) (w : World) :
    orderArgsOrRelease member names args w = (.error (.raised e.1), w.release (e.2.map .object)) := by
  rw [orderArgsOrRelease, h]
  rfl

/-- Once the arguments are placed, the parameters are bound up to the first that fails, each where those before it are. -/
theorem bindParams_runs {n : ℕ} {s : List FrameKey} {w : World} {params : List Param} {slots : List (Option Ref)}
    {span : Span} {args : ArgValues} (hvalid : Moment.Valid ⟨s, w⟩)
    (hscope : (w.heap.scope? w.context.env.innermost).isSome) (hparams : w.context.arena.paramsAt span = params)
    (hslots : orderArgs member (params.map Param.name) args = .ok slots) :
    ∃ us j, us 0 = w ∧ j ≤ params.length ∧ BindsUpTo (.ofBudget n) (params.zip slots) j us ∧
      (∀ k ≤ j, (us k).context = w.context ∧ ∀ i < k, ∀ param, params[i]? = some param → (us k).Binds param.name) ∧
      (j = params.length ∧ bindParams (.ofBudget n) member span args w = (.ok (), us j) ∨
        ∃ param slot i v v', params[j]? = some param ∧ slots[j]? = some slot ∧
          FailsParam (.ofBudget n) member (params.filter fun p ↦ p.default.isNone).length args.length param slot (us j) i v ∧
          v.SameData v' ∧ bindParams (.ofBudget n) member span args w = (.error i, v')) := by
  have hfilled : slots.length = params.length := by rw [(orderArgs_eq_ok hslots).2.length, List.length_map]
  have hlength : (params.zip slots).length = params.length := by rw [List.length_zip, hfilled, Nat.min_self]
  have hbind : bindParams (.ofBudget n) member span args w = bindSlots (.ofBudget n) member
      (params.filter fun p ↦ p.default.isNone).length args.length (params.zip slots) w := by
    rw [bindParams, get_bind]
    dsimp only
    rw [hparams]
    exact bind_of_ok (orderArgsOrRelease_of_ok hslots _)
  obtain ⟨us, j, rfl, hbinds, hends⟩ := bindSlots_runs (.ofBudget n) member
    (params.filter fun p ↦ p.default.isNone).length args.length (params.zip slots) w
  have hj : j ≤ params.length := by
    rcases hends with ⟨hlast, -⟩ | ⟨param, slot, i, v, v', hslot, -⟩
    · omega
    · have hlt := (List.getElem?_eq_some_iff.mp hslot).1
      omega
  refine ⟨us, j, rfl, hj, hbinds, fun k hk ↦ ?_, ?_⟩
  · obtain ⟨-, hcontext, -, hnames⟩ := hbinds.bound (hlength ▸ hj) hvalid hscope hk
    refine ⟨hcontext, fun i hi param hparam ↦ ?_⟩
    have hlt : i < slots.length := hfilled ▸ (List.getElem?_eq_some_iff.mp hparam).1
    exact hnames i param slots[i] hi (List.getElem?_zip_eq_some.mpr ⟨hparam, List.getElem?_eq_getElem hlt⟩)
  · rcases hends with ⟨hlast, hrun⟩ | ⟨param, slot, i, v, v', hslot, hfails, hsame, hrun⟩
    · exact .inl ⟨hlast.trans hlength, hbind.trans hrun⟩
    · obtain ⟨hparam, hslot⟩ := List.getElem?_zip_eq_some.mp hslot
      exact .inr ⟨param, slot, i, v, v', hparam, hslot, hfails, hsame, hbind.trans hrun⟩

theorem bindNative_cases (member : String) (names : List String) (args : ArgValues) (w : World) :
    (∃ values, bindNative member names args w = (.ok values, w) ∧ orderArgs member names args = .ok (values.map some)) ∨
    ((bindNative member names args w).1.toOption = none ∧
      ∀ slots, orderArgs member names args = .ok slots → none ∈ slots) := by
  unfold bindNative
  cases horder : orderArgs member names args with
  | error e =>
    refine .inr ⟨?_, fun _ h ↦ by cases h⟩
    rw [bind_of_error (orderArgsOrRelease_of_error horder w)]
    rfl
  | ok slots =>
    rw [bind_of_ok (orderArgsOrRelease_of_ok horder w)]
    rcases mapM_id_cases slots with ⟨values, hall, rfl⟩ | ⟨hall, hnone⟩
    · exact .inl ⟨values, by rw [hall]; rfl, rfl⟩
    · exact .inr ⟨by rw [hall]; rfl, fun _ h ↦ Except.ok.inj h ▸ hnone⟩

theorem bindNative_eq_ok {names : List String} {args : ArgValues} {w w' : World} {values : List Ref}
    (hrun : bindNative member names args w = (.ok values, w')) : w' = w ∧ Placed names args (values.map some) := by
  rcases bindNative_cases member names args w with ⟨values', hrun', horder⟩ | ⟨hfails, -⟩
  · cases hrun.symm.trans hrun'
    exact ⟨rfl, (orderArgs_eq_ok horder).2⟩
  · rw [hrun] at hfails
    cases hfails

theorem exists_bindNative_iff (member : String) (names : List String) (args : ArgValues) (w : World) :
    (∃ values, (bindNative member names args w).1 = .ok values) ↔
      Placeable names args ∧ ∀ i < names.length, ∃ j, paramOf names args j = some i := by
  rcases bindNative_cases member names args w with ⟨values, hrun, horder⟩ | ⟨hfails, hunfilled⟩
  · obtain ⟨hall, hplaced⟩ := orderArgs_eq_ok horder
    refine ⟨fun _ ↦ ⟨hall, fun i hi ↦ ?_⟩, fun _ ↦ ⟨values, by rw [hrun]⟩⟩
    have hlt : i < values.length := by rwa [← hplaced.length, List.length_map] at hi
    have hvalue : (values.map some)[i]? = some (some values[i]) := by simp [hlt]
    obtain ⟨j, hj, -⟩ := (hplaced.holds i _).mp hvalue
    exact ⟨j, hj⟩
  · refine ⟨fun ⟨values, hvalues⟩ ↦ (by rw [hvalues] at hfails; cases hfails), fun ⟨hall, hfilled⟩ ↦ ?_⟩
    obtain ⟨slots, hslots⟩ := (exists_orderArgs_iff member names args).mpr hall
    obtain ⟨i, hi⟩ := List.getElem?_of_mem (hunfilled slots hslots)
    have hplaced := (orderArgs_eq_ok hslots).2
    obtain ⟨j, hj⟩ := hfilled i (hplaced.length ▸ (List.getElem?_eq_some_iff.mp hi).1)
    exact absurd hj (hplaced.free hi j)

end Machine

variable {owned : List Link} {w₀ w : World} {α : Type} {f : Machine α}

/-- Arguments are placed exactly if each is meant for a parameter of its own, and then every parameter holds what is meant
for it.  The parameters of a script are then bound left to right up to the first that fails, and its body runs if none does.
Those of a native member must all be filled. -/
theorem parameters_bound_in_order {n₀ : ℕ} (hw : Reached owned w₀) (hpasses : Passes n₀ w₀.setting f w₀ none w)
    (context : Context) (hscope : (w.heap.scope? context.env.innermost).isSome) (n : ℕ) (member : String) (span : Span)
    {params : List Param} (hparams : context.arena.paramsAt span = params) (args : ArgValues) :
    (∀ names, ((∃ slots, orderArgs member names args = .ok slots) ↔ Placeable names args) ∧
      ∀ slots, orderArgs member names args = .ok slots → Placed names args slots) ∧
    (∀ slots, orderArgs member (params.map Param.name) args = .ok slots → ∃ us j, us 0 = { w with context } ∧
      j ≤ params.length ∧ BindsUpTo (.ofBudget n) (params.zip slots) j us ∧
      (∀ k ≤ j, (us k).context = context ∧ ∀ i < k, ∀ param, params[i]? = some param → (us k).Binds param.name) ∧
      (j = params.length ∧ RunsBody (.ofBudget n) context member span args w (us j) ∨
        ∃ param slot i v v', params[j]? = some param ∧ slots[j]? = some slot ∧
          FailsParam (.ofBudget n) member (params.filter fun p ↦ p.default.isNone).length args.length param slot (us j) i v ∧
          v.SameData v' ∧ SkipsBody (.ofBudget n) context member span args w i v')) ∧
    (∀ e values, orderArgs member (params.map Param.name) args = .error (e, values) →
      ∃ v, World.SameData { w with context } v ∧ SkipsBody (.ofBudget n) context member span args w (.raised e) v) ∧
    (∀ names, ((∃ values, (bindNative member names args w).1 = .ok values) ↔
        Placeable names args ∧ ∀ i < names.length, ∃ j, paramOf names args j = some i) ∧
      ∀ values w', bindNative member names args w = (.ok values, w') → w' = w ∧ Placed names args (values.map some)) := by
  obtain ⟨s, hvalid⟩ : ∃ s, Moment.Valid ⟨s, w⟩ := by
    obtain ⟨σ, hsane⟩ := hw.sane
    have hvalid := hsane.books.valid
    have hstarts : Starts w₀.setting σ.stack w₀ := ⟨hvalid, hvalid.current.symm, Nat.le_refl _, hw.deferred⟩
    obtain ⟨s, hjourney⟩ := hpasses.satisfies passing_journey σ.stack hstarts fun _ _ hk ↦ by cases hk
    exact ⟨s, hvalid.journey hjourney⟩
  refine ⟨fun names ↦ ⟨exists_orderArgs_iff member names args, fun slots h ↦ (orderArgs_eq_ok h).2⟩,
    fun slots hslots ↦ ?_, fun e values hrefused ↦ ?_,
    fun names ↦ ⟨exists_bindNative_iff member names args w, fun values w' hrun ↦ bindNative_eq_ok hrun⟩⟩
  · have hentered : Course none ⟨s, w⟩ ⟨s, { w with context := context }⟩ := .of_minds s rfl rfl rfl rfl
    obtain ⟨us, j, hstart, hj, hbinds, hbound, hends⟩ := bindParams_runs (hvalid.journey hentered.journey) hscope hparams hslots
    refine ⟨us, j, hstart, hj, hbinds, hbound, ?_⟩
    rcases hends with ⟨hlast, hrun⟩ | ⟨param, slot, i, v, v', hparam, hslot, hfails, hsame, hrun⟩
    · exact .inl ⟨hlast, .of_bound hrun⟩
    · exact .inr ⟨param, slot, i, v, v', hparam, hslot, hfails, hsame, .of_failed hrun⟩
  · refine ⟨_, .release { w with context := context } (values.map .object), .of_failed ?_⟩
    rw [bindParams, get_bind]
    exact bind_of_error (orderArgsOrRelease_of_error (hparams ▸ hrefused) _)

/-! ### Three parameters, the second left out -/

/-- The parameters "a", "b" and "c", where the default of "b" reads "a". -/
def Arena.defaulting : Arena where
  nodes := #[.ident "a"]
  params := #[⟨"a", none, none⟩, ⟨"b", none, some ⟨0⟩⟩, ⟨"c", none, none⟩]

def Context.defaulting : Context := { (World.new {}).context with arena := .defaulting }

theorem parameters_bound_in_order_defaulting : ∃ us, us 0 = { World.new {} with context := .defaulting } ∧
    BindsUpTo (.ofBudget 1) (Arena.defaulting.params.toList.zip [some .nil, none, some .nil]) 3 us ∧ (us 1).Binds "a" ∧
    RunsBody (.ofBudget 1) .defaulting "f" ⟨0, 3⟩ [(some "c", .nil), (none, .nil)] (.new {}) (us 3) := by
  have hpasses : Passes 0 (World.new {}).setting (pure () : Machine Unit) (.new {}) none (.new {}) := .here _ _
  have hscope : ((World.new {}).heap.scope? Context.defaulting.env.innermost).isSome := by decide +kernel
  have hparams : Context.defaulting.arena.paramsAt ⟨0, 3⟩ = Arena.defaulting.params.toList := rfl
  obtain ⟨-, hscripts, -, -⟩ := parameters_bound_in_order (.start {}) hpasses .defaulting hscope 1 "f" ⟨0, 3⟩ hparams
    [(some "c", .nil), (none, .nil)]
  obtain ⟨us, j, hstart, -, hbinds, hbound, hends⟩ := hscripts [some .nil, none, some .nil] rfl
  have hframed : (scriptFrame (.ofBudget 1) .defaulting "f" ⟨0, 3⟩ ⟨0⟩ [(some "c", .nil), (none, .nil)]
      (.new {})).1.toOption.isSome = true := by decide +kernel
  rcases hends with ⟨rfl, hruns⟩ | ⟨_, _, i, _, _, _, _, _, _, hskips⟩
  · exact ⟨us, hstart, hbinds, (hbound 1 (by decide)).2 0 (by decide) _ rfl, hruns⟩
  · rw [(hskips ⟨0⟩).2] at hframed
    cases hframed

end MindScript
