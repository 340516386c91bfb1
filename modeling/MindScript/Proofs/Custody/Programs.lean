import MindScript.Proofs.Calls.Exits
import MindScript.Proofs.Custody.Decent
import MindScript.Proofs.Custody.Members
import MindScript.Proofs.Custody.Updates

/-!
# Custody in host members

A running program names values by register.  The first registers are lent to it with its receiver and arguments; what
it acquires beyond them is in hand until it ends.
-/

namespace MindScript

open Machine
open World (Sane)

variable {α β : Type} {σ : Footing} {A G : List Link} {w : World} {E : Engine} {run : ProgramRun} {n : Nat}

theorem World.Sane.orderly (h : Sane σ A w) : Orderly σ.stack w :=
  ⟨h.books.valid, fun m hm ↦ (h.members m hm).polite⟩

/-! ### Registers -/

/-- The links that a program has acquired beyond its first registers. -/
def acquiredLinks (run : ProgramRun) (n : Nat) : List Link := (acquired run n).map .object

/-- The first registers of a run are lent. -/
structure ProgramRun.Lent (σ : Footing) (G : List Link) (n : Nat) (run : ProgramRun) : Prop where
  filled : n ≤ run.registers.size
  lends : ∀ r ∈ run.registers.toList.take n, σ.Lends G r

namespace ProgramRun.Lent

variable (hrun : run.Lent σ G n)

include hrun

theorem value (r : Reg) : σ.Lends (acquiredLinks run n ++ G) (run.value r) := by
  rw [ProgramRun.value, Array.getD_eq_getD_getElem?, ← Array.getElem?_toList]
  cases hr : run.registers.toList[r]? with
  | none => exact .inl rfl
  | some value =>
    have hmem := List.mem_of_getElem? hr
    rw [← List.take_append_drop n run.registers.toList, List.mem_append] at hmem
    rcases hmem with hlent | hacquired
    · exact (hrun.lends value hlent).mono fun _ hl ↦ List.mem_append_right _ hl
    · exact Footing.lends_of_mem (List.mem_append_left _ (List.mem_map.mpr ⟨value, by simp [acquired, hacquired], rfl⟩))

theorem values {rs : List Reg} : ∀ r ∈ run.values rs, σ.Lends (acquiredLinks run n ++ G) r := fun r hr ↦ by
  obtain ⟨i, -, rfl⟩ := List.mem_map.mp hr
  exact hrun.value i

theorem push (r : Ref) : (run.push r).2.Lent σ G n := by
  refine ⟨Nat.le_trans hrun.filled (by simp [ProgramRun.push]), fun r' hr' ↦ hrun.lends r' ?_⟩
  have hle : n ≤ run.registers.toList.length := by simpa using hrun.filled
  simpa [ProgramRun.push, List.take_append_of_le_length hle] using hr'

theorem count_push (r : Ref) (l : Link) : (acquiredLinks (run.push r).2 n).count l =
    Link.hits (.object r) l + (acquiredLinks run n).count l := by
  have hle : n ≤ run.registers.toList.length := by simpa using hrun.filled
  simp only [acquiredLinks, acquired, ProgramRun.push, Array.toList_push, List.drop_append_of_le_length hle,
    List.reverse_append, List.reverse_cons, List.reverse_nil, List.nil_append, List.cons_append, List.map_cons,
    count_cons_hits]

end ProgramRun.Lent

namespace Machine

theorem Yields.along_run {f : Machine α} {Q : α → World → Prop} (h : Yields σ G f w Q) :
    Yields σ G f w fun a w' ↦ Q a w' ∧ f w = (.ok a, w') := by
  unfold Yields at h ⊢
  rcases hf : f w with ⟨(e | _) | a, w'⟩ <;> rw [hf] at h
  · exact h
  · exact h
  · exact ⟨h, rfl⟩

theorem Looks.handleIn (run : ProgramRun) (r : Reg) : Looks (handleIn run r) w fun found ↦
    ∀ x, found = some x → w.heap.payload (run.value r) = .coroutine x := by
  refine .read ?_
  split
  · next x hx =>
    refine .pure fun x' hx' ↦ ?_
    cases hx'
    exact hx
  · exact .pure fun x' hx' ↦ by cases hx'

/-- What a request leaves: the registers and the payload are held as before, and classes told of are registered. -/
def Answers (σ : Footing) (G : List Link) (n : Nat) (op : Request) (p : op.Reply × ProgramRun) (w : World) : Prop :=
  Sane σ (acquiredLinks p.2 n ++ G) w ∧ p.2.Lent σ G n ∧ ∀ c, op.Teaches p.1 c → σ.Knows c

namespace Gives

theorem literal (h : Sane σ G w) (v : Literal) : Gives σ G (literal v) w fun r ↦ [.object r] := by
  cases v with
  | nil => exact nil h
  | boolean b => exact boolean h b
  | integer i => exact integer h i
  | real x => exact real h x
  | text s => exact string h s
  | symbol name => exact symbol h name

/-- A value comes into the next register. -/
theorem fill (hrun : run.Lent σ G n) {r : Ref} (h : Sane σ (.object r :: (acquiredLinks run n ++ G)) w) :
    Sane σ (acquiredLinks (run.push r).2 n ++ G) w ∧ (run.push r).2.Lent σ G n := by
  refine ⟨h.mono fun l ↦ ?_, hrun.push r⟩
  simp only [List.count_append, hrun.count_push r, count_cons_hits]
  omega

theorem keepResult {act : Machine Ref} (hrun : run.Lent σ G n)
    (hact : Gives σ (acquiredLinks run n ++ G) act w fun r ↦ [.object r]) :
    Yields σ G (keepResult run act) w fun p w' ↦ Sane σ (acquiredLinks p.2 n ++ G) w' ∧ p.2.Lent σ G n := by
  refine (attempt hact).bind (fun result w₁ h₁ ↦ ?_)
  cases result with
  | ok value => exact .pure (fill hrun h₁)
  | error e => exact .pure ⟨h₁.mono (.append_left _ _), hrun⟩

section

variable (hE : E.Careful)

include hE

theorem startValue {target : Ref} (h : Sane σ G w) (htarget : σ.Lends G target) (member : String) {rs : List Ref}
    (hrs : ∀ r ∈ rs, σ.Lends G r) (mind : MindId) (deferred : Bool) :
    Gives σ G (startValue E target member rs mind deferred) w fun r ↦ [.object r] := by
  refine (hostStart hE h htarget member hrs mind deferred).bind fun x w₁ h₁ ↦ ?_
  refine (handleValue (G := .outcome x.outcome :: G) h₁ (h₁.alive List.mem_cons_self)).bind fun value w₂ h₂ ↦ ?_
  exact (releaseLinks (L := [.outcome x.outcome]) (G := .object value :: G) (h₂.mono (by grind))).bind fun _ _ h₃ ↦ .pure h₃

/-- Every request leaves the registers held. -/
theorem perform (hrun : run.Lent σ G n) (h : Sane σ (acquiredLinks run n ++ G) w) {op : Request}
    (huses : op.Uses σ.Knows) : Yields σ G (perform E run op) w fun p w' ↦ Answers σ G n op p w' := by
  have hle : Within G (acquiredLinks run n ++ G) := .append_left _ _
  -- A request that leaves the registers alone, and one whose result is kept in a register.
  have hsame : ∀ {β : Type} {f : Machine β} {g : β → op.Reply},
      (∀ b c, op.Teaches (g b) c → σ.Knows c) → Gives σ (acquiredLinks run n ++ G) f w (fun _ ↦ []) →
      Yields σ G (do return (g (← f), run)) w fun p w' ↦ Answers σ G n op p w' :=
    fun hteach hf ↦ hf.bind fun b w₁ h₁ ↦ .pure ⟨h₁, hrun, hteach b⟩
  cases op with
  | literal v =>
    exact (literal h v).bind fun r w₁ h₁ ↦ .pure ⟨(fill hrun h₁).1, hrun.push r, fun _ hc ↦ hc.elim⟩
  | inspect r => exact .look (h.mono hle) (.payloadOf _) fun _ _ ↦ .pure ⟨h, hrun, fun _ hc ↦ hc.elim⟩
  | journal line => exact .modified (.pure ⟨h.unconcerned rfl rfl rfl rfl rfl rfl, hrun, fun _ hc ↦ hc.elim⟩)
  | defaultMind => exact .read (.pure ⟨h, hrun, fun _ hc ↦ hc.elim⟩)
  | createMind name =>
    exact hsame (fun _ _ hc ↦ hc.elim) (.modifyGet (h.createMind name))
  | classNamed name =>
    refine .read (.pure ⟨h, hrun, fun c hc ↦ ?_⟩)
    obtain ⟨i, hi, rfl⟩ := Option.map_eq_some_iff.mp hc
    have hlt := (Array.findIdx?_eq_some_iff_getElem.mp hi).1
    rwa [Footing.Knows, ← h.classes]
  | callDepth => exact .read (.pure ⟨h, hrun, fun _ hc ↦ hc.elim⟩)
  | pendingDestructors => exact .read (.pure ⟨h, hrun, fun _ hc ↦ hc.elim⟩)
  | collectGarbage => exact hsame (g := id) (fun _ _ hc ↦ hc.elim) (runDestructors hE h)
  | liveCount mind => exact .read (.pure ⟨h, hrun, fun _ hc ↦ hc.elim⟩)
  | update mind elapsed => exact hsame (g := id) (fun _ _ hc ↦ hc.elim) (update hE h mind elapsed)
  | notify mind event payload =>
    exact hsame (g := id) (fun _ _ hc ↦ hc.elim) (.modifyGet (h.notify mind event (h.alive_lent (hrun.value payload))))
  | stop r =>
    refine .look (h.mono hle) (.handleIn run r) fun found _ ↦ ?_
    cases found with
    | none => exact .pure ⟨h, hrun, fun _ hc ↦ hc.elim⟩
    | some x => exact .modified (.pure ⟨h.stop x, hrun, fun _ hc ↦ hc.elim⟩)
  | stopAll mind => exact .modified (.pure ⟨h.stopAll mind, hrun, fun _ hc ↦ hc.elim⟩)
  | stopFor r => exact .modified (.pure ⟨h.stopAllFor _, hrun, fun _ hc ↦ hc.elim⟩)
  | suspendMind mind =>
    exact .modified (.pure ⟨h.modifyMind mind (fun _ ↦ rfl) (fun _ ↦ rfl) (fun _ ↦ rfl) fun _ ↦ Nat.le_refl _, hrun,
      fun _ hc ↦ hc.elim⟩)
  | resumeMind mind =>
    exact .modified (.pure ⟨h.modifyMind mind (fun _ ↦ rfl) (fun _ ↦ rfl) (fun _ ↦ rfl) fun _ ↦ Nat.le_refl _, hrun,
      fun _ hc ↦ hc.elim⟩)
  | setUpdateInterval r seconds =>
    refine .look (h.mono hle) (.handleIn run r) fun found _ ↦ ?_
    cases found with
    | none => exact .pure ⟨h, hrun, fun _ hc ↦ hc.elim⟩
    | some x => exact .modified (.pure ⟨h.setUpdateInterval x seconds, hrun, fun _ hc ↦ hc.elim⟩)
  | startCoroutine target member args mind deferred =>
    exact (keepResult hrun (startValue hE h (hrun.value target) member hrun.values mind deferred)).mono
      (fun _ _ h₁ ↦ ⟨h₁.1, h₁.2, fun _ hc ↦ hc.elim⟩)
  | invokeMethod target member args =>
    exact (keepResult hrun (hostInvoke hE h (hrun.value target) member hrun.values)).mono
      (fun _ _ h₁ ↦ ⟨h₁.1, h₁.2, fun _ hc ↦ hc.elim⟩)
  | newInstance c args =>
    exact (keepResult hrun (hostNew hE huses h hrun.values)).mono
      (fun _ _ h₁ ↦ ⟨h₁.1, h₁.2, fun _ hc ↦ hc.elim⟩)
  | evaluate arena root =>
    exact (keepResult hrun (hostEvaluate hE h arena root)).mono
      (fun _ _ h₁ ↦ ⟨h₁.1, h₁.2, fun _ hc ↦ hc.elim⟩)
  | takeDelivered =>
    unfold Machine.perform
    dsimp only
    split
    · next payload hpayload =>
      have hrest : ProgramRun.Lent σ G n { run with delivered := none } := ⟨hrun.filled, hrun.lends⟩
      have htaken : Sane σ (.object payload :: (acquiredLinks { run with delivered := none } n ++ G)) w :=
        h.mono fun l ↦ by
          simp only [acquiredLinks, acquired, hpayload, Option.toList_some, Option.toList_none, List.append_nil,
            List.map_append, List.map_cons, List.map_nil, List.count_append, count_cons_hits, List.count_nil]
          omega
      obtain ⟨h₁, hrun₁⟩ := fill hrest htaken
      exact .pure ⟨h₁, hrun₁, fun _ hc ↦ hc.elim⟩
    · exact .pure ⟨h, hrun, fun _ hc ↦ hc.elim⟩
  | takeState => exact .pure ⟨h, ⟨hrun.filled, hrun.lends⟩, fun _ hc ↦ hc.elim⟩
  | setState s => exact .pure ⟨h, ⟨hrun.filled, hrun.lends⟩, fun _ hc ↦ hc.elim⟩

/-- A program leaves what it acquired in hand, and does not end with a loop exit. -/
theorem runProgram (hC : Civilized E) {program : Program α} (hprogram : program.Decent σ.Knows) (hrun : run.Lent σ G n)
    (h : Sane σ (acquiredLinks run n ++ G) w) : Yields σ G (runProgram E program run) w fun p w' ↦
      Sane σ (acquiredLinks p.2 n ++ G) w' ∧ p.2.Lent σ G n ∧ Contained p.1 := by
  induction program generalizing run w with
  | done result => exact .pure ⟨h, hrun, hprogram⟩
  | request op next ih =>
    refine (perform hE hrun h hprogram.1).along_run.bind (fun p w₁ ⟨⟨h₁, hrun₁, hteach⟩, hp⟩ ↦ ?_)
    obtain ⟨reply, run₁⟩ := p
    have hnext := hprogram.2 reply (allows_of_perform hC h.orderly hp)
    exact ih reply (hnext.mono fun c hc ↦ hc.elim id (hteach c)) hrun₁ h₁

omit hE in
theorem lent_given {this : Ref} {args : List Ref} (hthis : σ.Lends G this) (hargs : ∀ r ∈ args, σ.Lends G r)
    (delivered : Option Ref) (state : Option Stored) : ProgramRun.Lent σ G (this :: args).toArray.size
      { registers := (this :: args).toArray, delivered, state } := by
  refine ⟨Nat.le_refl _, fun r hr ↦ ?_⟩
  rcases List.mem_cons.mp (List.mem_of_mem_take hr) with rfl | hr
  · exact hthis
  · exact hargs r hr

omit hE in
theorem acquiredLinks_given (registers : Array Ref) (delivered : Option Ref) (state : Option Stored) :
    acquiredLinks { registers, delivered, state } registers.size = delivered.toList.map .object := by
  rw [acquiredLinks, acquired, List.drop_of_length_le (by simp)]
  rfl

/-- A host method hands over its result, and gives up what it acquired. -/
theorem runHost (hC : Civilized E) {program : Program Reg} (hprogram : program.Decent σ.Knows) (h : Sane σ G w)
    {this : Ref} {args : List Ref} (hthis : σ.Lends G this) (hargs : ∀ r ∈ args, σ.Lends G r) :
    Gives σ G (runHost E program this args) w fun r ↦ [.object r] := by
  have hstart : Sane σ (acquiredLinks { registers := (this :: args).toArray } (this :: args).toArray.size ++ G) w := by
    rw [acquiredLinks_given]
    exact h
  refine (runProgram hE hC hprogram (lent_given hthis hargs none none) hstart).bind (fun p w₁ ⟨h₁, hrun, hresult⟩ ↦ ?_)
  obtain ⟨result, run⟩ := p
  cases result with
  | ok r =>
    refine (share h₁ (h₁.alive_lent (hrun.value r))).bind (fun value w₂ h₂ ↦ ?_)
    exact (releaseAll (G := .object value :: G) (h₂.mono fun l ↦ by
      simp only [acquiredLinks, List.count_append, count_cons_hits, List.count_nil]
      omega)).bind fun _ _ h₃ ↦ .pure h₃
  | error e =>
    refine (releaseAll h₁).bind fun _ _ h₂ ↦ .raise ?_
    rw [EvalError.links_of_isLoopExit (hresult e rfl)]
    exact h₂

omit hE in
theorem wakeOf (hrun : run.Lent σ G n) (h : Sane σ (acquiredLinks run n ++ G) w) (wait : Waiting) :
    Gives σ (acquiredLinks run n ++ G) (wakeOf run wait) w Wake.links := by
  cases wait with
  | tick => exact .pure h
  | atTime t => exact .pure h
  | event name => exact .pure h
  | children => exact .pure h
  | frame r =>
    refine .look h (.handleIn run r) fun found hfound ↦ ?_
    cases found with
    | none => exact .pure h
    | some x =>
      have hlive := h.alive_of_payload (h.alive_lent (hrun.value r)) (hfound x rfl) (l := .outcome x.outcome)
        (by simp [Payload.links])
      exact (retainLink h hlive).bind fun _ _ h₁ ↦ .pure h₁

/-- One step of a host coroutine. -/
theorem pollHost (hC : Civilized E) {poll : PollInfo → Program Poll} (info : PollInfo)
    (hprogram : (poll info).Decent σ.Knows) {delivered : Option Ref}
    (h : Sane σ (delivered.toList.map .object ++ G) w) {this : Ref} {args : List Ref} (hthis : σ.Lends G this)
    (hargs : ∀ r ∈ args, σ.Lends G r) (state : Option Stored) :
    Gives σ G (pollHost E poll info this args delivered state) w fun p ↦ broughtBy Step.links p.1 := by
  have hstart : Sane σ (acquiredLinks { registers := (this :: args).toArray, delivered, state }
      (this :: args).toArray.size ++ G) w := by
    rw [acquiredLinks_given]
    exact h
  refine (runProgram hE hC hprogram (lent_given hthis hargs delivered state) hstart).bind
    (fun p w₁ ⟨h₁, hrun, hresult⟩ ↦ ?_)
  obtain ⟨result, run⟩ := p
  have hend : ∀ (step : Except EvalError Step) w', Sane σ (broughtBy Step.links step ++
      (acquiredLinks run (this :: args).toArray.size ++ G)) w' →
      Gives σ G (do
        Machine.releaseAll (acquired run (this :: args).toArray.size)
        return (step, run.state)) w' fun p ↦ broughtBy Step.links p.1 := fun step w' h' ↦
    (releaseAll (G := broughtBy Step.links step ++ G) (h'.mono fun l ↦ by
      simp only [acquiredLinks, List.count_append]
      omega)).bind fun _ _ h₂ ↦ .pure h₂
  match result with
  | .ok (.ready r) =>
    exact (share h₁ (h₁.alive_lent (hrun.value r))).bind (fun value w₂ h₂ ↦ hend (.ok (.done value)) w₂ h₂)
  | .ok (.pending wait) =>
    exact (wakeOf hrun h₁ wait).bind (fun wake w₂ h₂ ↦ hend (.ok (.suspend wake)) w₂ h₂)
  | .error e =>
    refine hend (.error e) w₁ ?_
    rw [broughtBy, EvalError.links_of_isLoopExit (hresult e rfl)]
    exact h₁

/-! ### Members -/

/-- A member takes its receiver and its arguments over. -/
theorem runMember (hC : Civilized E) {this : Ref} {m : Member} {args : ArgValues}
    (h : Sane σ (argLinks args ++ (.object this :: G)) w) (hm : m.body.Decent σ.Knows) :
    Gives σ G (runMember E this m args) w fun r ↦ [.object r] := by
  unfold Machine.runMember
  split
  · next arena params body _ =>
    have hthis : Sane σ (.object this :: (argLinks args ++ G)) w := h.mono (by grind)
    refine (Yields.newContext hthis arena m.owner).bind fun c w₁ h₁ ↦ ?_
    exact runScript hE (h₁.1.mono fun l ↦ by
      simp only [List.count_append]
      omega) h₁.2.1 _ _ _
  · next params code hbody =>
    rw [hbody] at hm
    have hnative : Gives σ ([this].map .object ++ G) (Machine.bindNative m.name params args) w fun values ↦
        values.map .object := bindNative h
    refine hnative.elseRelease.bind fun values w₁ h₁ ↦ ?_
    have hheld : Sane σ ((values ++ [this]).map .object ++ G) w₁ := h₁.mono (by grind)
    have hthis : σ.Lends ((values ++ [this]).map .object ++ G) this := Footing.lends_of_mem (by simp)
    have hvalues : ∀ r ∈ values, σ.Lends ((values ++ [this]).map .object ++ G) r := fun r hr ↦
      Footing.lends_of_mem (by simp [hr])
    refine thenRelease (L := values ++ [this]) ?_
    cases code with
    | core method => exact runCore hE hheld hthis hvalues method
    | host program => exact runHost hE hC hm hheld hthis hvalues
  · refine (releaseAll (L := args.map Prod.snd ++ [this]) (h.mono fun l ↦ ?_)).bind fun _ _ h₁ ↦ .raiseKind h₁ _
    simp only [argLinks, List.map_append, List.map_cons, List.map_nil, List.count_append, count_cons_hits, List.count_nil]
    omega

theorem invokeMember (hC : Civilized E) {this : Ref} {m : Member} {args : ArgValues}
    (h : Sane σ (argLinks args ++ (.object this :: G)) w) (hm : m.body.Decent σ.Knows) :
    Gives σ G (invokeMember E this m args) w fun r ↦ [.object r] := by
  have hheld : Sane σ ((args.map Prod.snd ++ [this]).map .object ++ G) w := h.mono fun l ↦ by
    simp only [argLinks, List.map_append, List.map_cons, List.map_nil, List.count_append, count_cons_hits, List.count_nil]
    omega
  refine .read (withInvocation hheld fun callStack h₁ ↦ runMember hE hC (h₁.mono fun l ↦ ?_) hm)
  simp only [argLinks, List.map_append, List.map_cons, List.map_nil, List.count_append, count_cons_hits, List.count_nil]
  omega

end

end Gives

end Machine

end MindScript
