import MindScript.Proofs.Custody.Writes

/-!
# What actions do with the hand

An action is run with a hand of which it takes a part over, and the rest is the caller's.  It yields what it is
described to if the hand grows by what the result carries; if it fails, the caller's part is still there, and beside
it the value of a loop exit.  Where the budget is used up in the middle, whatever the callers hold is still covered.

Descriptions go along with the ways in which actions are put together, so that an action is described from its parts.
-/

namespace MindScript

/-- The value of a loop exit travels with the error. -/
def EvalError.links (e : EvalError) : List Link := e.exit.toList.map .object

@[simp] theorem EvalError.links_ofKind (k : ErrorKind) : (ofKind k).links = [] := rfl

theorem EvalError.links_of_isLoopExit {e : EvalError} (h : e.isLoopExit = false) : e.links = [] := by
  cases hexit : e.exit with
  | none => simp [links, hexit]
  | some value => simp [isLoopExit, hexit] at h

theorem CallStack.links_attach (s : CallStack) (e : EvalError) : (s.attach e).links = e.links := by
  unfold attach
  split <;> rfl

namespace Machine

open World (Sane)

variable {α β : Type} {σ : Footing} {G H : List Link} {w : World}

/-- In this world the action comes to a result as described; the hand is the caller's. -/
def Yields (σ : Footing) (G : List Link) (f : Machine α) (w : World) (Q : α → World → Prop) : Prop :=
  match f w with
  | (.ok a, w') => Q a w'
  | (.error (.raised e), w') => Sane σ (e.links ++ G) w'
  | (.error .exhausted, w') => ∃ τ, Sane τ G w'

/-- The result brings links into the hand. -/
abbrev Gives (σ : Footing) (G : List Link) (f : Machine α) (w : World) (B : α → List Link) : Prop :=
  Yields σ G f w fun a w' ↦ Sane σ (B a ++ G) w'

/-- The links that come with a result or with an error. -/
def broughtBy (B : α → List Link) : Except EvalError α → List Link
  | .ok a => B a
  | .error e => e.links

namespace Yields

variable {f : Machine α} {F : α → Machine β} {Q : α → World → Prop} {R : β → World → Prop}

theorem of_ok {a : α} {w' : World} (h : f w = (.ok a, w')) (hQ : Q a w') : Yields σ G f w Q := by
  rw [Yields, h]
  exact hQ

theorem pure {a : α} (h : Q a w) : Yields σ G (pure a) w Q := h

theorem raise {e : EvalError} (h : Sane σ (e.links ++ G) w) : Yields σ G (raise e) w Q := h

theorem raiseKind (h : Sane σ G w) (k : ErrorKind) : Yields σ G (raiseKind k : Machine α) w Q := h

theorem exhausted (h : Sane σ G w) : Yields σ G (exhausted : Machine α) w Q := ⟨σ, h⟩

/-- After a change the world is known. -/
theorem modified {F : World → World} {f : Unit → Machine α} (h : Yields σ G (f ()) (F w) Q) :
    Yields σ G (modify F >>= f) w Q := h

theorem modify {F : World → World} {Q : Unit → World → Prop} (h : Q () (F w)) : Yields σ G (modify F) w Q := h

theorem modifyGet {F : World → α × World} (h : Q (F w).1 (F w).2) : Yields σ G (modifyGet F) w Q := h

theorem read {F : World → Machine α} (h : Yields σ G (F w) w Q) : Yields σ G (get >>= F) w Q := h

theorem mono [p : Part G H] (h : Yields σ H f w Q) {R : α → World → Prop} (hQ : ∀ a w', Q a w' → R a w') :
    Yields σ G f w R := by
  unfold Yields at h ⊢
  rcases hf : f w with ⟨(e | _) | a, w'⟩ <;> rw [hf] at h <;> dsimp only at h ⊢
  · exact h.mono (p.within.append e.links)
  · obtain ⟨τ, hτ⟩ := h
    exact ⟨τ, hτ.mono p.within⟩
  · exact hQ a w' h

/-- The caller's part of the hand may be smaller than what the first action was run with. -/
theorem bind [p : Part G H] (h : Yields σ H f w Q) (hF : ∀ a w', Q a w' → Yields σ G (F a) w' R) :
    Yields σ G (f >>= F) w R := by
  have hmono : Yields σ G f w Q := h.mono fun _ _ hQ ↦ hQ
  rw [Yields] at hmono
  rcases hf : f w with ⟨i | a, w'⟩
  · rw [hf] at hmono
    rw [Yields, bind_of_error hf]
    cases i <;> exact hmono
  · rw [hf] at hmono
    rw [Yields, bind_of_ok hf]
    exact hF a w' hmono

theorem map (h : Yields σ G f w Q) {g : α → β} {R : β → World → Prop} (hQ : ∀ a w', Q a w' → R (g a) w') :
    Yields σ G (g <$> f) w R := by
  rw [map_eq_pure_bind]
  exact h.bind (fun a w' ha ↦ pure (hQ a w' ha))

theorem attempt (h : Yields σ G f w Q) : Yields σ G (attempt f) w fun r w' ↦
    match r with
    | .ok a => Q a w'
    | .error e => Sane σ (e.links ++ G) w' := by
  rw [Yields] at h
  rcases hf : f w with ⟨(e | _) | a, w'⟩ <;> rw [hf] at h
  · rw [Yields, attempt_of_raised hf]
    exact h
  · rw [Yields, attempt_of_exhausted hf]
    exact h
  · rw [Yields, attempt_of_ok hf]
    exact h

/-- On failure what is held beside the action is given up. -/
theorem elseRelease {held : List Ref} (h : Yields σ (held.map .object ++ G) f w Q) :
    Yields σ G (elseRelease f held) w Q := by
  rw [Yields] at h
  rcases hf : f w with ⟨(e | _) | a, w'⟩ <;> rw [hf] at h <;> simp only [Yields, Machine.elseRelease, hf]
  · exact Sane.release (h.mono (by grind))
  · obtain ⟨τ, hτ⟩ := h
    exact ⟨τ, hτ.mono (by grind)⟩
  · exact h

/-- While an instance is under construction its maker holds on to it. -/
theorem building {r : Ref}
    (h : Yields { σ with building := r :: σ.building } G f w Q) : Yields σ G f w Q := by
  unfold Yields at h ⊢
  rcases hf : f w with ⟨(e | _) | a, w'⟩ <;> rw [hf] at h
  · exact h.built.mono (.append_left [_] _)
  · exact h
  · exact h

end Yields

namespace Gives

variable {f : Machine α} {B : α → List Link}

theorem attempt (h : Gives σ G f w B) : Gives σ G (attempt f) w (broughtBy B) :=
  (Yields.attempt h).mono (fun r w' hr ↦ by cases r <;> exact hr)

theorem ofExcept {r : Except EvalError α} (h : Sane σ (broughtBy B r ++ G) w) : Gives σ G (ofExcept r) w B := by
  cases r <;> exact h

/-- What is held beside the action is given up, whether or not the action fails. -/
theorem thenRelease {L : List Ref} (h : Gives σ (L.map .object ++ G) f w B) :
    Gives σ G (thenRelease f L) w B := by
  unfold Gives at h ⊢
  rw [Yields] at h
  rcases hf : f w with ⟨(e | _) | a, w'⟩ <;> rw [hf] at h <;> simp only [Yields, Machine.thenRelease, hf]
  · exact Sane.release (h.mono (by grind))
  · obtain ⟨τ, hτ⟩ := h
    exact ⟨τ, hτ.mono (by grind)⟩
  · exact Sane.release (h.mono (by grind))

theorem releaseLinks {L : List Link} (h : Sane σ (L ++ G) w) : Gives σ G (releaseLinks L) w fun _ ↦ [] :=
  Yields.modify h.release

theorem releaseAll {L : List Ref} (h : Sane σ (L.map .object ++ G) w) : Gives σ G (releaseAll L) w fun _ ↦ [] :=
  releaseLinks h

theorem release {r : Ref} (h : Sane σ (.object r :: G) w) : Gives σ G (release r) w fun _ ↦ [] :=
  releaseLinks (L := [.object r]) h

theorem retainLink {l : Link} (h : Sane σ G w) (hl : w.heap.Alive l) : Gives σ G (retainLink l) w fun _ ↦ [l] :=
  Yields.modify (h.retain hl)

theorem retain {r : Ref} (h : Sane σ G w) (hr : w.heap.Alive (.object r)) :
    Gives σ G (retain r) w fun _ ↦ [.object r] :=
  retainLink h hr

theorem share {r : Ref} (h : Sane σ G w) (hr : w.heap.Alive (.object r)) :
    Gives σ G (share r) w fun value ↦ [.object value] :=
  (retain h hr).bind fun _ _ h₁ ↦ .pure h₁

/-! ### Other contexts and invocations -/

/-- The links that an action in another context leaves: its result or its error, and the context. -/
def afterContext (B : α → List Link) (p : Except EvalError α × Context) : List Link := broughtBy B p.1 ++ p.2.links

/-- An action runs in another context while the caller keeps its own in hand. -/
theorem withContext {c : Context} (hrooted : w.context.Rooted) (hthis : w.context.this = σ.this)
    (hact : Gives { σ with this := c.this } (w.context.links ++ G) f { w with context := c } B) :
    Yields σ G (withContext c f) w fun p w' ↦ Sane σ (afterContext B p ++ G) w' ∧ p.2.Rooted ∧ p.2.this = c.this := by
  have hback : ∀ (r : Except EvalError α) w', Sane { σ with this := c.this } (broughtBy B r ++ (w.context.links ++ G)) w' →
      Sane σ (afterContext B (r, w'.context) ++ G) { w' with context := w.context } ∧ w'.context.Rooted ∧
        w'.context.this = c.this := by
    intro r w' h
    refine ⟨?_, h.rooted, h.this⟩
    have hset := h.setContext (B := afterContext B (r, w'.context) ++ G) hrooted fun l ↦ by
      simp only [afterContext, List.count_append]
      omega
    rwa [hthis] at hset
  have hattempt := Gives.attempt hact
  unfold Gives Yields at hattempt
  rcases hrun : Machine.attempt f { w with context := c } with ⟨(e | _) | r, w'⟩ <;> rw [hrun] at hattempt
  · exact absurd (congrArg Prod.fst hrun) (Calm.attempt f _ e)
  · obtain ⟨τ, hτ⟩ := hattempt
    have hwith : Machine.withContext c f w = (.error .exhausted, w') := by
      rw [Machine.withContext, get_bind, bind_of_ok (modify_apply _ w)]
      exact bind_of_error hrun
    rw [Yields, hwith]
    exact ⟨τ, hτ.mono (by grind)⟩
  · have hwith : Machine.withContext c f w = (.ok (r, w'.context), { w' with context := w.context }) := by
      rw [Machine.withContext, get_bind, bind_of_ok (modify_apply _ w)]
      exact bind_of_ok hrun
    exact .of_ok hwith (hback r w' hattempt)

/-- An action runs in an invocation, or at the limit of the call stack not at all. -/
theorem withInvocation {i : Invocation} {L : List Ref} (h : Sane σ (L.map .object ++ G) w)
    (hact : ∀ callStack, Sane σ (L.map .object ++ G) { w with callStack } → Gives σ G f { w with callStack } B) :
    Gives σ G (withInvocation i L f) w B := by
  refine .read ?_
  split
  · next e he =>
    refine (releaseAll h).bind fun _ _ h₁ ↦ .raise ?_
    rwa [EvalError.links_of_isLoopExit (CallStack.isLoopExit_of_push he)]
  · next callStack _ =>
    have hstack : ∀ {hand w} callStack, Sane σ hand w → Sane σ hand { w with callStack } :=
      fun _ h ↦ h.unconcerned rfl rfl rfl rfl rfl rfl
    refine Yields.bind (H := G) (Q := fun _ w₁ ↦ w₁ = { w with callStack }) (.modify rfl) ?_
    rintro - _ rfl
    refine (Gives.attempt (hact callStack (hstack callStack h))).bind fun r w₁ h₁ ↦ .read ?_
    refine Yields.bind (H := G) (Q := fun _ w₂ ↦ Sane σ (broughtBy B r ++ G) w₂) (.modify (hstack _ h₁)) (fun _ w₂ h₂ ↦ ?_)
    cases r with
    | ok a => exact .pure h₂
    | error e =>
      refine .raise ?_
      rwa [CallStack.links_attach]

end Gives

/-! ### Actions that only look -/

/-- The action leaves the world as it is and tells something about it; what it fails with carries no value. -/
def Looks (f : Machine α) (w : World) (P : α → Prop) : Prop :=
  match f w with
  | (.ok a, w') => w' = w ∧ P a
  | (.error (.raised e), w') => w' = w ∧ e.links = []
  | (.error .exhausted, _) => False

namespace Looks

variable {f : Machine α} {F : α → Machine β} {P : α → Prop} {Q : β → Prop}

theorem pure {a : α} (h : P a) : Looks (pure a) w P := ⟨rfl, h⟩

theorem raiseKind (k : ErrorKind) : Looks (raiseKind k) w P := ⟨rfl, rfl⟩

theorem read {F : World → Machine α} (h : Looks (F w) w P) : Looks (get >>= F) w P := h

theorem bind (h : Looks f w P) (hF : ∀ a, P a → Looks (F a) w Q) : Looks (f >>= F) w Q := by
  unfold Looks at h
  rcases hf : f w with ⟨(e | _) | a, w'⟩ <;> rw [hf] at h
  · obtain ⟨rfl, he⟩ := h
    rw [Looks, bind_of_error hf]
    exact ⟨rfl, he⟩
  · exact h.elim
  · obtain ⟨rfl, ha⟩ := h
    rw [Looks, bind_of_ok hf]
    exact hF a ha

theorem mono (h : Looks f w P) {P' : α → Prop} (hP : ∀ a, P a → P' a) : Looks f w P' := by
  unfold Looks at h ⊢
  rcases hf : f w with ⟨(e | _) | a, w'⟩ <;> rw [hf] at h
  · exact h
  · exact h
  · exact ⟨h.1, hP a h.2⟩

theorem ofExcept {r : Except EvalError α} (h : ∀ e, r = .error e → e.links = []) :
    Looks (ofExcept r) w fun a ↦ r = .ok a := by
  cases r with
  | ok a => exact ⟨rfl, rfl⟩
  | error e => exact ⟨rfl, h e rfl⟩

theorem typeMismatch (expected : String) (value : Ref) : Looks (typeMismatch expected value : Machine α) w P :=
  read (raiseKind _)

end Looks

namespace Yields

variable {f : Machine α} {F : α → Machine β} {P : α → Prop} {Q : α → World → Prop} {R : β → World → Prop}

theorem of_looks (h : Sane σ G w) (hf : Looks f w P) (hQ : ∀ a, P a → Q a w) : Yields σ G f w Q := by
  unfold Looks at hf
  rcases hrun : f w with ⟨(e | _) | a, w'⟩ <;> rw [hrun] at hf
  · obtain ⟨rfl, he⟩ := hf
    rw [Yields, hrun]
    dsimp only
    rwa [he]
  · exact hf.elim
  · obtain ⟨rfl, ha⟩ := hf
    exact of_ok hrun (hQ a ha)

/-- What is looked up is known in what follows. -/
theorem look (h : Sane σ G w) (hf : Looks f w P) (hF : ∀ a, P a → Yields σ G (F a) w R) :
    Yields σ G (f >>= F) w R := by
  refine bind (Q := fun a w' ↦ w' = w ∧ P a) (of_looks h hf fun a ha ↦ ⟨rfl, ha⟩) (fun a w' ⟨hw, ha⟩ ↦ ?_)
  rw [hw]
  exact hF a ha

/-- What is held while something is looked up is given up if that fails. -/
theorem lookElse {L : List Ref} (h : Sane σ (L.map .object ++ G) w) (hf : Looks f w P)
    (hF : ∀ a, P a → Yields σ G (F a) w R) : Yields σ G (Machine.elseRelease f L >>= F) w R := by
  refine bind (Q := fun a w' ↦ w' = w ∧ P a) (elseRelease (of_looks h hf fun a ha ↦ ⟨rfl, ha⟩))
    (fun a w' ⟨hw, ha⟩ ↦ ?_)
  rw [hw]
  exact hF a ha

end Yields

end Machine

end MindScript
