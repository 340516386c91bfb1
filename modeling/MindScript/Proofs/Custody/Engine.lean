import MindScript.Proofs.Custody.Steps

/-!
# Runs that are stopped in the middle

An engine may be made to stop at any of its calls, as if its budget were used up there.  What such a run leaves behind
is the world in the middle of the run that goes on.  Every call of an engine keeps custody whether or not it stops, so
what holds of sane worlds holds in the middle of runs too.
-/

namespace MindScript

open Machine

/-- Stop in a world of a certain kind. -/
def Machine.unless {α : Type} (stop : World → Bool) (f : Machine α) : Machine α := do
  if stop (← get) then exhausted else f

/-- The engine of a budget, stopping at the first call in a world of a certain kind. -/
def Engine.pausing (stop : World → Bool) : Nat → Engine
  | 0 => .empty
  | n + 1 => {
      budget := n
      eval := fun id ↦ Machine.unless stop (evalNode (pausing stop n) id)
      invoke := fun this m args ↦ Machine.unless stop (invokeMember (pausing stop n) this m args)
      resume := fun m id ↦ Machine.unless stop (resumeFrame (pausing stop n) m id) }

/-- Without such a world the run goes on to its end. -/
theorem Engine.pausing_never (n : Nat) : Engine.pausing (fun _ ↦ false) n = .ofBudget n := by
  induction n with
  | zero => rfl
  | succ n ih =>
    rw [pausing, ofBudget, ih]
    rfl

variable {α : Type} {stop : World → Bool} {f : Machine α}

/-- A run that is not stopped is the run of the budget. -/
theorem Engine.refines_pausing (stop : World → Bool) (n : Nat) : (Engine.pausing stop n).Refines (.ofBudget n) := by
  have hunless : ∀ {σ : Setting} {α : Type} {f g : Machine α}, Machine.Refines σ f g →
      Machine.Refines σ (Machine.unless stop f) g := by
    intro σ α f g h w w₁ r w' hw hs hrun hne
    rw [Machine.unless, get_bind] at hrun
    split at hrun
    · exact absurd (Prod.mk.inj hrun).1.symm hne
    · exact h hw hs hrun hne
  induction n with
  | zero => exact Engine.refines_ofBudget (Nat.le_refl 0)
  | succ n ih =>
    exact ⟨Nat.le_refl n, fun _ id ↦ hunless ((Alike.evalNode ih.budget id).refines ih),
      fun _ this m args ↦ hunless ((Alike.invokeMember ih.budget this m args).refines ih),
      fun σ m id ↦ hunless (ih.resumeFrame σ m id)⟩

theorem Engine.satisfies_pausing {J : ∀ {α : Type}, Setting → Machine α → Prop} (hJ : Compositional J)
    (stop : World → Bool) (n : Nat) : (Engine.pausing stop n).Satisfies J := by
  have hunless : ∀ {σ : Setting} {α : Type} {f : Machine α}, J σ f → J σ (Machine.unless stop f) := by
    intro σ α f hf
    refine hJ.look fun w ↦ ?_
    split
    · exact hJ.unchanged fun _ ↦ rfl
    · exact hf
  induction n with
  | zero => exact Engine.satisfies_ofBudget hJ 0
  | succ n ih =>
    have hle : (Engine.pausing stop n).budget ≤ (Engine.pausing stop n).budget := Nat.le_refl _
    exact ⟨fun _ id ↦ hunless ((Alike.evalNode hle id).compositional hJ ih),
      fun _ this m args ↦ hunless ((Alike.invokeMember hle this m args).compositional hJ ih),
      fun _ m id ↦ hunless (hJ.resumeFrame ih m id)⟩

namespace Machine

theorem Calm.unless (hf : Calm f) (stop : World → Bool) : Calm (Machine.unless stop f) := by
  refine .read fun w ↦ ?_
  split
  · exact .exhausted
  · exact hf

theorem Civil.unless (hf : Civil f) (stop : World → Bool) : Civil (Machine.unless stop f) := by
  refine ⟨fun s w hw ↦ ?_⟩
  rw [Machine.unless, get_bind]
  split
  · exact Calm.exhausted.sealed.fails w
  · exact hf.fails s w hw

theorem Gives.unless {σ : Footing} {G : List Link} {w : World} {B : α → List Link} (h : World.Sane σ G w)
    (hf : Gives σ G f w B) : Gives σ G (Machine.unless stop f) w B := by
  refine .read ?_
  split
  · exact .exhausted h
  · exact hf

end Machine

theorem Engine.civilized_pausing (stop : World → Bool) (n : Nat) : Civilized (.pausing stop n) := by
  induction n with
  | zero => exact civilized_ofBudget 0
  | succ n ih =>
    exact ⟨satisfies_pausing (Along.compositional World.NoNewMembers.lasting) stop (n + 1),
      fun m id ↦ (Calm.resumeFrame _ m id).unless stop, fun this m args hm ↦ (civil_invokeMember ih this args hm).unless stop⟩

/-- Every call of an engine takes over and hands over what it is said to, wherever it stops. -/
theorem Engine.careful_pausing (stop : World → Bool) (n : Nat) : (Engine.pausing stop n).Careful := by
  induction n with
  | zero =>
    exact ⟨fun _ h ↦ .exhausted h, fun _ _ _ h _ ↦ .exhausted (h.mono (by grind)), fun _ _ h ↦ .exhausted h⟩
  | succ n ih =>
    have hcivil := civilized_pausing stop n
    exact ⟨fun id h ↦ .unless h (.evalNode ih h id),
      fun this m args h hm ↦ .unless (h.mono (by grind)) (.invokeMember ih hcivil h hm),
      fun m id h ↦ .unless h (.resumeFrame ih hcivil h m id)⟩

theorem Engine.careful_ofBudget (n : Nat) : (Engine.ofBudget n).Careful := pausing_never n ▸ careful_pausing _ n

end MindScript
