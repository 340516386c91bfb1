import MindScript.Proofs.Custody.Handing
import MindScript.Proofs.Custody.Notes

/-!
# Failures, in reached worlds

Whatever hosts and native members do, each Mind has noted the last of its frames that have failed, and nobody hides on whose
account a frame has failed.
-/

namespace MindScript

open Machine

/-- Every world that is reached comes about by what happens in an interpreter. -/
theorem Reached.occurs {owned : List Link} {w : World} (h : Reached owned w) :
    ∃ config s, Relation.ReflTransGen Occurs ⟨[], .new config⟩ ⟨s, w⟩ := by
  obtain ⟨l, s, hl⟩ := h.owing ⟨0⟩
  obtain ⟨config, hpast⟩ := hl.occurs
  exact ⟨config, s, hpast⟩

/-- Every world that is reached comes about by what happens in an interpreter.  In all that happens, the notes of a Mind are
the records of those of its frames that have failed since the notes were last taken: one for each frame, in the order in which
they failed, and the last 1024 of them.  A record bears the error that is stored with the handle of its frame, and that error
names an origin.  And when the failure of a frame is handed on to frames that do not catch it, they all fail, and their errors
have the kind, the message and the origin of the first one.

The notes are taken by the calls for them and by nothing else.  What is owed can be told along every history of calls: a call
for the notes clears it, and every other call adds those that fail in it, with all that were there and have failed in the
end, and none that had failed before. -/
theorem failures_noted_and_handed_on :
    (∀ owned w, Reached owned w → ∃ config s, Relation.ReflTransGen Occurs ⟨[], .new config⟩ ⟨s, w⟩) ∧
      (∀ owned w, Reached owned w → ∀ m, ∃ l s, Owing m l owned ⟨s, w⟩) ∧
      (∀ m l owned M, Owing m l owned M → Reached owned M.world ∧ Toll m l M ∧
        (∃ config, Relation.ReflTransGen Occurs ⟨[], .new config⟩ M) ∧
        ∀ owned' w', Reached.Step owned M.world owned' w' → ∃ xs s, Owing m (l ++ xs) owned' ⟨s, w'⟩ ∧
          (∀ x, World.Fails m x M.world w' → x ∈ xs) ∧
          ∀ x ∈ xs, M.world.status x ≠ .failed ∧ w'.status x = .failed) ∧
      ∀ config M, Relation.ReflTransGen Occurs ⟨[], .new config⟩ M →
        (∀ m, ∃ l, Toll m l M) ∧
        (∀ m l, Toll m l M → l.Nodup ∧ ∃ rs, List.Forall₂ M.world.Records l rs ∧ M.world.failures m = rs.rtake 1024) ∧
        ∀ x₀ x e₀, M.world.FailedWith x₀ e₀ → Relation.ReflTransGen M.world.HandsOn x₀ x →
          ∃ e, M.world.FailedWith x e ∧ e₀.Agrees e :=
  ⟨fun _ _ h ↦ h.occurs, fun _ _ h ↦ h.owing,
    fun _ _ _ _ howing ↦ ⟨howing.reached, howing.toll, howing.occurs, fun _ _ ↦ howing.exists_step⟩,
    fun config _ hrun ↦
      ⟨fun m ↦ (Toll.start (m := m) config).exists_after hrun, fun _ _ htoll ↦ htoll.notes, fun _ _ _ h₀ h ↦ h₀.handed h⟩⟩

/-! ### A call of nil in a concurrent group -/

/-- A group of one branch, which invokes nil. -/
def Arena.concurrentFailure : Arena where
  nodes := #[.nil, .invoke ⟨0⟩ .empty, .concurrent .sync ⟨0, 1⟩]
  durational := #[false, true, true]
  lists := #[⟨1⟩]

def Frame.concurrentFailure : Frame :=
  .script { arena := .concurrentFailure, env := default, this := .nil, thisClass := Core.object } ⟨2⟩

/-- A script that awaits the group has just been registered with a new interpreter. -/
def World.concurrentFailure : World := ((World.new {}).register ⟨0⟩ "parent" Core.object none Frame.concurrentFailure).2

/-- The script has made its first step. -/
def World.handedOn : World := ((Engine.ofBudget 7).resume ⟨0⟩ ⟨0, 0⟩ .concurrentFailure).2

theorem World.handsOn_handedOn : ∃ x p, World.handedOn.HandsOn x p := by
  let entry : FrameEntry := (World.concurrentFailure.entryAt ⟨0⟩ ⟨0, 0⟩).getD default
  let frame : Frame := { Frame.concurrentFailure with startedAt := 0 }
  let i : Invocation := ⟨World.concurrentFailure.classes.nameOf entry.owner, entry.handle.name⟩
  let callStack : CallStack := { World.concurrentFailure.callStack with invocations := .ofList [i] }
  let w : World := { World.concurrentFailure.takeFrame ⟨0⟩ ⟨0, 0⟩ entry frame with callStack }
  have hspawned : ((spawnGroup (.ofBudget 6) .sync ⟨0, 1⟩ w).1.toOption.any fun x ↦
      (spawnGroup (.ofBudget 6) .sync ⟨0, 1⟩ w).2.status x == .failed) = true := by
    decide +kernel
  rcases hspawn : spawnGroup (.ofBudget 6) .sync ⟨0, 1⟩ w with ⟨_ | x, u⟩
  · rw [hspawn] at hspawned
    cases hspawned
  rw [hspawn] at hspawned
  have hreachable : Reachable ⟨[], .concurrentFailure⟩ :=
    (Reachable.start {}).act (.register "parent" Core.object Frame.concurrentFailure (by decide) fun p hp ↦ by cases hp)
  have he : World.concurrentFailure.entryAt ⟨0⟩ ⟨0, 0⟩ = some entry := rfl
  have hframe : entry.frame = some frame := rfl
  have hpush : World.concurrentFailure.callStack.push i = .ok callStack := rfl
  have hmeets : frame.Meets (.ofBudget 6) ⟨0⟩ ⟨0, 0⟩ x w :=
    .awaits rfl (.fails (.concurrent rfl rfl hspawn) (beq_iff_eq.mp hspawned) fun e _ t ht ↦ by cases ht)
  exact ⟨x, entry.handle, .step hreachable he rfl hframe hpush hmeets .refl⟩

theorem World.occurs_handedOn : Relation.ReflTransGen Occurs ⟨[], .new {}⟩ ⟨[], .handedOn⟩ := by
  have hregister : Occurs ⟨[], .new {}⟩ ⟨[], .concurrentFailure⟩ := .act
    (.register "parent" Core.object Frame.concurrentFailure (by decide) fun p hp ↦ by cases hp)
      fun _ ↦ .register (.new {}) ⟨0⟩ "parent" Core.object none Frame.concurrentFailure
  obtain ⟨s, hresume, hs⟩ := (Engine.satisfies_ofBudget (Traced.compositional tracing_untaken) 7).resume
    ⟨none, 0, true, none⟩ ⟨0⟩ ⟨0, 0⟩ [] .concurrentFailure ((valid_new {}).act hregister.toAct) rfl (Nat.zero_le _)
  have hends : ((Engine.ofBudget 7).resume ⟨0⟩ ⟨0, 0⟩ .concurrentFailure).1.toBool = true := by decide +kernel
  obtain rfl := hs fun heq ↦ by
    rw [heq] at hends
    cases hends
  exact .head hregister (Untaken.occurs_of_way hresume)

/-- The branch, the group and the script have failed, in this order and alike. -/
theorem failures_noted_and_handed_on_concurrentFailure :
    (∃ l rs, Toll ⟨0⟩ l ⟨[], .handedOn⟩ ∧ l.length = 3 ∧ List.Forall₂ World.handedOn.Records l rs ∧
      World.handedOn.failures ⟨0⟩ = rs) ∧
    ∃ x p e e', World.handedOn.HandsOn x p ∧ World.handedOn.FailedWith x e ∧ World.handedOn.FailedWith p e' ∧ e.Agrees e' := by
  have hoccurs := World.occurs_handedOn
  have hthree : (World.handedOn.failures ⟨0⟩).length = 3 := by decide +kernel
  have hhands := World.handsOn_handedOn
  -- Nothing else is used of the world, and no step below is to compute it.
  generalize World.handedOn = w at hoccurs hthree hhands ⊢
  obtain ⟨htoll, hnoted, hhanded⟩ := failures_noted_and_handed_on.2.2.2 {} ⟨[], w⟩ hoccurs
  obtain ⟨l, hl⟩ := htoll ⟨0⟩
  obtain ⟨-, rs, hrs, hfailures⟩ := hnoted ⟨0⟩ l hl
  have hall : rs.rtake 1024 = rs := rtake_of_length_lt (by rw [← hfailures, hthree]; decide)
  have hlength : rs.length = 3 := by rw [← hall, ← hfailures, hthree]
  obtain ⟨x, p, hhands⟩ := hhands
  obtain ⟨e, -, hx, -, -⟩ := hhands.agrees
  obtain ⟨e', hp, hagrees⟩ := hhanded x p e hx (.single hhands)
  exact ⟨⟨l, rs, hl, hrs.length_eq.trans hlength, hrs, hfailures.trans hall⟩, x, p, e, e', hhands, hx, hp, hagrees⟩

end MindScript
