import MindScript.Proofs.Continuation.Results
import MindScript.Proofs.Custody.Recoveries
import MindScript.Proofs.Expr.Durational

/-!
# The values of scripts, in reached worlds

A script that can run is at a stage of its body.  So in each world that is reached, its tasks find their operands, its
expressions have left one value each, and its loops have left nothing behind in their rounds; and where it comes to a value, it
comes to that value alone.
-/

namespace MindScript

open Machine

/-- Lists are stored before the nodes that name them. -/
theorem Arena.Built.closed {a : Arena} (h : a.Built) : a.Closed := by
  intro id itemClass items hnode
  have hid : id.index < a.size := by
    by_contra hle
    rw [Arena.node, Array.getD, dif_neg (show ¬ id.index < a.nodes.size from hle)] at hnode
    cases hnode
  obtain ⟨children, hchildren⟩ := h.marked.flagged id hid
  have hstored := hchildren.stored
  rw [hnode] at hstored
  simp only [children?, slice?] at hstored
  split at hstored
  · assumption
  · cases hstored

variable {owned : List Link} {w : World}

/-- In each stage that a body gets to, the next task finds its operands on the value stack and needs nothing below them; an
expression that is done has left one value on those that were there before it; each round of a loop starts with the values with
which the loop was entered; and a body that is done has left one value.  In all that a call passes, the rest of a script is a
stage of a body, and a run of it that comes to a value has left that one.  The lists that the nodes name lie in the arena, as
they do in every arena that is built. -/
theorem expressions_leave_one_value (hw : Reached owned w) {n : ℕ} {α : Type} {f : Machine α} {key : Option FrameKey}
    {v : World} (hpasses : Passes n w.setting f w key v) {m : MindId} {id : FrameId} {entry : FrameEntry} {frame : Frame}
    {rest : Continuation} (he : v.entryAt m id = some entry) (hframe : entry.frame = some frame)
    (hbody : frame.body = .script rest) (hclosed : frame.context.arena.Closed) :
    (∀ body e₀ past s, Unfolds frame.context.arena body e₀ past s → s.Orderly frame.context.arena past) ∧
      ∃ body e₀ past, Unfolds frame.context.arena body e₀ past ⟨rest, frame.context.env⟩ ∧
        ∀ (E : Engine) (j : ℕ) u k value u', E.Balanced → u.Rooted → u.context = frame.context →
          runTasks E frame.context.arena j rest u = (.ok (k, .ok (.done value)), u') →
          ∃ past' env, Unfolds frame.context.arena body e₀ past' ⟨⟨[], .ofList [value]⟩, env⟩ := by
  obtain ⟨s, -, hstands⟩ := hw.passes Frame.standing_unfolding hpasses
  obtain ⟨body, e₀, past, hunfolds⟩ := hstands m id entry frame he hframe rest hbody hclosed
  refine ⟨fun _ _ _ _ h ↦ h.orderly hclosed, body, e₀, past, hunfolds, fun E j u k value u' hE hu hcontext hrun ↦ ?_⟩
  rw [← hcontext] at hunfolds hclosed hrun ⊢
  exact hunfolds.done hclosed hE hu rfl hrun

/-! ### A loop that is left after a failure -/

/-- A loop: exit with nil, once the failure of a call of nil has been caught. -/
def Arena.loopAroundGuard : Arena where
  nodes := #[.nil, .invoke ⟨0⟩ .empty, .guarded ⟨1⟩ "message" ⟨0⟩, .loopExit (some ⟨2⟩), .loop ⟨3⟩]
  durational := #[false, true, true, true, true]

theorem Arena.built_loopAroundGuard : Arena.loopAroundGuard.Built := by
  have hnil : Built { nodes := #[.nil], durational := #[false] } := Built.empty.node rfl (by decide) rfl
  have hinvoke : Built { nodes := #[.nil, .invoke ⟨0⟩ .empty], durational := #[false, true] } :=
    hnil.node (n := .invoke ⟨0⟩ .empty) rfl (by decide) rfl
  have hguarded : Built {
      nodes := #[.nil, .invoke ⟨0⟩ .empty, .guarded ⟨1⟩ "message" ⟨0⟩]
      durational := #[false, true, true] } := hinvoke.node (n := .guarded ⟨1⟩ "message" ⟨0⟩) rfl (by decide) rfl
  exact (hguarded.node (n := .loopExit (some ⟨2⟩)) rfl (by decide) rfl).node (n := .loop ⟨3⟩) rfl (by decide) rfl

def Frame.loopAroundGuard : Frame :=
  .script { arena := .loopAroundGuard, env := default, this := .nil, thisClass := Core.object } ⟨4⟩

/-- The loop has just been registered with a new interpreter. -/
def World.loopAroundGuard : World :=
  ((World.new {}).register ⟨0⟩ "loop" Core.object none Frame.loopAroundGuard).2

/-- The loop is about to run. -/
def World.aboutToLoop : World := { World.loopAroundGuard with context := Frame.loopAroundGuard.context }

theorem runTasks_aboutToLoop : ∃ u, runTasks (.ofBudget 1) .loopAroundGuard 12 (.new ⟨4⟩) .aboutToLoop =
    (.ok ({ tasks := [] }, .ok (.done .nil)), u) := ⟨_, rfl⟩

theorem expressions_leave_one_value_loopAroundGuard :
    (∀ body e₀ past s, Unfolds .loopAroundGuard body e₀ past s → s.Orderly .loopAroundGuard past) ∧
      ∃ body e₀ past env, Unfolds .loopAroundGuard body e₀ past ⟨⟨[], .ofList [.nil]⟩, env⟩ := by
  have hpasses : Passes 1 (World.new {}).setting (registerFrame ⟨0⟩ "loop" Core.object none .loopAroundGuard >>= fun h ↦
      (Engine.ofBudget 1).resume ⟨0⟩ h.frame >>= fun _ ↦ pure h) (World.new {}) (some (⟨0⟩, ⟨0, 0⟩)) .loopAroundGuard :=
    .spawns ⟨0⟩ "loop" Core.object none .loopAroundGuard (by decide) (fun p hp ↦ by cases hp) (.script _ _) rfl
  let entry : FrameEntry := (World.loopAroundGuard.entryAt ⟨0⟩ ⟨0, 0⟩).getD default
  have he : World.loopAroundGuard.entryAt ⟨0⟩ ⟨0, 0⟩ = some entry := rfl
  have hframe : entry.frame = some { Frame.loopAroundGuard with startedAt := 0 } := rfl
  obtain ⟨horderly, body, e₀, past, -, hends⟩ :=
    expressions_leave_one_value (.start {}) hpasses he hframe rfl Arena.built_loopAroundGuard.closed
  have hw : World.aboutToLoop.Rooted := ⟨fun _ _ h ↦ (by cases h), fun m hm ↦ (by cases hm; decide)⟩
  obtain ⟨u, hrun⟩ := runTasks_aboutToLoop
  obtain ⟨past', env, hdone⟩ := hends _ _ _ _ _ _ (Engine.balanced_ofBudget 1) hw rfl hrun
  exact ⟨horderly, body, e₀, past', env, hdone⟩

end MindScript
