import MindScript.Proofs.Custody.Ages
import MindScript.Proofs.Scheduler.Broods
import MindScript.Proofs.Scheduler.Reachable

/-!
# Cascades

When a frame settles, the frames below it settle first, and this module says exactly what that comes to.  The proof
follows the frames that are stopped in turn: each of them and everyone below it is found as it was at the start, since
nobody has been stopped so far who is below it.
-/

namespace MindScript

/-! ### Logs -/

/-- What the settling of frames does to a Mind, apart from the frames themselves. -/
structure Mind.Logs (events : List FrameEvent) (failures : List FrameFailure) (mind mind' : Mind) : Prop where
  ready : ∃ ids, mind'.ready = mind.ready ++ ids
  history : mind'.history = if mind.trace then events.foldl pushBounded mind.history else mind.history
  failures : mind'.failures = failures.foldl pushBounded mind.failures
  others : mind' = { mind with
    slots := mind'.slots
    ready := mind'.ready
    history := mind'.history
    failures := mind'.failures
    unswept := mind'.unswept }

namespace Mind.Logs

variable {mind mind' mind'' : Mind} {events events' : List FrameEvent} {failures failures' : List FrameFailure}

theorem refl (mind : Mind) : mind.Logs [] [] mind := ⟨⟨[], (List.append_nil _).symm⟩, by simp, rfl, rfl⟩

theorem trans (h : mind.Logs events failures mind') (h' : mind'.Logs events' failures' mind'') :
    mind.Logs (events ++ events') (failures ++ failures') mind'' := by
  have htrace : mind'.trace = mind.trace := by rw [h.others]
  refine ⟨?_, ?_, ?_, ?_⟩
  · obtain ⟨ids, hids⟩ := h.ready
    obtain ⟨ids', hids'⟩ := h'.ready
    exact ⟨ids ++ ids', by rw [hids', hids, List.append_assoc]⟩
  · rw [h'.history, htrace, h.history, List.foldl_append]
    split <;> rfl
  · rw [h'.failures, h.failures, List.foldl_append]
  · rw [h'.others, h.others]

theorem modifyEntry (mind : Mind) (id : FrameId) (f : FrameEntry → FrameEntry) :
    mind.Logs [] [] (mind.modifyEntry id f) :=
  ⟨⟨[], (List.append_nil _).symm⟩, (ite_self _).symm, rfl, rfl⟩

theorem wake (mind : Mind) (ids : Array FrameId) : mind.Logs [] [] (mind.wake ids) := by
  unfold Mind.wake
  split
  · exact refl mind
  · exact ⟨⟨ids.toList, rfl⟩, (ite_self _).symm, rfl, rfl⟩

theorem record (mind : Mind) (id : FrameId) (name : String) (status : FrameStatus) :
    mind.Logs [⟨id, name, status⟩] [] (mind.record id name status) := by
  unfold Mind.record
  split
  · next htrace => exact ⟨⟨[], (List.append_nil _).symm⟩, by rw [if_pos htrace]; rfl, rfl, rfl⟩
  · next htrace => exact ⟨⟨[], (List.append_nil _).symm⟩, by rw [if_neg htrace], rfl, rfl⟩

theorem leaveParent (mind : Mind) (parent id : FrameId) : mind.Logs [] [] (World.leaveParent mind parent id) := by
  unfold World.leaveParent
  split
  · exact refl mind
  · dsimp only
    split
    · exact (modifyEntry mind parent _).trans (wake _ _)
    · exact modifyEntry mind parent _

theorem settleEntry (mind : Mind) (id : FrameId) (entry : FrameEntry) (status : FrameStatus)
    (failure : Option FrameFailure) :
    mind.Logs [⟨id, entry.handle.name, status⟩] failure.toList (World.settleEntry mind id entry status failure) := by
  have hparted : mind.Logs [⟨id, entry.handle.name, status⟩] [] (World.parted mind id entry status) := by
    have hrecord := (modifyEntry mind id FrameEntry.settled).trans (record _ id entry.handle.name status)
    unfold World.parted
    cases entry.parent with
    | none => exact hrecord
    | some parent => exact hrecord.trans (leaveParent _ parent id)
  have hwoken := hparted.trans (wake _ entry.waiters)
  have hnoted : mind.Logs [⟨id, entry.handle.name, status⟩] []
      ((World.parted mind id entry status).wake entry.waiters).noteFinished :=
    hwoken.trans ⟨⟨[], (List.append_nil _).symm⟩, (ite_self _).symm, rfl, rfl⟩
  rw [World.settleEntry_eq]
  cases failure with
  | none => exact hnoted
  | some failure => exact hnoted.trans ⟨⟨[], (List.append_nil _).symm⟩, (ite_self _).symm, rfl, rfl⟩

end Mind.Logs

theorem Heap.bare_scopes_release (h : Heap) (ls : List Link) :
    (h.release ls).scopes.map Scope.bare = h.scopes.map Scope.bare := by
  refine release_induction (P := fun h' ↦ h'.scopes.map Scope.bare = h.scopes.map Scope.bare) (fun h' l hh ↦ ?_) rfl ls
  rcases unlink_cases h' l with heq | ⟨r, -, heq⟩ | ⟨s, heq⟩ | ⟨c, heq⟩ | ⟨r, o, -, -, -, -, -, heq⟩ <;> rw [heq]
  · exact hh
  · exact hh
  · refine Eq.trans ?_ hh
    rw [modifyScope, map_modify_of_eq]
    exact fun _ ↦ rfl
  · exact hh
  · exact hh

namespace World

/-- What else the settling of frames of a Mind does: its logs and its queue grow, and references are given up. -/
structure Confined (m : MindId) (events : List FrameEvent) (failures : List FrameFailure) (w w' : World) : Prop where
  mind : ∀ mind, w.mind? m = some mind → ∃ mind', w'.mind? m = some mind' ∧ mind.Logs events failures mind'
  minds : ∀ m', m' ≠ m → w'.mind? m' = w.mind? m'
  objects : w.heap.Ages w'.heap
  scopes : w'.heap.scopes.map Scope.bare = w.heap.scopes.map Scope.bare
  inward : Inward w w'

namespace Confined

variable {m : MindId} {w w' w'' : World} {events events' : List FrameEvent} {failures failures' : List FrameFailure}

theorem trans (h : Confined m events failures w w') (h' : Confined m events' failures' w' w'') :
    Confined m (events ++ events') (failures ++ failures') w w'' := by
  refine ⟨fun mind hmind ↦ ?_, fun m' hm' ↦ (h'.minds m' hm').trans (h.minds m' hm'), h.objects.trans h'.objects,
    h'.scopes.trans h.scopes, h.inward.trans h'.inward⟩
  obtain ⟨mind', hmind', hlogs⟩ := h.mind mind hmind
  obtain ⟨mind'', hmind'', hlogs'⟩ := h'.mind mind' hmind'
  exact ⟨mind'', hmind'', hlogs.trans hlogs'⟩

theorem of_heap (w : World) {g : Heap} (hobjects : w.heap.Ages g)
    (hscopes : g.scopes.map Scope.bare = w.heap.scopes.map Scope.bare) : Confined m [] [] w { w with heap := g } :=
  ⟨fun mind hmind ↦ ⟨mind, hmind, .refl mind⟩, fun _ _ ↦ rfl, hobjects, hscopes, inward_heap w g⟩

theorem refl (w : World) : Confined m [] [] w w := of_heap w (.refl w.heap) rfl

theorem release (w : World) (ls : List Link) : Confined m [] [] w (w.release ls) :=
  of_heap w (.release ls) (Heap.bare_scopes_release w.heap ls)

theorem modifyMind (w : World) {f : Mind → Mind} (hf : ∀ mind : Mind, mind.Logs events failures (f mind)) :
    Confined m events failures w (w.modifyMind m f) := by
  refine ⟨fun mind hmind ↦ ⟨f mind, ?_, hf mind⟩, fun m' hm' ↦ ?_, .refl w.heap, rfl, inward_modifyMind w m f⟩
  · rw [mind?_modifyMind, if_pos rfl, hmind, Option.map_some]
  · rw [mind?_modifyMind, if_neg hm']

theorem settle {id : FrameId} {e : FrameEntry} (he : w.entryAt m id = some e) (hu : w.isFinished e.handle = false)
    (ending : Ending) : Confined m [⟨id, e.handle.name, ending.status⟩]
      (ending.error?.map fun x ↦ ⟨id, w.frameName m id, w.withFrameOrigin e x⟩).toList w (w.settle m id ending) := by
  unfold World.settle
  simp only [he, hu, Bool.false_eq_true, if_false, Option.map_map]
  have hended := of_heap (m := m) w (g := w.heap.modifyOutcome e.handle.outcome fun o ↦
    { o with status := ending.status, result := ending.result?, error := ending.error?.map (w.withFrameOrigin e) })
    (.of_objects rfl rfl rfl) rfl
  have hsettled := hended.trans (modifyMind (m := m) _ fun mind ↦ .settleEntry mind id e ending.status
    (ending.error?.map fun x ↦ ⟨id, w.frameName m id, w.withFrameOrigin e x⟩))
  have hreleased := hsettled.trans (release _ ((e.wake.map Wake.links).getD [] ++ e.delivered.toList.map .object
    ++ (e.frame.map Frame.links).getD []))
  rwa [List.append_nil, List.append_nil] at hreleased

end Confined

/-- Frames of a Mind settle one after the other: the first world becomes the second as they do, and nothing is done
in between but taking children from frames and telling frames to stop. -/
inductive Chronicle (m : MindId) (w : World) : List FrameEvent → List FrameFailure → World → Prop where
  | refl : Chronicle m w [] [] w
  | clear {events : List FrameEvent} {failures : List FrameFailure} {w' : World} (id : FrameId) :
      Chronicle m w events failures w' →
      Chronicle m w events failures (w'.modifyEntry m id fun e ↦ { e with children := #[] })
  | tell {events : List FrameEvent} {failures : List FrameFailure} {w' : World} (id : FrameId) :
      Chronicle m w events failures w' →
      Chronicle m w events failures (w'.modifyEntry m id fun e ↦ { e with stopRequested := true })
  | settle {events : List FrameEvent} {failures : List FrameFailure} {w' : World} {id : FrameId} {e : FrameEntry}
      (ending : Ending) : Chronicle m w events failures w' → w'.entryAt m id = some e →
      w'.isFinished e.handle = false →
      Chronicle m w (events ++ [⟨id, e.handle.name, ending.status⟩])
        (failures ++ (ending.error?.map fun x ↦ ⟨id, w'.frameName m id, w'.withFrameOrigin e x⟩).toList)
        (w'.settle m id ending)

theorem Chronicle.trans {m : MindId} {w w' w'' : World} {events events' : List FrameEvent}
    {failures failures' : List FrameFailure} (h : Chronicle m w events failures w')
    (h' : Chronicle m w' events' failures' w'') : Chronicle m w (events ++ events') (failures ++ failures') w'' := by
  induction h' with
  | refl => rwa [List.append_nil, List.append_nil]
  | clear id _ ih => exact .clear id ih
  | tell id _ ih => exact .tell id ih
  | settle ending _ he hu ih =>
    rw [← List.append_assoc, ← List.append_assoc]
    exact .settle ending ih he hu

theorem Chronicle.confined {m : MindId} {w w' : World} {events : List FrameEvent} {failures : List FrameFailure}
    (h : Chronicle m w events failures w') : Confined m events failures w w' := by
  induction h with
  | refl => exact .refl w
  | clear id _ ih =>
    have hclear := ih.trans (.modifyMind (f := fun mind ↦ mind.modifyEntry id fun e ↦ { e with children := #[] }) _
      fun mind ↦ .modifyEntry mind id _)
    rwa [List.append_nil, List.append_nil] at hclear
  | tell id _ ih =>
    have htell := ih.trans (.modifyMind
      (f := fun mind ↦ mind.modifyEntry id fun e ↦ { e with stopRequested := true }) _
      fun mind ↦ .modifyEntry mind id _)
    rwa [List.append_nil, List.append_nil] at htell
  | settle ending _ he hu ih => exact ih.trans (.settle he hu ending)

end World

/-- The card of a frame that has been stopped after everyone below it. -/
def Card.felled (c : Card) : Card := { c.ended .stopped none with children := #[] }

namespace World

variable {X : Set FrameKey} {stack : List FrameKey} {w v v' v'' : World} {m : MindId}
  {ks order told order' told' : List FrameId}

/-- The entry in the log for a frame that settles. -/
def notice (w : World) (m : MindId) (status : FrameStatus) (k : FrameId) : FrameEvent :=
  ⟨k, ((w.card m k).map fun c ↦ c.handle.name).getD "", status⟩

theorem notice_of_entry {e : FrameEntry} {k : FrameId} (hv : v.Filed) (he : v.entryAt m k = some e)
    (status : FrameStatus) : v.notice m status k = ⟨k, e.handle.name, status⟩ := by
  obtain ⟨cell, hc⟩ := hv.card he
  rw [notice, hc]
  rfl

theorem Revised.notice {G : MindId → FrameId → Card → Card} (h : Revised G v v') (status : FrameStatus) :
    v'.notice m status = v.notice m status := by
  funext k
  unfold World.notice
  rw [h.card]
  cases hc : v.card m k with
  | none => rfl
  | some c => rw [Option.map_some, Option.map_some, h.handle m k c hc, Option.map_some]

/-! ### Frames stopped in turn -/

/-- What stopping frames does to the cards. -/
def felling (m : MindId) (order told : List FrameId) (m' : MindId) (k : FrameId) (c : Card) : Card :=
  if m' = m ∧ k ∈ order then c.felled
  else if m' = m ∧ k ∈ told then { c with stopRequested := true }
  else c

theorem felling_of_order {k : FrameId} (hk : k ∈ order) (c : Card) : felling m order told m k c = c.felled :=
  if_pos ⟨rfl, hk⟩

theorem felling_of_told {k : FrameId} (hk : k ∈ told) (hnot : k ∉ order) (c : Card) :
    felling m order told m k c = { c with stopRequested := true } := by
  rw [felling, if_neg fun h ↦ hnot h.2, if_pos ⟨rfl, hk⟩]

theorem felling_of_not {m' : MindId} {k : FrameId} (hk : m' = m → k ∉ order ∧ k ∉ told) (c : Card) :
    felling m order told m' k c = c := by
  rw [felling, if_neg fun h ↦ (hk h.1).1 h.2, if_neg fun h ↦ (hk h.1).2 h.2]

theorem children_felling (m' : MindId) (k : FrameId) (c : Card) :
    (felling m order told m' k c).children.toList.Sublist c.children.toList := by
  unfold felling
  split
  · exact List.nil_sublist _
  · split
    · exact .refl _
    · exact .refl _

theorem notMem_felling {m' : MindId} {k j : FrameId} {c : Card} (hj : j ∉ c.children) :
    j ∉ (felling m order told m' k c).children := by
  rw [← Array.mem_toList_iff] at hj ⊢
  exact fun hmem ↦ hj ((children_felling m' k c).subset hmem)

/-- Frames are stopped and told to stop, and nothing else happens. -/
structure Fells (m : MindId) (order told : List FrameId) (v v' : World) : Prop where
  cards : Revised (felling m order told) v v'
  settles : Chronicle m v (order.map (v.notice m .stopped)) [] v'

namespace Fells

theorem refl (hv : v.Filed) : Fells m [] [] v v :=
  ⟨(Revised.of_still (.refl v) hv).congr fun _ _ c _ ↦ by simp [felling], .refl⟩

/-- One after the other, if nobody is concerned by both. -/
theorem trans (h : Fells m order told v v') (h' : Fells m order' told' v' v'')
    (hdisjoint : ∀ k, k ∈ order ∨ k ∈ told → k ∉ order' ∧ k ∉ told') :
    Fells m (order ++ order') (told ++ told') v v'' := by
  constructor
  · refine (h.cards.trans h'.cards).congr fun m' k c _ ↦ ?_
    by_cases hm : m' = m
    · subst hm
      by_cases hfirst : k ∈ order ∨ k ∈ told
      · obtain ⟨horder', htold'⟩ := hdisjoint k hfirst
        have hlater : felling m' order' told' m' k (felling m' order told m' k c) = felling m' order told m' k c :=
          felling_of_not (fun _ ↦ ⟨horder', htold'⟩) _
        rw [hlater]
        simp [felling, horder', htold']
      · obtain ⟨horder, htold⟩ := not_or.mp hfirst
        have hearlier : felling m' order told m' k c = c := felling_of_not (fun _ ↦ ⟨horder, htold⟩) c
        rw [hearlier]
        simp [felling, horder, htold]
    · simp [felling, hm]
  · have hchron := h.settles.trans h'.settles
    rwa [h.cards.notice, ← List.map_append, List.append_nil] at hchron

theorem card_of_not (h : Fells m order told v v') {k : FrameId} (horder : k ∉ order) (htold : k ∉ told) :
    v'.card m k = v.card m k := by
  rw [h.cards.card]
  cases v.card m k with
  | none => rfl
  | some c => rw [Option.map_some, felling_of_not fun _ ↦ ⟨horder, htold⟩]

end Fells

/-- A running frame is told. -/
theorem fells_tell (hv : v.Filed) (m : MindId) (k : FrameId) :
    Fells m [] [k] v (v.modifyEntry m k fun e ↦ { e with stopRequested := true }) := by
  have hG := revised_tell hv m k
  refine ⟨hG.congr fun m' j c _ ↦ ?_, .tell k .refl⟩
  simp [felling, atFrame]

/-- A frame is stopped after its children, and its parent has no link to it any more. -/
theorem fells_settle {k : FrameId} {c : Card} (hv : v.Filed) (hc : v.card m k = some c) (hu : c.isFinished = false)
    (hloose : ∀ p b, v.card m p = some b → k ∉ b.children)
    (hbelow : Fells m order told (v.modifyEntry m k fun e ↦ { e with children := #[] }) v')
    (horder : k ∉ order) (htold : k ∉ told) :
    Fells m (order ++ [k]) told v (v'.settle m k .stopped) := by
  have hclear := revised_clear hv m k
  have hc' : v'.card m k = some { c with children := #[] } := by
    rw [hbelow.card_of_not horder htold, hclear.card_of_card hc, atFrame_self]
  obtain ⟨e, he, -, hcard⟩ := card_eq_some_iff.mp hc'
  have hhandle : e.handle = c.handle := congrArg Card.handle hcard
  have hchildren : e.children = #[] := congrArg Card.children hcard
  have hue : v'.isFinished e.handle = false := by
    rw [hhandle]
    exact (isFinished_of_card hc').trans hu
  have hsettle := revised_settle hbelow.cards.filed he hue .stopped
  constructor
  · refine ((hclear.trans hbelow.cards).trans hsettle).congr fun m' j b hb ↦ ?_
    by_cases hj : m' = m ∧ j = k
    · obtain ⟨rfl, rfl⟩ := hj
      rw [atFrame_self, felling_of_not fun _ ↦ ⟨horder, htold⟩, settling_self rfl, felling_of_order (by simp)]
      rfl
    · rw [atFrame_of_ne hj]
      rw [settling_of_notMem _ _ _ hj fun hm ↦ notMem_felling (hloose j b (hm ▸ hb))]
      simp [felling, and_or_left, hj]
  · have hchron := (Chronicle.refl.clear k).trans hbelow.settles
    have hdone := Chronicle.settle .stopped hchron he hue
    rw [hclear.notice, ← notice_of_entry hbelow.cards.filed he, hbelow.cards.notice, hclear.notice] at hdone
    have hnone : (Ending.stopped.error?.map fun x ↦
      (⟨k, v'.frameName m k, v'.withFrameOrigin e x⟩ : FrameFailure)).toList = [] := rfl
    rw [hnone] at hdone
    rw [List.map_append]
    exact hdone

/-- Everyone below the frames is as they were at the start, and nobody has one of the frames as a child. -/
structure Fresh (m : MindId) (ks : List FrameId) (w v : World) : Prop where
  same : ∀ a ∈ ks, ∀ k, w.Under m a k → v.card m k = w.card m k
  loose : ∀ a ∈ ks, ∀ p b, v.card m p = some b → a ∉ b.children

theorem Fresh.card {k : FrameId} {c : Card} (h : Fresh m (k :: ks) w v) (hc : w.card m k = some c) :
    v.card m k = some c := by
  rw [h.same k List.mem_cons_self k .refl, hc]

/-- Stopping a frame leaves alone who is below the others. -/
theorem Fresh.tail {k : FrameId} (h : Fresh m (k :: ks) w v) (hapart : Apart w m (k :: ks))
    (hfells : Fells m order told v v') (hunder : ∀ j, j ∈ order ∨ j ∈ told → w.Under m k j) : Fresh m ks w v' := by
  obtain ⟨hfirst, -⟩ := List.pairwise_cons.mp hapart
  constructor
  · intro a ha j haj
    have hnot : j ∉ order ∧ j ∉ told := by
      rw [← not_or]
      exact fun hj ↦ hfirst a ha j (hunder j hj) haj
    rw [hfells.card_of_not hnot.1 hnot.2, h.same a (List.mem_cons_of_mem k ha) j haj]
  · intro a ha p b hb hmem
    rw [hfells.cards.card] at hb
    obtain ⟨b₀, hb₀, rfl⟩ := Option.map_eq_some_iff.mp hb
    exact notMem_felling (h.loose a (List.mem_cons_of_mem k ha) p b₀ hb₀) hmem

/-- The children of a frame are as they were when they have been taken from it. -/
theorem fresh_children {k : FrameId} {c : Card} {Y : Set FrameKey} (hw : Sound X stack w) (hv : Sound Y stack v)
    (hc : w.card m k = some c) (hsame : ∀ j, w.Under m k j → v.card m j = w.card m j) :
    Fresh m c.children.toList w (v.modifyEntry m k fun e ↦ { e with children := #[] }) := by
  have hclear := revised_clear hv.filed m k
  constructor
  · intro a ha j haj
    have hchild : w.IsChild m k a := ⟨c, hc, Array.mem_toList_iff.mp ha⟩
    have hne : ¬(m = m ∧ j = k) := by
      rintro ⟨-, rfl⟩
      exact not_under_of_isChild hw hchild haj
    rw [hclear.card, hsame j (.head hchild haj)]
    cases w.card m j with
    | none => rfl
    | some b => rw [Option.map_some, atFrame_of_ne hne]
  · intro a ha p b hb hmem
    have hchild : v.IsChild m k a := ⟨c, (hsame k .refl).trans hc, Array.mem_toList_iff.mp ha⟩
    rw [hclear.card] at hb
    obtain ⟨b₀, hb₀, rfl⟩ := Option.map_eq_some_iff.mp hb
    by_cases hp : p = k
    · subst hp
      rw [atFrame_self] at hmem
      exact absurd hmem (Array.not_mem_empty a)
    · rw [atFrame_of_ne fun heq ↦ hp heq.2] at hmem
      exact hp (parent_unique hv ⟨b₀, hb₀, hmem⟩ hchild)

/-- After one frame the others are stopped as if it had not been. -/
theorem Fells.cons {k : FrameId} (hone : Fells m order told v v') (hunder : ∀ j, j ∈ order ∨ j ∈ told → w.Under m k j)
    (hapart : Apart w m (k :: ks)) (hfresh : Fresh m (k :: ks) w v) (hfalls : Falls w m ks order' told')
    (hrest : Fresh m ks w v' → Fells m order' told' v' v'') : Fells m (order ++ order') (told ++ told') v v'' := by
  refine hone.trans (hrest (hfresh.tail hapart hone hunder)) fun j hj ↦ ?_
  rw [← not_or]
  intro hj'
  obtain ⟨a, ha, haj⟩ := hfalls.under_of_mem hj'
  exact (List.pairwise_cons.mp hapart).1 a ha j (hunder j hj) haj

/-- Stopping frames in turn comes to what is said of it, with room for the generations below them. -/
theorem fells_foldl (hfalls : Falls w m ks order told) (hw : Sound X stack w) (hapart : Apart w m ks) {n : Nat}
    {Y : Set FrameKey} (hv : Sound (Y ∪ {k | k.1 = m ∧ k.2 ∈ ks}) stack v) (hfresh : Fresh m ks w v)
    (hsize : ∀ a ∈ ks, ∀ c, w.card m a = some c → v.heap.outcomes.size ≤ c.age + n) :
    Fells m order told v (ks.foldl (stopWith (fun w k ↦ finishWithin n m w k .stopped) m) v) := by
  induction hfalls generalizing n Y v with
  | nil => exact .refl hv.filed
  | @told k c ks order told hc hrun hframe hrest ih =>
    have hcv := hfresh.card hc
    have hu : c.isFinished = false := Card.isFinished_of_running hrun
    have hone : Fells m [] [k] v (stopWith (fun w k ↦ finishWithin n m w k .stopped) m v k) := by
      rw [stopWith_of_running _ hcv hu hframe]
      exact fells_tell hv.filed m k
    rw [List.foldl_cons]
    refine hone.cons (fun j hj ↦ ?_) hapart hfresh hrest fun hfresh' ↦ ?_
    · obtain rfl : j = k := by simpa using hj
      exact .refl
    · have hsound := (stopWith_finishWithin (fun _ _ _ _ h hc hu hstack hsize ↦
        ends_finishWithin n h hc hu hstack hsize .stopped) hv.exempt_cons hcv (hsize k List.mem_cons_self c hc)).1
      refine ih (List.pairwise_cons.mp hapart).2 hsound hfresh' fun a ha b hb ↦ ?_
      rw [hone.cards.outcomes]
      exact hsize a (List.mem_cons_of_mem k ha) b hb
  | @settled k c ks below under order told hc hu hframe hbelow hrest ihbelow ih =>
    have hcv := hfresh.card hc
    have hsizek := hsize k List.mem_cons_self c hc
    have hlt := index_of_cell? (Option.isSome_iff_exists.mpr ⟨_, cell_of_card hcv⟩)
    have hclear := revised_clear hv.filed m k
    have hmine : ∀ j, j ∈ below ∨ j ∈ under → ∃ a, w.IsChild m k a ∧ w.Under m a j := by
      intro j hj
      obtain ⟨a, ha, haj⟩ := hbelow.under_of_mem hj
      exact ⟨a, ⟨c, hc, Array.mem_toList_iff.mp ha⟩, haj⟩
    have hself : ∀ j, j ∈ below ∨ j ∈ under → j ≠ k := by
      rintro j hj rfl
      obtain ⟨a, hchild, haj⟩ := hmine j hj
      exact not_under_of_isChild hw hchild haj
    have hone : Fells m (below ++ [k]) under v (stopWith (fun w k ↦ finishWithin n m w k .stopped) m v k) := by
      obtain ⟨n, rfl⟩ : ∃ n', n = n' + 1 := Nat.exists_eq_succ_of_ne_zero fun hzero ↦ by
        rw [hzero] at hsizek
        exact absurd hsizek (Nat.not_le_of_lt hlt)
      rw [stopWith_of_stored _ hcv hu hframe, finishWithin_succ n hcv hu]
      refine fells_settle hv.filed hcv hu (hfresh.loose k List.mem_cons_self) ?_ (fun hk ↦ hself k (.inl hk) rfl)
        fun hk ↦ hself k (.inr hk) rfl
      refine ihbelow (apart_children hw hc) (hv.clear hcv) (fresh_children hw hv hc (hfresh.same k List.mem_cons_self))
        fun a ha b hb ↦ ?_
      obtain ⟨b', hb', -, -, hage⟩ := hw.child m k c a hc (Array.mem_toList_iff.mp ha)
      obtain rfl := Option.some.inj (hb.symm.trans hb')
      rw [hclear.outcomes]
      omega
    rw [List.foldl_cons, ← List.singleton_append, ← List.append_assoc]
    refine hone.cons (fun j hj ↦ ?_) hapart hfresh hrest fun hfresh' ↦ ?_
    · by_cases hjk : j = k
      · rw [hjk]
      · obtain ⟨a, hchild, haj⟩ := hmine j (by simpa [hjk] using hj)
        exact .head hchild haj
    · have hsound := (stopWith_finishWithin (fun _ _ _ _ h hc hu hstack hsize ↦
        ends_finishWithin n h hc hu hstack hsize .stopped) hv.exempt_cons hcv hsizek).1
      refine ih (List.pairwise_cons.mp hapart).2 hsound hfresh' fun a ha b hb ↦ ?_
      rw [hone.cards.outcomes]
      exact hsize a (List.mem_cons_of_mem k ha) b hb

/-! ### A frame and everyone below it -/

/-- What it is for a frame to settle.  The frames below it settle first, as its brood says, and are stopped; the ones
at the edge are told to stop; the frame itself ends as it does, and its parent does not have it as a child any more. -/
structure Cascade (m : MindId) (f : FrameId) (ending : Ending) (order told : List FrameId) (w w' : World) : Prop
    extends Brood w m f order told where
  chronicle : ∃ failures, failures.map FrameFailure.frame = (ending.error?.map fun _ ↦ f).toList ∧
    Chronicle m w (order.map (w.notice m .stopped) ++ [w.notice m ending.status f]) failures w' ∧
    Confined m (order.map (w.notice m .stopped) ++ [w.notice m ending.status f]) failures w w'
  stopped : ∀ k ∈ order, w'.card m k = (w.card m k).map Card.felled
  ended : ∃ origin, w'.card m f = (w.card m f).map fun c ↦
    { c.ended ending (ending.error?.map (·.withOrigin origin)) with children := #[] }
  noted : ∀ k ∈ told, w'.card m k = (w.card m k).map fun c ↦ { c with stopRequested := true }
  left : ∀ p, w.IsChild m p f → w'.card m p = (w.card m p).map (Card.without f)
  others : ∀ m' k, (m' = m → k ∉ order ++ [f] ∧ k ∉ told ∧ ¬ w.IsChild m k f) → w'.card m' k = w.card m' k
  outcomes : ∀ o, (∀ m' k c, w.card m' k = some c → c.handle.outcome ≠ o) → w'.cell? o = w.cell? o

variable {f : FrameId} {c : Card}

/-- Settling after everyone below: what is left is the frame itself and its parent. -/
theorem cascade_settle (h : Sound (insert (m, f) X) stack w) (hc : w.card m f = some c) (hu : c.isFinished = false)
    (hfalls : Falls w m c.children.toList order told)
    (hfells : Fells m order told (w.modifyEntry m f fun e ↦ { e with children := #[] }) v) (ending : Ending) :
    Cascade m f ending order told w (v.settle m f ending) := by
  have hclear := revised_clear h.filed m f
  have hapart : ∀ k, k ∈ order ∨ k ∈ told → k ≠ f ∧ ¬ w.IsChild m k f := fun k hk ↦ hfalls.apart_from h hc hk
  have hf : f ∉ order ∧ f ∉ told := ⟨fun hk ↦ (hapart f (.inl hk)).1 rfl, fun hk ↦ (hapart f (.inr hk)).1 rfl⟩
  have hcv : v.card m f = some { c with children := #[] } := by
    rw [hfells.card_of_not hf.1 hf.2, hclear.card_of_card hc, atFrame_self]
  obtain ⟨e, he, -, hcard⟩ := card_eq_some_iff.mp hcv
  have hparent : e.parent = c.parent := congrArg Card.parent hcard
  obtain ⟨hue, -, -⟩ := isFinished_of_entry he hcv
  have hsettle := revised_settle hfells.cards.filed he (hue.trans hu) ending
  have hG := (hclear.trans hfells.cards).trans hsettle
  -- What becomes of everyone but the frame itself, and of those that do not have it as a child.
  have hother : ∀ m' k, ¬(m' = m ∧ k = f) → (v.settle m f ending).card m' k = (w.card m' k).map fun b ↦
      settling m f e.parent ending (ending.error?.map (v.withFrameOrigin e)) m' k (felling m order told m' k b) := by
    intro m' k hk
    rw [hG.card]
    congr 1
    funext b
    rw [atFrame_of_ne hk]
  have hsame : ∀ m' k, ¬(m' = m ∧ k = f) → (m' = m → ¬ w.IsChild m k f) →
      (v.settle m f ending).card m' k = (w.card m' k).map (felling m order told m' k) := by
    intro m' k hk hnot
    rw [hother m' k hk]
    cases hb : w.card m' k with
    | none => rfl
    | some b =>
      rw [Option.map_some, Option.map_some, settling_of_notMem _ _ _ hk]
      exact fun hm ↦ notMem_felling fun hmem ↦ hnot hm ⟨b, hm ▸ hb, hmem⟩
  have hlast := Chronicle.settle ending ((Chronicle.refl.clear f).trans hfells.settles) he (hue.trans hu)
  rw [hclear.notice, ← notice_of_entry hfells.cards.filed he, hfells.cards.notice, hclear.notice] at hlast
  refine ⟨hfalls.brood h hc, ⟨_, ?_, hlast, hlast.confined⟩, ?_, ?_, ?_, ?_, ?_, hG.orphan⟩
  · cases ending <;> rfl
  · intro k hk
    rw [hsame m k (fun heq ↦ (hapart k (.inl hk)).1 heq.2) fun _ ↦ (hapart k (.inl hk)).2]
    congr 1
    funext b
    exact felling_of_order hk b
  · refine ⟨⟨v.classNameOf e.this, e.handle.name, v.describe e.this⟩, ?_⟩
    rw [hG.card, hc, Option.map_some, Option.map_some, atFrame_self, felling_of_not fun _ ↦ hf, settling_self rfl]
    rfl
  · intro k hk
    have hnot : k ∉ order := fun hk' ↦ (hfalls.rests_of_mem hk').not_runs (hfalls.mem_told_iff.mp hk).1
    rw [hsame m k (fun heq ↦ (hapart k (.inr hk)).1 heq.2) fun _ ↦ (hapart k (.inr hk)).2]
    congr 1
    funext b
    exact felling_of_told hk hnot b
  · intro p hp
    have hne : p ≠ f := by
      rintro rfl
      exact not_under_of_isChild h hp .refl
    have hnot : p ∉ order ∧ p ∉ told := ⟨fun hk ↦ (hapart p (.inl hk)).2 hp, fun hk ↦ (hapart p (.inr hk)).2 hp⟩
    obtain ⟨b, hb, hmem⟩ := hp
    obtain ⟨c', hc', -, hp', -⟩ := h.child m p b f hb hmem
    obtain rfl := Option.some.inj (hc.symm.trans hc')
    rw [hother m p fun heq ↦ hne heq.2, hparent, hp']
    congr 1
    funext b
    rw [settling_parent hne, felling_of_not fun _ ↦ hnot]
  · intro m' k hk
    have hne : ¬(m' = m ∧ k = f) := fun heq ↦ (hk heq.1).1 (by simp [heq.2])
    have hnot : m' = m → k ∉ order ∧ k ∉ told := fun hm ↦
      ⟨fun hmem ↦ (hk hm).1 (List.mem_append_left [f] hmem), (hk hm).2.1⟩
    have hid : felling m order told m' k = id := by
      funext b
      exact felling_of_not hnot b
    rw [hsame m' k hne fun hm ↦ (hk hm).2.2, hid, Option.map_id]
    rfl

/-- Ending a frame is a cascade. -/
theorem cascade_finishFrame (h : Sound (insert (m, f) X) stack w) (hc : w.card m f = some c)
    (hu : c.isFinished = false) (ending : Ending) :
    ∃ order told, Cascade m f ending order told w (w.finishFrame m f ending) := by
  have hsizes : ∀ k ∈ c.children.toList, ∃ b, w.card m k = some b ∧ b.isFinished = false ∧
      w.heap.outcomes.size ≤ b.age + w.heap.outcomes.size := by
    intro k hk
    obtain ⟨b, hb, hub, -⟩ := h.child m f c k hc (Array.mem_toList_iff.mp hk)
    exact ⟨b, hb, hub, Nat.le_add_left _ _⟩
  obtain ⟨order, told, hfalls⟩ := exists_falls h _ _ hsizes
  have hclear := revised_clear h.filed m f
  have hfells := fells_foldl (n := w.heap.outcomes.size) hfalls h (apart_children h hc) (h.clear hc)
    (fresh_children h h hc fun _ _ ↦ rfl) fun _ _ b _ ↦ by
      rw [hclear.outcomes]
      exact Nat.le_add_left _ _
  refine ⟨order, told, ?_⟩
  rw [finishFrame, finishWithin_succ _ hc hu]
  exact cascade_settle h hc hu hfalls hfells ending

/-- So is stopping a frame that is not in the middle of a step. -/
theorem cascade_stopFrame (h : Sound (insert (m, f) X) stack w) (hrests : w.Rests m f) :
    ∃ order told, Cascade m f .stopped order told w (stopFrame m w f) := by
  obtain ⟨c, hc, hu, hframe⟩ := hrests
  rw [stopFrame, stopWith_of_stored _ hc hu hframe]
  exact cascade_finishFrame h hc hu .stopped

end World

end MindScript
