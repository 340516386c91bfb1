import Mathlib.Data.List.Basic
import MindScript.Proofs.Custody.Cells
import MindScript.Proofs.Scheduler.Moments

/-!
# What stored frames hold

A frame that is stored with a Mind holds the links of its entry.  What the functions of the scheduler do to one
entry takes links from it or adds some; the rest of what is stored stays as it is.
-/

namespace MindScript

def FrameSlot.links (slot : FrameSlot) : List Link := (slot.entry.map FrameEntry.links).getD []

/-- The links of the frames that a Mind stores. -/
def Mind.links (mind : Mind) : List Link := mind.slots.toList.flatMap FrameSlot.links

theorem Mind.links_congr {a b : Mind} (h : b.slots = a.slots) : b.links = a.links := by
  rw [Mind.links, h, Mind.links]

namespace Mind

variable {mind : Mind} {id : FrameId} {e : FrameEntry}

theorem count_links_modifyEntry (he : mind.entryAt id = some e) (f : FrameEntry → FrameEntry) (l : Link) :
    (mind.modifyEntry id f).links.count l + e.links.count l = mind.links.count l + (f e).links.count l := by
  have hchange := count_flatMap_modify FrameSlot.links (entryAt_eq_some_iff.mp he) (fun slot ↦
    if slot.generation = id.generation then { slot with entry := slot.entry.map f } else slot) l
  simpa [links, modifyEntry, FrameSlot.links] using hchange

theorem links_modifyEntry_of_eq {f : FrameEntry → FrameEntry} (hf : ∀ e, (f e).links = e.links) (mind : Mind)
    (id : FrameId) : (mind.modifyEntry id f).links = mind.links := by
  refine flatMap_modify_of_eq (fun slot ↦ ?_) mind.slots id.index
  split
  · cases hslot : slot.entry <;> simp [FrameSlot.links, hslot, hf]
  · rfl

theorem modifyEntry_of_none (he : mind.entryAt id = none) (f : FrameEntry → FrameEntry) :
    (mind.modifyEntry id f).links = mind.links := by
  refine congrArg (fun slots : Array FrameSlot ↦ slots.toList.flatMap FrameSlot.links) (Array.ext (by simp [modifyEntry]) ?_)
  intro i hi hi'
  simp only [modifyEntry, Array.getElem_modify]
  split
  · next heq =>
    subst heq
    unfold entryAt at he
    rw [Array.getElem?_eq_getElem hi'] at he
    dsimp only at he
    split
    · next hg =>
      rw [if_pos hg] at he
      rcases hslot : mind.slots[id.index] with ⟨g, entry⟩
      rw [hslot] at he
      simp_all
    · rfl
  · rfl

theorem count_links_remove (he : mind.entryAt id = some e) (l : Link) :
    (mind.remove id).2.links.count l + e.links.count l = mind.links.count l := by
  have hchange := count_flatMap_modify FrameSlot.links (entryAt_eq_some_iff.mp he)
    (fun slot ↦ ⟨slot.generation + 1, none⟩) l
  simpa [links, remove, he, FrameSlot.links] using hchange

/-- The frames that are removed take with them what they hold. -/
theorem count_links_foldl_remove {ids : List FrameId} (hids : ids.Nodup)
    (hstored : ∀ id ∈ ids, (mind.entryAt id).isSome = true) (l : Link) :
    (ids.foldl (fun mind id ↦ (mind.remove id).2) mind).links.count l +
      (ids.flatMap fun id ↦ ((mind.entryAt id).map FrameEntry.links).getD []).count l = mind.links.count l := by
  induction ids generalizing mind with
  | nil => simp
  | cons id rest ih =>
    obtain ⟨hnew, hrest⟩ := List.nodup_cons.mp hids
    obtain ⟨e, he⟩ := Option.isSome_iff_exists.mp (hstored id List.mem_cons_self)
    have hsame : ∀ k ∈ rest, (mind.remove id).2.entryAt k = mind.entryAt k := fun k hk ↦ by
      have hne : k ≠ id := fun heq ↦ hnew (heq ▸ hk)
      rw [entryAt_remove, if_neg hne]
    have hremoved := ih hrest fun k hk ↦ (hsame k hk) ▸ hstored k (List.mem_cons_of_mem id hk)
    rw [List.flatMap_congr fun k hk ↦ by rw [hsame k hk]] at hremoved
    have hfirst := count_links_remove he l
    rw [List.foldl_cons, List.flatMap_cons, List.count_append, he, Option.map_some, Option.getD_some]
    omega

theorem count_links_insert (h : mind.Tidy) (e : FrameEntry) (l : Link) :
    (mind.insert e).2.links.count l = mind.links.count l + e.links.count l := by
  unfold insert nextFrameId
  cases hf : mind.free with
  | nil =>
    have hslot : (mind.slots.push {})[mind.slots.size]? = some {} := by simp
    have hchange := count_flatMap_modify FrameSlot.links hslot (fun slot ↦ { slot with entry := some e }) l
    simpa [links, FrameSlot.links] using hchange
  | cons i rest =>
    obtain ⟨slot, hslot, hempty⟩ := h.empty i (by simp [hf])
    have hchange := count_flatMap_modify FrameSlot.links hslot (fun slot ↦ { slot with entry := some e }) l
    simpa [links, FrameSlot.links, hempty] using hchange

end Mind

namespace World

/-- The links of all stored frames. -/
def stored (w : World) : List Link := w.minds.toList.flatMap Mind.links

variable {w : World} {m : MindId} {id : FrameId} {e : FrameEntry}

theorem stored_congr {w' : World} (h : w'.minds = w.minds) : w'.stored = w.stored := by
  rw [stored, h, stored]

theorem count_stored_modifyMind {mind : Mind} (hm : w.mind? m = some mind) (f : Mind → Mind) (l : Link) :
    (w.modifyMind m f).stored.count l + mind.links.count l = w.stored.count l + (f mind).links.count l :=
  count_flatMap_modify Mind.links hm f l

theorem stored_modifyMind_of_slots (w : World) (m : MindId) {f : Mind → Mind}
    (hf : ∀ mind, (f mind).slots = mind.slots) : (w.modifyMind m f).stored = w.stored :=
  flatMap_modify_of_eq (fun mind ↦ Mind.links_congr (hf mind)) w.minds m.index

/-- Changing an entry changes what hangs on that entry. -/
theorem count_stored_modifyEntry (he : w.entryAt m id = some e) (f : FrameEntry → FrameEntry) (l : Link) :
    (w.modifyEntry m id f).stored.count l + e.links.count l = w.stored.count l + (f e).links.count l := by
  obtain ⟨mind, hmind, he⟩ := Option.bind_eq_some_iff.mp he
  have hworld := count_stored_modifyMind hmind (fun mind ↦ mind.modifyEntry id f) l
  have hentry := Mind.count_links_modifyEntry he f l
  simp only [modifyEntry]
  omega

theorem stored_modifyEntry_of_eq {f : FrameEntry → FrameEntry} (hf : ∀ e, (f e).links = e.links) (w : World)
    (m : MindId) (id : FrameId) : (w.modifyEntry m id f).stored = w.stored :=
  flatMap_modify_of_eq (fun mind ↦ Mind.links_modifyEntry_of_eq hf mind id) w.minds m.index

theorem count_stored_modifyEntry_of_none (he : w.entryAt m id = none) (f : FrameEntry → FrameEntry) (l : Link) :
    (w.modifyEntry m id f).stored.count l = w.stored.count l := by
  cases hmind : w.mind? m with
  | some mind =>
    rw [entryAt, hmind, Option.bind_some] at he
    have hchange := count_stored_modifyMind hmind (fun mind ↦ mind.modifyEntry id f) l
    rw [Mind.modifyEntry_of_none he] at hchange
    simp only [modifyEntry]
    omega
  | none =>
    have hsame : w.minds.modify m.index (fun mind ↦ mind.modifyEntry id f) = w.minds := by
      refine Array.ext (by simp) fun i hi hi' ↦ ?_
      rw [Array.getElem_modify, if_neg]
      rintro rfl
      rw [mind?, Array.getElem?_eq_getElem hi'] at hmind
      cases hmind
    rw [stored, modifyEntry, modifyMind, hsame, stored]

/-- What a stored frame holds is among what all of them hold. -/
theorem within_stored (he : w.entryAt m id = some e) : Within e.links w.stored := by
  intro l
  obtain ⟨mind, hmind, he⟩ := Option.bind_eq_some_iff.mp he
  have hslot := Mind.entryAt_eq_some_iff.mp he
  have hinner : e.links.count l ≤ mind.links.count l := by
    refine List.Sublist.count_le _ (List.sublist_flatten_of_mem (List.mem_map.mpr ⟨⟨id.generation, some e⟩, ?_, ?_⟩))
    · simpa using Array.mem_of_getElem? hslot
    · simp [FrameSlot.links]
  have houter : mind.links.count l ≤ w.stored.count l :=
    List.Sublist.count_le _ (List.sublist_flatten_of_mem (List.mem_map.mpr ⟨mind, by
      simpa using Array.mem_of_getElem? (show w.minds[m.index]? = some mind from hmind), rfl⟩))
  omega

end World

end MindScript
