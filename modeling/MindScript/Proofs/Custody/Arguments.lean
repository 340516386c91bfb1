import MindScript.Machine.Resume
import MindScript.Proofs.Custody.Values

/-!
# Custody of arguments

The arguments of a call go to the callee.  Where they cannot be placed they are given up, each once.
-/

namespace MindScript

open Machine
open World (Sane)

/-- The links of arguments. -/
def argLinks (args : ArgValues) : List Link := (args.map Prod.snd).map .object

/-- The links of arguments that have been placed. -/
def slotLinks (slots : List (Option Ref)) : List Link := (slots.filterMap id).map .object

/-- What every call of an engine does with the hand.  A member takes its receiver and its arguments over. -/
structure Engine.Careful (E : Engine) : Prop where
  eval : ∀ {σ G w} (id : ExprId), Sane σ G w → Gives σ G (E.eval id) w fun r ↦ [.object r]
  invoke : ∀ {σ G w} (this : Ref) (m : Member) (args : ArgValues), Sane σ (argLinks args ++ (.object this :: G)) w →
    m.body.Decent σ.Knows → Gives σ G (E.invoke this m args) w fun r ↦ [.object r]
  resume : ∀ {σ G w} (m : MindId) (id : FrameId), Sane σ G w → Gives σ G (E.resume m id) w fun _ ↦ []

/-! ### Placing arguments -/

theorem count_slotLinks_set {slots : List (Option Ref)} {i : Nat} (h : (slots[i]?.join).isSome = false) (value : Ref)
    (l : Link) : (slotLinks (slots.set i (some value))).count l ≤ Link.hits (.object value) l + (slotLinks slots).count l := by
  induction slots generalizing i with
  | nil => simp [slotLinks]
  | cons slot rest ih =>
    cases i with
    | zero =>
      have hslot : slot = none := by simpa using h
      simp [slotLinks, hslot, count_cons_hits]
    | succ i =>
      have hrest := ih (i := i) (by simpa using h)
      cases slot <;> simp only [slotLinks, List.set_cons_succ, List.filterMap_cons, id_eq, List.map_cons,
        count_cons_hits] at hrest ⊢ <;> omega

theorem links_of_paramIndex {member : String} {names : List String} {given positional : Nat} {name : Option String}
    {e : EvalError} (h : paramIndex member names given positional name = .error e) : e.links = [] := by
  unfold paramIndex at h
  split at h
  · split at h
    · cases h
    · cases h
      rfl
  · split at h
    · cases h
    · cases h
      rfl

/-- Arguments are placed, or else they are handed back. -/
theorem within_placeArgs {member : String} {names : List String} {given : Nat} (positional : Nat)
    (slots : List (Option Ref)) (args : ArgValues) :
    match placeArgs member names given positional slots args with
    | .ok placed => Within (slotLinks placed) (slotLinks slots ++ argLinks args)
    | .error (e, values) => e.links = [] ∧ Within (values.map .object) (slotLinks slots ++ argLinks args) := by
  have hback : ∀ (value : Ref) (name : Option String) (rest : ArgValues) (slots : List (Option Ref)),
      Within ((unplaced value rest slots).map .object) (slotLinks slots ++ argLinks ((name, value) :: rest)) := by
    intro value name rest slots l
    simp only [unplaced, slotLinks, argLinks, List.map_append, List.map_cons, List.count_append, count_cons_hits]
    omega
  induction args generalizing positional slots with
  | nil => exact fun l ↦ by simp [argLinks]
  | cons arg rest ih =>
    obtain ⟨name, value⟩ := arg
    unfold placeArgs
    cases hindex : paramIndex member names given positional name with
    | error e => exact ⟨links_of_paramIndex hindex, hback value name rest slots⟩
    | ok i =>
      dsimp only
      split
      · next heq =>
        split at heq
        · cases heq
        · next hfree =>
          have hrest := ih (if name.isNone then positional + 1 else positional) (slots.set i (some value))
          rw [heq] at hrest
          have hset := count_slotLinks_set (by simpa using hfree) value
          intro l
          have hl := hrest l
          have hsetl := hset l
          simp only [argLinks, List.map_cons, List.count_append, count_cons_hits] at hl ⊢
          omega
      · next heq =>
        split at heq
        · cases heq
          exact ⟨rfl, hback value name rest slots⟩
        · next hfree =>
          have hrest := ih (if name.isNone then positional + 1 else positional) (slots.set i (some value))
          rw [heq] at hrest
          have hset := count_slotLinks_set (by simpa using hfree) value
          refine ⟨hrest.1, fun l ↦ ?_⟩
          have hl := hrest.2 l
          have hsetl := hset l
          simp only [argLinks, List.map_cons, List.count_append, count_cons_hits] at hl ⊢
          omega

theorem filterMap_of_mapM {α : Type} {slots : List (Option α)} {values : List α} (h : slots.mapM id = some values) :
    slots.filterMap id = values := by
  induction slots generalizing values with
  | nil => simpa using h
  | cons slot rest ih =>
    rw [List.mapM_cons] at h
    obtain ⟨value, hvalue, h⟩ := Option.bind_eq_some_iff.mp h
    obtain ⟨later, hlater, h⟩ := Option.bind_eq_some_iff.mp h
    obtain rfl := Option.some.inj h
    obtain rfl : slot = some value := hvalue
    rw [List.filterMap_cons, ih hlater]
    rfl

theorem map_snd_zip_sublist {α β : Type} (as : List α) (bs : List β) : ((as.zip bs).map Prod.snd).Sublist bs := by
  induction as generalizing bs with
  | nil => simp
  | cons a rest ih =>
    cases bs with
    | nil => simp
    | cons b bs => exact (ih bs).cons_cons b

variable {σ : Footing} {G : List Link} {w : World} {E : Engine}

namespace Machine.Gives

theorem orderArgsOrRelease {member : String} {names : List String} {args : ArgValues} (h : Sane σ (argLinks args ++ G) w) :
    Gives σ G (orderArgsOrRelease member names args) w slotLinks := by
  have hplaced := @within_placeArgs member names args.length 0
    (names.map fun _ ↦ none) args
  have hnone : slotLinks (names.map fun _ ↦ none) = [] := by
    rw [slotLinks, List.filterMap_map]
    simp
  rw [hnone] at hplaced
  unfold Machine.orderArgsOrRelease orderArgs
  rcases hplace : placeArgs member names args.length 0 (names.map fun _ ↦ none) args with ⟨e, values⟩ | placed <;>
    rw [hplace] at hplaced
  · have hvalues : Sane σ (values.map .object ++ G) w := h.mono fun l ↦ by
      have hl := hplaced.2 l
      simp only [List.count_append, List.count_nil] at hl ⊢
      omega
    exact (releaseAll hvalues).bind fun _ _ h₁ ↦ .raise (by rwa [hplaced.1])
  · exact .pure (h.mono fun l ↦ by
      have hl := hplaced l
      simp only [List.count_append, List.count_nil] at hl ⊢
      omega)

/-- The arguments of a native callee. -/
theorem bindNative {member : String} {params : List String} {args : ArgValues} (h : Sane σ (argLinks args ++ G) w) :
    Gives σ G (bindNative member params args) w fun values ↦ values.map .object := by
  refine (orderArgsOrRelease h).bind fun slots w₁ h₁ ↦ ?_
  cases hvalues : slots.mapM id with
  | some values =>
    refine .pure (h₁.mono fun l ↦ ?_)
    rw [slotLinks, filterMap_of_mapM hvalues]
  | none =>
    dsimp only
    have hsplit : Sane σ (((slots.dropWhile Option.isSome).filterMap id ++
        (slots.takeWhile Option.isSome).filterMap id).map .object ++ G) w₁ := h₁.mono fun l ↦ by
      have htake := congrArg (fun xs ↦ (slotLinks xs).count l) (List.takeWhile_append_dropWhile (p := Option.isSome) (l := slots))
      simp only [slotLinks, List.filterMap_append, List.map_append, List.count_append] at htake ⊢
      omega
    exact (releaseAll hsplit).bind fun _ _ h₂ ↦ .raiseKind h₂ _

section

variable (hE : E.Careful)

include hE

theorem paramValue {member : String} {required given : Nat} {param : Param} {slot : Option Ref}
    (h : Sane σ (slot.toList.map .object ++ G) w) :
    Gives σ G (paramValue E member required given param slot) w fun r ↦ [.object r] := by
  cases slot with
  | some value => exact .pure h
  | none =>
    unfold Machine.paramValue
    dsimp only
    split
    · next d _ => exact hE.eval d h
    · exact .raiseKind h _

/-- Parameters are bound one after the other, and the arguments that are left stay in hand. -/
theorem bindSlots {member : String} {required given : Nat} (slots : List (Param × Option Ref))
    (h : Sane σ (slotLinks (slots.map Prod.snd) ++ G) w) :
    Gives σ G (bindSlots E member required given slots) w fun _ ↦ [] := by
  induction slots generalizing w with
  | nil => exact .pure h
  | cons slot rest ih =>
    obtain ⟨param, slot⟩ := slot
    have hrest : (rest.filterMap Prod.snd).map Link.object = slotLinks (rest.map Prod.snd) := by
      rw [slotLinks, List.filterMap_map]
      rfl
    have hfirst : Sane σ (slot.toList.map .object ++ ((rest.filterMap Prod.snd).map .object ++ G)) w := by
      rw [hrest]
      refine h.mono fun l ↦ ?_
      cases slot <;> simp [slotLinks, count_cons_hits]
    refine (Yields.elseRelease (paramValue hE hfirst)).bind fun value w₁ h₁ ↦ ?_
    refine Yields.lookElse (L := value :: rest.filterMap Prod.snd) h₁ (.checkParam param value) fun _ _ ↦ ?_
    refine (define (G := (rest.filterMap Prod.snd).map .object ++ G) h₁ param.name).bind fun _ w₂ h₂ ↦ ?_
    exact ih (hrest ▸ h₂)

theorem bindParams {member : String} {params : Span} {args : ArgValues} (h : Sane σ (argLinks args ++ G) w) :
    Gives σ G (bindParams E member params args) w fun _ ↦ [] := by
  refine .read ((orderArgsOrRelease h).bind fun slots w₁ h₁ ↦ bindSlots hE _ (h₁.mono fun l ↦ ?_))
  have hsub := map_snd_zip_sublist (w.context.arena.paramsAt params) slots
  have hcount := List.Sublist.count_le l ((hsub.filterMap id).map Link.object)
  simp only [slotLinks, List.count_append] at hcount ⊢
  omega

end

end Machine.Gives

end MindScript
