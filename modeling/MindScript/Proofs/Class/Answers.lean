import MindScript.Proofs.Class.Destructors

/-!
# The answers of a registry

Dispatch remembers what it found and what it did not find, a reload makes it forget what may have changed, and a mark
on every class says whether it has a destructor.  Requests that are refused leave answers behind as well: a
registration looks for inherited members before it fails.

None of this can be seen from outside.  After any requests, granted or refused, a registry answers as if it searched
the member tables anew each time.
-/

namespace MindScript.Registry

/-! ### The mark -/

theorem search_isSome_iff {r : Registry} {c : ClassId} {name : String} :
    (r.search c name).isSome ↔ ∃ a ∈ r.ancestors c, (Member.lookup (r.ownMembers a) name).isSome :=
  List.findSome?_isSome_iff

/-- The classes that are marked are those in which a search finds a destructor. -/
def Marked (r : Registry) : Prop :=
  ∀ c, c.index < r.size → (r.hasDestructor c = true ↔ (r.search c destructorName).isSome)

theorem Remembers.marked {r r' : Registry} (h : r.Remembers r') (hmarked : r.Marked) : r'.Marked := by
  intro c hc
  rw [h.hasDestructor, h.search]
  exact hmarked c (h.size ▸ hc)

theorem isSome_lookup_foldl_insert {decls : List MemberDecl} {owner : ClassId} {table : List Member} {name : String} :
    (Member.lookup ((decls.map fun d ↦ Member.ofDecl d owner).foldl Member.insert table) name).isSome ↔
      (Member.lookup table name).isSome ∨ ∃ d ∈ decls, d.name = name := by
  induction decls generalizing table with
  | nil => simp
  | cons d rest ih =>
    have hinsert : (Member.lookup (Member.insert table (Member.ofDecl d owner)) name).isSome ↔
        d.name = name ∨ (Member.lookup table name).isSome := by
      by_cases hname : name = d.name
      · subst hname
        have hself := Member.lookup_insert_self table (Member.ofDecl d owner)
        exact iff_of_true (Option.isSome_iff_exists.mpr ⟨_, hself⟩) (.inl rfl)
      · rw [Member.lookup_insert_of_ne hname, or_iff_right (Ne.symm hname)]
    rw [List.map_cons, List.foldl_cons, ih, hinsert, List.exists_mem_cons_iff]
    tauto

theorem Marked.addRecord {r : Registry} (hsound : r.Sound) (h : r.Marked) {supertypes : List ClassId}
    (hindex : ∀ s ∈ supertypes, s.index < r.size) (decl : ClassDecl) (own : List Slot) (classData : List ClassDatum) :
    (r.addRecord (r.newRecord decl supertypes own classData)).Marked := by
  set new := r.newRecord decl supertypes own classData with hnew
  -- What the earlier classes see is among the earlier classes.
  have hold : ∀ {c : ClassId}, c.index < r.size → ∀ a ∈ r.ancestors c,
      (r.addRecord new).ownMembers a = r.ownMembers a := by
    intro c hc a ha
    exact ownMembers_addRecord_of_ne (Nat.ne_of_lt (Nat.lt_of_le_of_lt (hsound.index_le_of_mem hc ha) hc)) new
  intro c hc
  rcases record_addRecord r new c with ⟨hci, heq⟩ | ⟨hci, subclasses, heq⟩
  · obtain rfl : c = ⟨r.size⟩ := by
      cases c
      exact congrArg ClassId.mk hci
    have hmark : (r.addRecord new).hasDestructor ⟨r.size⟩ = true ↔
        (∃ m ∈ decl.members, m.name = destructorName) ∨ ∃ s ∈ supertypes, r.hasDestructor s = true := by
      rw [hasDestructor, heq]
      simp [hnew, newRecord]
    have hown : (Member.lookup ((r.addRecord new).ownMembers ⟨r.size⟩) destructorName).isSome ↔
        ∃ m ∈ decl.members, m.name = destructorName := by
      rw [ownMembers, heq]
      exact isSome_lookup_foldl_insert.trans (by simp)
    have hancestors : (r.addRecord new).ancestors ⟨r.size⟩ = r.linearize ⟨r.size⟩ supertypes := by
      rw [ancestors, heq]
      rfl
    rw [hmark, search_isSome_iff, hancestors]
    constructor
    · rintro (hdecl | ⟨s, hs, hmarked⟩)
      · exact ⟨⟨r.size⟩, mem_linearize.mpr (.inl rfl), hown.mpr hdecl⟩
      · obtain ⟨a, ha, hlookup⟩ := search_isSome_iff.mp ((h s (hindex s hs)).mp hmarked)
        exact ⟨a, mem_linearize.mpr (.inr ⟨s, hs, ha⟩), by rwa [hold (hindex s hs) a ha]⟩
    · rintro ⟨a, ha, hlookup⟩
      rcases mem_linearize.mp ha with rfl | ⟨s, hs, has⟩
      · exact .inl (hown.mp hlookup)
      · rw [hold (hindex s hs) a has] at hlookup
        exact .inr ⟨s, hs, (h s (hindex s hs)).mpr (search_isSome_iff.mpr ⟨a, has, hlookup⟩)⟩
  · have hlt : c.index < r.size := by
      rw [size_addRecord] at hc
      omega
    have hmark : (r.addRecord new).hasDestructor c = r.hasDestructor c := by
      rw [hasDestructor, heq]
      rfl
    have hsearch : (r.addRecord new).search c destructorName = r.search c destructorName := by
      rw [search, search, ancestors_addRecord_of_ne hci]
      exact findSome?_congr fun a ha ↦ by rw [hold hlt a ha]
    rw [hmark, hsearch]
    exact h c hlt

theorem Marked.storeMember {r : Registry} (hsound : r.Sound) (h : r.Marked) {c : ClassId} (hc : c.index < r.size)
    (decl : MemberDecl) : (r.storeMember c decl).Marked := by
  intro d hd
  rw [size_storeMember] at hd
  have hmark : (r.storeMember c decl).hasDestructor d = true ↔
      r.hasDestructor d = true ∨ decl.name = destructorName ∧ c ∈ r.ancestors d := by
    rw [hasDestructor, record_storeMember r c decl hd]
    simp [hsound.mem_descendants_iff hc, hd]
  rw [hmark, h d hd, search_isSome_iff, search_isSome_iff, ancestors_storeMember r c decl hd]
  have hlookup : ∀ a ∈ r.ancestors d, ((Member.lookup ((r.storeMember c decl).ownMembers a) destructorName).isSome ↔
      (a = c ∧ decl.name = destructorName) ∨ (Member.lookup (r.ownMembers a) destructorName).isSome) := by
    intro a ha
    rw [lookup_storeMember r c decl (Nat.lt_of_le_of_lt (hsound.index_le_of_mem hd ha) hd), Eq.comm (a := decl.name)]
    split
    · next hnew => exact iff_of_true rfl (.inl hnew)
    · next hnew => rw [or_iff_right hnew]
  constructor
  · rintro (⟨a, ha, hold⟩ | ⟨hname, hcd⟩)
    · exact ⟨a, ha, (hlookup a ha).mpr (.inr hold)⟩
    · exact ⟨c, hcd, (hlookup c hcd).mpr (.inl ⟨rfl, hname⟩)⟩
  · rintro ⟨a, ha, hnew⟩
    rcases (hlookup a ha).mp hnew with ⟨rfl, hname⟩ | hold
    · exact .inr ⟨hname, ha⟩
    · exact .inl ⟨a, ha, hold⟩

/-! ### Requests -/

/-- What can be asked of a registry. -/
inductive Request where
  | register (decl : ClassDecl)
  | define (c : ClassId) (decl : MemberDecl)
  | find (c : ClassId) (name : String)
  | resolve (c : ClassId) (name : String) (qualifier : Option ClassId)

namespace Request

/-- The registry after a request, granted or refused. -/
def after : Request → Registry → Registry
  | register decl, r => (Registry.register decl r).2
  | define c decl, r => (Registry.define c decl r).2
  | find c name, r => (r.find c name).2
  | resolve c name qualifier, r => (Registry.resolve c name qualifier r).2

/-- The class that a request is about is registered. -/
def Fits (r : Registry) : Request → Prop
  | register _ => True
  | define c _ | find c _ | resolve c _ _ => c.index < r.size

end Request

/-- Registries that requests make out of the empty one. -/
inductive Asked : Registry → Prop
  | empty : Asked {}
  | request {r : Registry} {q : Request} (asked : Asked r) (fits : q.Fits r) : Asked (q.after r)

/-- What defining a member leaves behind: the answers that its checks remember, and perhaps the member. -/
theorem define_cases (c : ClassId) (decl : MemberDecl) (r : Registry) :
    ∃ r₁, (checkMembers (r.supertypes c) (r.nameOf c) [decl] r).2 = r₁ ∧
      ((define c decl r).2 = r₁ ∨ (define c decl r).2 = r₁.storeMember c decl) := by
  refine ⟨_, rfl, ?_⟩
  rw [define, Action.get_bind]
  rcases hcheck : checkMembers (r.supertypes c) (r.nameOf c) [decl] r with ⟨e | _, r₁⟩
  · rw [Action.bind_of_error hcheck]
    exact .inl rfl
  · rw [Action.bind_of_ok hcheck]
    rcases hreplace : r₁.checkReplace c decl with e | _
    · have hfail : (r₁.checkReplace c decl, r₁) = (.error e, r₁) := by rw [hreplace]
      rw [Action.bind_of_error (f := fun r ↦ (r.checkReplace c decl, r)) hfail]
      exact .inl rfl
    · have hpass : (r₁.checkReplace c decl, r₁) = (.ok (), r₁) := by rw [hreplace]
      rw [Action.bind_of_ok (f := fun r ↦ (r.checkReplace c decl, r)) hpass]
      exact .inr rfl

/-- Dispatch on a registered class starts at a registered class. -/
theorem Sound.index_of_qualifier {r : Registry} (h : r.Sound) {c : ClassId} (hc : c.index < r.size)
    {qualifier : Option ClassId} (hq : ∀ q ∈ qualifier, r.isSubtype c q = true) :
    (qualifier.getD c).index < r.size := by
  cases qualifier with
  | none => exact hc
  | some q =>
    rcases isSubtype_iff.mp (hq q rfl) with rfl | hq
    · exact hc
    · exact Nat.lt_of_le_of_lt (h.index_le_of_mem hc hq) hc

/-- Whatever is asked, a registry stays sound and its marks stay right. -/
theorem Request.sound_after {r : Registry} (h : r.Sound) (hmarked : r.Marked) {q : Request} (hfits : q.Fits r) :
    (q.after r).Sound ∧ (q.after r).Marked := by
  cases q with
  | register decl =>
    rw [after]
    rcases register_cases decl r with heq | ⟨supertypes, r₁, hsuper, rfl, hrest⟩
    · rw [heq]
      exact ⟨h, hmarked⟩
    · have hindex := index_of_resolveSupertypes hsuper
      have hremembers := (checkMembers_of_sound h hindex decl.name decl.members).1
      have hmarked₁ := hremembers.marked hmarked
      rcases hrest with heq | ⟨own, classData, -, heq⟩
      · rw [heq]
        exact ⟨hremembers.sound, hmarked₁⟩
      · rw [heq]
        replace hindex : ∀ s ∈ supertypes, s.index < (checkMembers supertypes decl.name decl.members r).2.size := by
          rwa [hremembers.size]
        exact ⟨hremembers.sound.addRecord hindex rfl rfl, hmarked₁.addRecord hremembers.sound hindex decl own classData⟩
  | define c decl =>
    have hindex : ∀ s ∈ r.supertypes c, s.index < r.size :=
      fun s hs ↦ Nat.lt_trans (h.supertypes c hfits s hs) hfits
    have hremembers := (checkMembers_of_sound h hindex (r.nameOf c) [decl]).1
    have hmarked₁ := hremembers.marked hmarked
    obtain ⟨_, rfl, heq | heq⟩ := define_cases c decl r
    · rw [after, heq]
      exact ⟨hremembers.sound, hmarked₁⟩
    · rw [after, heq]
      have hc : c.index < (checkMembers (r.supertypes c) (r.nameOf c) [decl] r).2.size := by
        rw [hremembers.size]
        exact hfits
      exact ⟨hremembers.sound.storeMember hc, hmarked₁.storeMember hremembers.sound hc decl⟩
  | find c name =>
    have hremembers := (find_of_sound h hfits name).2
    exact ⟨hremembers.sound, hremembers.marked hmarked⟩
  | resolve c name qualifier =>
    by_cases hq : ∀ q ∈ qualifier, r.isSubtype c q = true
    · have hremembers := (find_of_sound h (h.index_of_qualifier hfits hq) name).2
      rw [after, resolve_of_isSubtype hq]
      exact ⟨hremembers.sound, hremembers.marked hmarked⟩
    · simp only [not_forall] at hq
      obtain ⟨q, rfl, hq⟩ := hq
      obtain ⟨note, heq⟩ := resolve_of_not_isSubtype (Bool.eq_false_iff.mpr hq) name
      rw [after, heq]
      exact ⟨h, hmarked⟩

theorem Asked.sound {r : Registry} (h : Asked r) : r.Sound ∧ r.Marked := by
  induction h with
  | empty => exact ⟨.empty, fun c hc ↦ absurd hc (Nat.not_lt_zero _)⟩
  | request _ hfits ih => exact Request.sound_after ih.1 ih.2 hfits

/-! ### Answers -/

theorem resolve_eq_ok_iff {r : Registry} (h : r.Sound) {c : ClassId} (hc : c.index < r.size) {name : String}
    {qualifier : Option ClassId} {m : Member} :
    (∃ r', resolve c name qualifier r = (.ok m, r')) ↔
      (∀ q ∈ qualifier, q ∈ r.ancestors c) ∧ r.search (qualifier.getD c) name = some m := by
  have hiff : (∀ q ∈ qualifier, q ∈ r.ancestors c) ↔ ∀ q ∈ qualifier, r.isSubtype c q = true := by
    refine forall₂_congr fun q _ ↦ ?_
    rw [isSubtype_iff]
    refine ⟨.inr, fun hq ↦ ?_⟩
    rcases hq with rfl | hq
    · exact h.self_mem_ancestors hc
    · exact hq
  rw [hiff]
  by_cases hq : ∀ q ∈ qualifier, r.isSubtype c q = true
  · have hanswer := (find_of_sound h (h.index_of_qualifier hc hq) name).1
    rw [resolve_of_isSubtype hq, hanswer, and_iff_right hq]
    cases r.search (qualifier.getD c) name with
    | none =>
      refine iff_of_false ?_ (by simp)
      rintro ⟨_, ⟨⟩⟩
    | some found =>
      constructor
      · rintro ⟨_, ⟨⟩⟩
        rfl
      · rintro ⟨⟩
        exact ⟨_, rfl⟩
  · refine iff_of_false ?_ fun hall ↦ hq hall.1
    simp only [not_forall] at hq
    obtain ⟨q, rfl, hq⟩ := hq
    obtain ⟨note, heq⟩ := resolve_of_not_isSubtype (Bool.eq_false_iff.mpr hq) name
    rw [heq]
    rintro ⟨_, ⟨⟩⟩

/-- After any requests, dispatch on a registered class finds what a new search finds, also when that is nothing;
it resolves a name exactly if the qualifier, if any, is an ancestor and the search from there on finds a member; and
the class is marked exactly if the search finds a destructor. -/
theorem answers_like_search {r : Registry} (h : Asked r) {c : ClassId} (hc : c.index < r.size) :
    (∀ name, (r.find c name).1 = r.search c name) ∧
    (∀ name qualifier m, (∃ r', resolve c name qualifier r = (.ok m, r')) ↔
      (∀ q ∈ qualifier, q ∈ r.ancestors c) ∧ r.search (qualifier.getD c) name = some m) ∧
    (r.hasDestructor c = true ↔ ∃ m, r.search c destructorName = some m) := by
  obtain ⟨hsound, hmarked⟩ := h.sound
  refine ⟨fun name ↦ (find_of_sound hsound hc name).1, fun name qualifier m ↦ resolve_eq_ok_iff hsound hc, ?_⟩
  rw [hmarked c hc, Option.isSome_iff_exists]

section reload

def baseDecl : ClassDecl := { name := "Base" }

def derivedDecl : ClassDecl := { name := "Derived", supertypes := ["Base"] }

def destructorDecl : MemberDecl := ⟨destructorName, .method, default⟩

/-- A class that was searched for a destructor in vain before its supertype got one. -/
theorem exists_reloaded : ∃ r, Asked r ∧ r.size = 2 ∧
    r.search ⟨1⟩ destructorName = some (Member.ofDecl destructorDecl ⟨0⟩) := by
  have hbase : ({} : Registry).checkName baseDecl = .ok () := by
    simp [checkName, classNamed, baseDecl]
  obtain ⟨r₁, hreg₁, hr₁⟩ := register_ok .empty rfl rfl hbase
    (show ({} : Registry).resolveSupertypes [] = .ok [] from rfl) (by decide) (by simp [baseDecl])
  have hclasses₁ : r₁.classes = #[⟨"Base", [], [], [⟨0⟩], [], [], [], false⟩] := hr₁.classes
  have hderived : r₁.checkName derivedDecl = .ok () := by
    simp [checkName, classNamed, hclasses₁, derivedDecl]
  have hsuper : r₁.resolveSupertypes derivedDecl.supertypes = .ok [⟨0⟩] := by
    simp [resolveSupertypes, classNamed, hclasses₁, derivedDecl, List.foldlM]
  obtain ⟨r₂, hreg₂, hr₂⟩ := register_ok hr₁.sound rfl rfl hderived hsuper (by simp [size, hclasses₁, maxSize, UInt32.size])
    (by simp [derivedDecl])
  have hclasses₂ : r₂.classes = #[⟨"Base", [], [⟨1⟩], [⟨0⟩], [], [], [], false⟩,
      ⟨"Derived", [⟨0⟩], [], [⟨1⟩, ⟨0⟩], [], [], [], false⟩] := by
    refine hr₂.classes.trans ?_
    obtain ⟨classes, cache⟩ := r₁
    subst hclasses₁
    rfl
  have hsize₂ : r₂.size = 2 := congrArg Array.size hclasses₂
  obtain ⟨-, hr₃⟩ := find_of_sound hr₂.sound (c := ⟨1⟩) (by simp [hsize₂]) destructorName
  set r₃ := (r₂.find ⟨1⟩ destructorName).2
  have hclasses₃ := hr₃.classes.trans hclasses₂
  have hsize₃ : r₃.size = 2 := congrArg Array.size hclasses₃
  have hadmits : r₃.Admits (r₃.supertypes ⟨0⟩) (r₃.nameOf ⟨0⟩) destructorDecl := by
    simp [Admits, checkLifecycle, destructorDecl, supertypes, record, hclasses₃]
  have hreplace : r₃.checkReplace ⟨0⟩ destructorDecl = .ok () := by
    simp [checkReplace, ownMembers, record, hclasses₃]
  obtain ⟨r₄, hdef, hr₄⟩ := define_ok hr₃.sound (c := ⟨0⟩) (by simp [hsize₃]) hadmits hreplace
  have hasked₁ : Asked r₁ := by simpa only [Request.after, hreg₁] using Asked.empty.request (q := .register baseDecl) trivial
  have hasked₂ : Asked r₂ := by simpa only [Request.after, hreg₂] using hasked₁.request (q := .register derivedDecl) trivial
  have hasked₃ : Asked r₃ := hasked₂.request (q := .find ⟨1⟩ destructorName) (by simp [Request.Fits, hsize₂])
  refine ⟨r₄, ?_, ?_, ?_⟩
  · simpa only [Request.after, hdef] using
      hasked₃.request (q := .define ⟨0⟩ destructorDecl) (by simp [Request.Fits, hsize₃])
  · rw [hr₄.size]
    exact (size_storeMember r₃ _ _).trans hsize₃
  · have hlookup (d : ClassId) (hd : d.index < r₃.size) := lookup_storeMember r₃ ⟨0⟩ destructorDecl hd destructorName
    rw [hr₄.search, search, ancestors_storeMember r₃ _ _ (by simp [hsize₃])]
    have hancestors : r₃.ancestors ⟨1⟩ = [⟨1⟩, ⟨0⟩] := by simp [ancestors, record, hclasses₃]
    rw [hancestors, List.findSome?_cons, hlookup ⟨1⟩ (by simp [hsize₃]), List.findSome?_cons,
      hlookup ⟨0⟩ (by simp [hsize₃])]
    simp [ownMembers, record, hclasses₃, destructorDecl]

/-- The reload is seen below the class that it changes, although the search there had found nothing before. -/
theorem answers_like_search_reloaded : ∃ r, Asked r ∧
    (r.find ⟨1⟩ destructorName).1 = some (Member.ofDecl destructorDecl ⟨0⟩) ∧
    (∃ r', resolve ⟨1⟩ destructorName none r = (.ok (Member.ofDecl destructorDecl ⟨0⟩), r')) ∧
    r.hasDestructor ⟨1⟩ = true := by
  obtain ⟨r, hasked, hsize, hsearch⟩ := exists_reloaded
  obtain ⟨hfind, hresolve, hmark⟩ := answers_like_search hasked (c := ⟨1⟩) (by simp [hsize])
  refine ⟨r, hasked, (hfind destructorName).trans hsearch, ?_, hmark.mpr ⟨_, hsearch⟩⟩
  exact (hresolve destructorName none _).mpr ⟨by simp, hsearch⟩

end reload

end MindScript.Registry
