import MindScript.Proofs.Class.Dispatch

/-!
# The kinds of overriding members

A member is a method or a coroutine.  Registering a class and defining a member both compare kinds with what
dispatch on the direct supertypes finds, and never look downwards.  So a member that is defined late can differ
in kind from an override that exists already, and two supertypes of a class can bring in one name with two kinds.

The main statement says that nothing else can go wrong: while no class inherits two kinds of one name from
different supertypes, and no name that is new to a class clashes with what the descendants of the class see, every
override has the kind of what it overrides.
-/

namespace MindScript.Registry

/-- The kind under which a class itself declares a name. -/
def declaredKind (r : Registry) (c : ClassId) (name : String) : Option CallableKind :=
  (Member.lookup (r.ownMembers c) name).map Member.kind

/-- All that a class declares and inherits under one name is of one kind. -/
def Coherent (r : Registry) : Prop :=
  ∀ c, c.index < r.size → ∀ a ∈ r.ancestors c, ∀ b ∈ r.ancestors c, ∀ name k k',
    r.declaredKind a name = some k → r.declaredKind b name = some k' → k = k'

/-- What dispatch on two of the classes finds under one name is of one kind. -/
def Agree (r : Registry) (supertypes : List ClassId) : Prop :=
  ∀ s ∈ supertypes, ∀ s' ∈ supertypes, ∀ name m m',
    r.search s name = some m → r.search s' name = some m' → m.kind = m'.kind

/-- Every class that inherits from `c` sees the name under the given kind only. -/
def Fresh (r : Registry) (c : ClassId) (name : String) (kind : CallableKind) : Prop :=
  ∀ d, d.index < r.size → c ∈ r.ancestors d → ∀ a ∈ r.ancestors d, ∀ k, r.declaredKind a name = some k → k = kind

section declaredKind

variable {r r' : Registry} {c a : ClassId} {name : String} {k : CallableKind}

theorem declaredKind_eq_some_iff :
    r.declaredKind c name = some k ↔ ∃ m, Member.lookup (r.ownMembers c) name = some m ∧ m.kind = k :=
  Option.map_eq_some_iff

/-- Dispatch finds a name in a class with the kind of every ancestor's own declaration. -/
theorem Coherent.kind_of_search (h : r.Coherent) (hc : c.index < r.size) {m : Member}
    (hm : r.search c name = some m) (ha : a ∈ r.ancestors c) (hk : r.declaredKind a name = some k) : m.kind = k := by
  obtain ⟨b, hb, hlookup⟩ := search_eq_some hm
  exact h c hc b hb a ha name m.kind k (declaredKind_eq_some_iff.mpr ⟨m, hlookup, rfl⟩) hk

theorem exists_search_of_declaredKind (ha : a ∈ r.ancestors c) (hk : r.declaredKind a name = some k) :
    ∃ m, r.search c name = some m := by
  obtain ⟨m, hm, -⟩ := declaredKind_eq_some_iff.mp hk
  exact exists_search ha hm

/-- Below admitted supertypes, every ancestor's declaration of the name is of the member's kind. -/
theorem Admits.kind_of_declared {supertypes : List ClassId} {className : String} {decl : MemberDecl}
    (hadmits : r.Admits supertypes className decl) (h : r.Coherent) {s : ClassId} (hs : s ∈ supertypes)
    (hindex : s.index < r.size) (ha : a ∈ r.ancestors s) (hk : r.declaredKind a decl.name = some k) :
    k = decl.kind := by
  obtain ⟨m, hm⟩ := exists_search_of_declaredKind ha hk
  rw [← h.kind_of_search hindex hm ha hk, hadmits.2 s hs m hm]

theorem Remembers.declaredKind (h : r.Remembers r') : r'.declaredKind = r.declaredKind := by
  funext c name
  simp only [Registry.declaredKind, ownMembers, h.record]

theorem Remembers.coherent_iff (h : r.Remembers r') : r'.Coherent ↔ r.Coherent := by
  simp only [Coherent, h.declaredKind, h.size, h.ancestors]

end declaredKind

/-! ### Registering -/

theorem kind_of_lookup_foldl_insert {decls : List MemberDecl} {owner : ClassId} {table : List Member} {name : String}
    {m : Member} (h : Member.lookup ((decls.map fun d ↦ Member.ofDecl d owner).foldl Member.insert table) name = some m) :
    Member.lookup table name = some m ∨ ∃ d ∈ decls, d.name = name ∧ d.kind = m.kind := by
  induction decls generalizing table with
  | nil => exact .inl h
  | cons d rest ih =>
    rcases ih h with hm | ⟨d', hd', heq⟩
    · by_cases hname : name = d.name
      · subst hname
        have hself := Member.lookup_insert_self table (Member.ofDecl d owner)
        obtain rfl : Member.ofDecl d owner = m := Option.some.inj (hself.symm.trans hm)
        exact .inr ⟨d, List.mem_cons_self, rfl, rfl⟩
      · rw [Member.lookup_insert_of_ne hname] at hm
        exact .inl hm
    · exact .inr ⟨d', List.mem_cons_of_mem d hd', heq⟩

section register

variable {r : Registry} {decl : ClassDecl} {supertypes : List ClassId} {own : List Slot} {classData : List ClassDatum}

theorem declaredKind_addRecord_of_ne {c : ClassId} (h : c.index ≠ r.size) (new : ClassRecord) (name : String) :
    (r.addRecord new).declaredKind c name = r.declaredKind c name := by
  rw [declaredKind, ownMembers_addRecord_of_ne h, declaredKind]

/-- A new class keeps a registry coherent exactly if its supertypes agree. -/
theorem coherent_addRecord_iff (hsound : r.Sound) (h : r.Coherent) (hindex : ∀ s ∈ supertypes, s.index < r.size)
    (hadmits : ∀ m ∈ decl.members, r.Admits supertypes decl.name m) :
    (r.addRecord (r.newRecord decl supertypes own classData)).Coherent ↔ r.Agree supertypes := by
  set new := r.newRecord decl supertypes own classData with hnew
  have hself : (r.addRecord new).ancestors ⟨r.size⟩ = r.linearize ⟨r.size⟩ supertypes := by
    rw [ancestors, record_addRecord_self]
    rfl
  have hold : ∀ s ∈ supertypes, ∀ a ∈ r.ancestors s, a.index < r.size :=
    fun s hs a ha ↦ Nat.lt_of_le_of_lt (hsound.index_le_of_mem (hindex s hs) ha) (hindex s hs)
  have hkind : ∀ s ∈ supertypes, ∀ a ∈ r.ancestors s, ∀ name,
      (r.addRecord new).declaredKind a name = r.declaredKind a name :=
    fun s hs a ha ↦ declaredKind_addRecord_of_ne (Nat.ne_of_lt (hold s hs a ha)) new
  constructor
  · intro hcoherent s hs s' hs' name m m' hm hm'
    obtain ⟨a, ha, hlookup⟩ := search_eq_some hm
    obtain ⟨a', ha', hlookup'⟩ := search_eq_some hm'
    refine hcoherent ⟨r.size⟩ (by rw [size_addRecord]; exact Nat.lt_succ_self _) a ?_ a' ?_ name _ _ ?_ ?_
    · rw [hself, mem_linearize]
      exact .inr ⟨s, hs, ha⟩
    · rw [hself, mem_linearize]
      exact .inr ⟨s', hs', ha'⟩
    · rw [hkind s hs a ha, declaredKind, hlookup, Option.map_some]
    · rw [hkind s' hs' a' ha', declaredKind, hlookup', Option.map_some]
  · intro hagree c hc a ha b hb name k k' hk hk'
    by_cases hci : c.index = r.size
    · obtain rfl : c = ⟨r.size⟩ := by cases c; simp_all
      have hseen : ∀ a ∈ (r.addRecord new).ancestors ⟨r.size⟩, ∀ k, (r.addRecord new).declaredKind a name = some k →
          (a = ⟨r.size⟩ ∧ ∃ d ∈ decl.members, d.name = name ∧ d.kind = k) ∨
            ∃ s ∈ supertypes, a ∈ r.ancestors s ∧ r.declaredKind a name = some k := by
        intro a ha k hk
        rw [hself, mem_linearize] at ha
        rcases ha with rfl | ⟨s, hs, has⟩
        · obtain ⟨m, hm, rfl⟩ := declaredKind_eq_some_iff.mp hk
          rw [ownMembers, record_addRecord_self] at hm
          rcases kind_of_lookup_foldl_insert hm with hnone | hdecl
          · cases hnone
          · exact .inl ⟨rfl, hdecl⟩
        · exact .inr ⟨s, hs, has, hkind s hs a has name ▸ hk⟩
      rcases hseen a ha k hk with ⟨rfl, d, hd, rfl, rfl⟩ | ⟨s, hs, has, hka⟩ <;>
        rcases hseen b hb k' hk' with ⟨rfl, d', hd', hname, rfl⟩ | ⟨s', hs', hbs, hkb⟩
      · exact Option.some.inj (hk.symm.trans hk')
      · exact ((hadmits d hd).kind_of_declared h hs' (hindex s' hs') hbs hkb).symm
      · exact (hadmits d' hd').kind_of_declared h hs (hindex s hs) has (hname ▸ hka)
      · obtain ⟨m, hm⟩ := exists_search_of_declaredKind has hka
        obtain ⟨m', hm'⟩ := exists_search_of_declaredKind hbs hkb
        rw [← h.kind_of_search (hindex s hs) hm has hka, ← h.kind_of_search (hindex s' hs') hm' hbs hkb]
        exact hagree s hs s' hs' name m m' hm hm'
    · have hlt : c.index < r.size := by
        rw [size_addRecord] at hc
        omega
      rw [ancestors_addRecord_of_ne hci] at ha hb
      have hne : ∀ d ∈ r.ancestors c, d.index ≠ r.size := fun d hd ↦ by
        have hle := hsound.index_le_of_mem hlt hd
        omega
      rw [declaredKind_addRecord_of_ne (hne a ha)] at hk
      rw [declaredKind_addRecord_of_ne (hne b hb)] at hk'
      exact h c hlt a ha b hb name k k' hk hk'

end register

/-! ### Defining -/

section define

variable {r : Registry} {c : ClassId} {decl : MemberDecl}

theorem declaredKind_storeMember {d : ClassId} (hd : d.index < r.size) (name : String) :
    (r.storeMember c decl).declaredKind d name =
      if d = c ∧ name = decl.name then some decl.kind else r.declaredKind d name := by
  rw [declaredKind, lookup_storeMember r c decl hd]
  split <;> rfl

/-- A name that dispatch finds already is seen by every descendant under the kind of the member. -/
theorem fresh_of_search (hsound : r.Sound) (h : r.Coherent) (hc : c.index < r.size)
    (hadmits : r.Admits (r.supertypes c) (r.nameOf c) decl) (hreplace : r.checkReplace c decl = .ok ())
    {m : Member} (hm : r.search c decl.name = some m) : r.Fresh c decl.name decl.kind := by
  intro d hd hcd a ha k hk
  obtain ⟨b, hb, hlookup⟩ := search_eq_some hm
  have hkb : r.declaredKind b decl.name = some m.kind := declaredKind_eq_some_iff.mpr ⟨m, hlookup, rfl⟩
  have hkind : m.kind = decl.kind := by
    rcases (hsound.ancestors c hc b).mp hb with rfl | ⟨s, hs, hbs⟩
    · exact checkReplace_eq_ok_iff.mp hreplace m hlookup
    · exact hadmits.kind_of_declared h hs (Nat.lt_trans (hsound.supertypes c hc s hs) hc) hbs hkb
  rw [← hkind]
  exact h d hd a ha b (hsound.ancestors_trans hd hcd hb) decl.name k m.kind hk hkb

/-- Storing a member keeps a registry coherent exactly if the descendants of the class see the name under the
member's kind only. -/
theorem coherent_storeMember_iff (hsound : r.Sound) (h : r.Coherent) (hc : c.index < r.size)
    (hreplace : r.checkReplace c decl = .ok ()) : (r.storeMember c decl).Coherent ↔ r.Fresh c decl.name decl.kind := by
  have hlt : ∀ {d : ClassId}, d.index < r.size → ∀ a ∈ r.ancestors d, a.index < r.size :=
    fun hd a ha ↦ Nat.lt_of_le_of_lt (hsound.index_le_of_mem hd ha) hd
  have hsize := size_storeMember r c decl
  constructor
  · intro hcoherent d hd hcd a ha k hk
    by_cases hac : a = c
    · subst hac
      obtain ⟨m, hm, rfl⟩ := declaredKind_eq_some_iff.mp hk
      exact checkReplace_eq_ok_iff.mp hreplace m hm
    · have hka : (r.storeMember c decl).declaredKind a decl.name = some k := by
        rw [declaredKind_storeMember (hlt hd a ha), if_neg fun h ↦ hac h.1, hk]
      have hkc : (r.storeMember c decl).declaredKind c decl.name = some decl.kind := by
        rw [declaredKind_storeMember hc, if_pos ⟨rfl, rfl⟩]
      rw [← ancestors_storeMember r c decl hd] at hcd ha
      exact hcoherent d (hsize ▸ hd) a ha c hcd decl.name k decl.kind hka hkc
  · intro hfresh d hd a ha b hb name k k' hk hk'
    rw [hsize] at hd
    rw [ancestors_storeMember r c decl hd] at ha hb
    rw [declaredKind_storeMember (hlt hd a ha)] at hk
    rw [declaredKind_storeMember (hlt hd b hb)] at hk'
    split at hk <;> split at hk'
    · exact Option.some.inj (hk.symm.trans hk')
    · next hnew _ =>
      obtain ⟨rfl, rfl⟩ := hnew
      rw [← Option.some.inj hk, hfresh d hd ha b hb k' hk']
    · next _ hnew =>
      obtain ⟨rfl, rfl⟩ := hnew
      rw [← Option.some.inj hk', hfresh d hd hb a ha k hk]
    · exact h d hd a ha b hb name k k' hk hk'

end define

/-! ### Registries built by edits -/

/-- What can be done to a registry; a search is an edit because its answer is remembered. -/
inductive Edit where
  | register (decl : ClassDecl)
  | define (c : ClassId) (decl : MemberDecl)
  | look (c : ClassId) (name : String)

namespace Edit

def run : Edit → Action Unit
  | register decl => discard (Registry.register decl)
  | define c decl => Registry.define c decl
  | look c name => discard (findMember c name)

/-- The class that an edit is made on is registered. -/
def Fits (r : Registry) : Edit → Prop
  | register _ => True
  | define c _ | look c _ => c.index < r.size

/-- The supertypes of a new class agree on the kinds of what they have in common, and a name that is new to a
class does not clash with what the descendants of the class see. -/
def Careful (r : Registry) : Edit → Prop
  | register decl => ∀ supertypes, r.resolveSupertypes decl.supertypes = .ok supertypes → r.Agree supertypes
  | define c decl => r.search c decl.name = none → r.Fresh c decl.name decl.kind
  | look _ _ => True

/-- With a single supertype there is nothing to disagree on. -/
theorem careful_register {r : Registry} {decl : ClassDecl} {supertypes : List ClassId}
    (h : r.resolveSupertypes decl.supertypes = .ok supertypes) (hlength : supertypes.length ≤ 1) :
    (register decl).Careful r := by
  intro ss hss s hs s' hs' name m m' hm hm'
  cases h.symm.trans hss
  obtain rfl : s = s' := by
    rcases supertypes with _ | ⟨a, _ | ⟨b, rest⟩⟩
    · cases hs
    · rw [List.mem_singleton.mp hs, List.mem_singleton.mp hs']
    · simp at hlength
  rw [Option.some.inj (hm.symm.trans hm')]

end Edit

/-- Registries that successful edits make out of the empty one, where each edit meets a condition. -/
inductive Built (p : Registry → Edit → Prop) : Registry → Prop
  | empty : Built p {}
  | edit {r r' : Registry} {e : Edit} (built : Built p r) (fits : e.Fits r) (allowed : p r e)
      (success : e.run r = (.ok (), r')) : Built p r'

theorem Sound.edit {r r' : Registry} {e : Edit} (h : r.Sound) (hfits : e.Fits r) (hrun : e.run r = (.ok (), r')) :
    r'.Sound := by
  cases e with
  | register decl =>
    obtain ⟨id, r₁, hreg, hrest⟩ := Action.bind_eq_ok_iff.mp hrun
    cases hrest
    obtain ⟨_, _, _, _, _, hremembers⟩ := register_eq_ok h hreg
    exact hremembers.sound
  | define c decl =>
    obtain ⟨_, _, hremembers⟩ := define_eq_ok h hfits hrun
    exact hremembers.sound
  | look c name =>
    obtain ⟨_, r₁, hlook, hrest⟩ := Action.bind_eq_ok_iff.mp hrun
    cases hrest
    cases hlook
    exact (find_of_sound h hfits name).2.sound

/-- Careful edits, and no others, keep a registry coherent. -/
theorem Coherent.edit_iff {r r' : Registry} {e : Edit} (hsound : r.Sound) (h : r.Coherent) (hfits : e.Fits r)
    (hrun : e.run r = (.ok (), r')) : r'.Coherent ↔ e.Careful r := by
  cases e with
  | register decl =>
    obtain ⟨id, r₁, hreg, hrest⟩ := Action.bind_eq_ok_iff.mp hrun
    cases hrest
    obtain ⟨supertypes, own, classData, hsuper, hadmits, hremembers⟩ := register_eq_ok hsound hreg
    rw [hremembers.coherent_iff, coherent_addRecord_iff hsound h (index_of_resolveSupertypes hsuper) hadmits]
    refine ⟨fun hagree ss hss ↦ ?_, fun hcareful ↦ hcareful supertypes hsuper⟩
    cases hsuper.symm.trans hss
    exact hagree
  | define c decl =>
    obtain ⟨hadmits, hreplace, hremembers⟩ := define_eq_ok hsound hfits hrun
    rw [hremembers.coherent_iff, coherent_storeMember_iff hsound h hfits hreplace]
    refine ⟨fun hfresh _ ↦ hfresh, fun hcareful ↦ ?_⟩
    cases hsearch : r.search c decl.name with
    | none => exact hcareful hsearch
    | some m => exact fresh_of_search hsound h hfits hadmits hreplace hsearch
  | look c name =>
    obtain ⟨_, r₁, hlook, hrest⟩ := Action.bind_eq_ok_iff.mp hrun
    cases hrest
    cases hlook
    exact ⟨fun _ ↦ trivial, fun _ ↦ ((find_of_sound hsound hfits name).2.coherent_iff).mpr h⟩

theorem Built.sound {p : Registry → Edit → Prop} {r : Registry} (h : Built p r) : r.Sound := by
  induction h with
  | empty => exact .empty
  | edit _ hfits _ hrun ih => exact ih.edit hfits hrun

theorem Built.coherent {r : Registry} (h : Built (fun r e ↦ e.Careful r) r) : r.Coherent := by
  induction h with
  | empty => exact fun c hc ↦ absurd hc (Nat.not_lt_zero _)
  | edit hbuilt hfits hcareful hrun ih => exact (ih.edit_iff hbuilt.sound hfits hrun).mpr hcareful

/-- In a registry that careful edits have built, a class declares a name with the kind of every ancestor's own
declaration of it. -/
theorem kind_of_override {r : Registry} (h : Built (fun r e ↦ e.Careful r) r) {c a : ClassId} (hc : c.index < r.size)
    (ha : a ∈ r.ancestors c) {name : String} {k k' : CallableKind} (hk : r.declaredKind c name = some k)
    (hk' : r.declaredKind a name = some k') : k = k' :=
  h.coherent c hc c (h.sound.self_mem_ancestors hc) a ha name k k' hk hk'

/-! ### A parent and a child -/

section parentAndChild

def parentDecl : ClassDecl := { name := "Parent" }

def childDecl : ClassDecl := { name := "Child", supertypes := ["Parent"], members := [⟨"act", .coroutine, default⟩] }

/-- A class with a coroutine `act`, below a class that declares nothing. -/
def parentAndChild : Array ClassRecord := #[
  ⟨"Parent", [], [⟨1⟩], [⟨0⟩], [], [], [], false⟩,
  ⟨"Child", [⟨0⟩], [], [⟨1⟩, ⟨0⟩], [], [⟨"act", ⟨1⟩, .coroutine, default⟩], [], false⟩]

theorem exists_parentAndChild : ∃ r, Built (fun r e ↦ e.Careful r) r ∧ r.classes = parentAndChild := by
  have hname : ({} : Registry).checkName parentDecl = .ok () := by
    simp [checkName, classNamed, parentDecl]
  have hsuper : ({} : Registry).resolveSupertypes parentDecl.supertypes = .ok [] := rfl
  obtain ⟨r₁, hreg₁, hr₁⟩ := register_ok .empty rfl rfl hname hsuper (by decide) (by simp [parentDecl])
  have hbuilt₁ : Built (fun r e ↦ e.Careful r) r₁ :=
    .edit .empty (e := .register parentDecl) trivial (Edit.careful_register hsuper (by decide))
      (Action.bind_of_ok hreg₁)
  have hclasses : r₁.classes = #[⟨"Parent", [], [], [⟨0⟩], [], [], [], false⟩] := hr₁.classes
  have hname₁ : r₁.checkName childDecl = .ok () := by
    simp [checkName, classNamed, hclasses, childDecl]
  have hsuper₁ : r₁.resolveSupertypes childDecl.supertypes = .ok [⟨0⟩] := by
    simp [resolveSupertypes, classNamed, hclasses, childDecl, List.foldlM]
  have hadmits : ∀ m ∈ childDecl.members, r₁.Admits [⟨0⟩] "Child" m := by
    simp [childDecl, Admits, checkLifecycle, constructorName, destructorName, search, ancestors, ownMembers, record, hclasses]
  obtain ⟨r₂, hreg₂, hr₂⟩ := register_ok hr₁.sound rfl rfl hname₁ hsuper₁ (by simp [size, hclasses, maxSize, UInt32.size]) hadmits
  refine ⟨r₂, .edit hbuilt₁ (e := .register childDecl) trivial (Edit.careful_register hsuper₁ (by decide))
      (Action.bind_of_ok hreg₂), hr₂.classes.trans ?_⟩
  obtain ⟨classes, cache⟩ := r₁
  subst hclasses
  rfl

/-- Defining `act` in the parent succeeds with either kind: the child is not looked at. -/
theorem exists_define_parent {r : Registry} (h : r.Sound) (hclasses : r.classes = parentAndChild) (kind : CallableKind) :
    ∃ r', define ⟨0⟩ ⟨"act", kind, default⟩ r = (.ok (), r') ∧ 1 < r'.size ∧ ⟨0⟩ ∈ r'.ancestors ⟨1⟩ ∧
      r'.declaredKind ⟨1⟩ "act" = some .coroutine ∧ r'.declaredKind ⟨0⟩ "act" = some kind := by
  have hsize : r.size = 2 := congrArg Array.size hclasses
  have hparent : (⟨0⟩ : ClassId).index < r.size := by simp [hsize]
  have hchild : (⟨1⟩ : ClassId).index < r.size := by simp [hsize]
  have hadmits : r.Admits (r.supertypes ⟨0⟩) (r.nameOf ⟨0⟩) ⟨"act", kind, default⟩ := by
    simp [Admits, checkLifecycle, constructorName, destructorName, supertypes, record, hclasses, parentAndChild]
  have hreplace : r.checkReplace ⟨0⟩ ⟨"act", kind, default⟩ = .ok () := by
    simp [checkReplace, ownMembers, record, hclasses, parentAndChild]
  obtain ⟨r', hdef, hr'⟩ := define_ok h hparent hadmits hreplace
  have hsize' : r'.size = 2 := by
    rw [hr'.size]
    exact (size_storeMember r _ _).trans hsize
  have hancestors : r'.ancestors ⟨1⟩ = [⟨1⟩, ⟨0⟩] := by
    rw [hr'.ancestors]
    refine (ancestors_storeMember r _ _ hchild).trans ?_
    simp [ancestors, record, hclasses, parentAndChild]
  refine ⟨r', hdef, by simp [hsize'], by simp [hancestors], ?_, ?_⟩
  · rw [hr'.declaredKind, declaredKind_storeMember hchild, if_neg (by simp)]
    simp [declaredKind, ownMembers, record, hclasses, parentAndChild, Member.lookup]
  · rw [hr'.declaredKind, declaredKind_storeMember hparent, if_pos ⟨rfl, rfl⟩]

theorem Built.mono {p q : Registry → Edit → Prop} {r : Registry} (h : Built p r) (hpq : ∀ r e, p r e → q r e) :
    Built q r := by
  induction h with
  | empty => exact .empty
  | edit _ hfits hallowed hrun ih => exact .edit ih hfits (hpq _ _ hallowed) hrun

/-- A coroutine defined above a coroutine: the theorem applies, and both sides are coroutines. -/
theorem kind_of_override_parentAndChild : ∃ r, Built (fun r e ↦ e.Careful r) r ∧ ⟨0⟩ ∈ r.ancestors ⟨1⟩ ∧
    r.declaredKind ⟨1⟩ "act" = some .coroutine ∧ r.declaredKind ⟨0⟩ "act" = some .coroutine ∧
    CallableKind.coroutine = .coroutine := by
  obtain ⟨r, hbuilt, hclasses⟩ := exists_parentAndChild
  obtain ⟨r', hdef, hsize, hmem, hchild, hparent⟩ := exists_define_parent hbuilt.sound hclasses .coroutine
  have hbuilt' : Built (fun r e ↦ e.Careful r) r' := by
    refine .edit hbuilt (e := .define ⟨0⟩ ⟨"act", .coroutine, default⟩) ?_ ?_ hdef
    · simp [Edit.Fits, size, hclasses, parentAndChild]
    · rintro - d - - ⟨_ | _ | i⟩ - k hk <;>
        simp [declaredKind, ownMembers, record, hclasses, parentAndChild, Member.lookup] at hk
      · exact hk.symm
      · obtain ⟨_, ⟨⟩, -⟩ := hk
  exact ⟨r', hbuilt', hmem, hchild, hparent, kind_of_override hbuilt' hsize hmem hchild hparent⟩

/-- A method defined above a coroutine is accepted: without the condition on edits an override can be of
another kind. -/
theorem not_kind_of_override : ¬ ∀ r, Built (fun _ _ ↦ True) r → ∀ c, c.index < r.size → ∀ a ∈ r.ancestors c,
    ∀ name k k', r.declaredKind c name = some k → r.declaredKind a name = some k' → k = k' := by
  intro hall
  obtain ⟨r, hbuilt, hclasses⟩ := exists_parentAndChild
  obtain ⟨r', hdef, hsize, hmem, hchild, hparent⟩ := exists_define_parent hbuilt.sound hclasses .method
  have hbuilt' : Built (fun _ _ ↦ True) r' := by
    refine .edit (hbuilt.mono fun _ _ _ ↦ trivial) (e := .define ⟨0⟩ ⟨"act", .method, default⟩) ?_ trivial hdef
    simp [Edit.Fits, size, hclasses, parentAndChild]
  have hsame := hall r' hbuilt' ⟨1⟩ hsize ⟨0⟩ hmem "act" .coroutine .method hchild hparent
  cases hsame

end parentAndChild

end MindScript.Registry
