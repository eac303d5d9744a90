import StaticResolution.Lookup
import StaticResolution.Proofs.Layout.Within

/-!
Sites of a member as sets of sub-objects: which sub-objects declare it, and which of these none of
the others contains.
-/

namespace StaticResolution

/-- The member belongs to a class of the name, and is not a constructor. -/
def ClassTable.Declares (table : ClassTable) (className member : String) : Prop :=
  ∃ decl ∈ table.classes, decl.name = className ∧
    ∃ entry ∈ decl.members, entry.kind ≠ .constructor ∧ entry.name = member

theorem ClassDef.declares_iff (decl : ClassDef) (member : String) :
    decl.declares member = true ↔
      ∃ entry ∈ decl.members, entry.kind ≠ .constructor ∧ entry.name = member := by
  simp [ClassDef.declares, ClassDef.findMembers, Member.isConstructor]

theorem ClassTable.declares_iff {table : ClassTable} (formed : WellFormed table)
    {className member : String} :
    table.declares className member = true ↔ table.Declares className member := by
  simp only [ClassTable.declares, Option.any_eq_true_iff_get, ClassTable.Declares]
  constructor
  · rintro ⟨present, declared⟩
    obtain ⟨listed, named⟩ := mem_of_find? (Option.some_get present).symm
    exact ⟨_, listed, named, (ClassDef.declares_iff _ _).mp declared⟩
  · rintro ⟨decl, listed, named, declared⟩
    have found := formed.find?_of_mem listed named
    refine ⟨by simp [found], ?_⟩
    simpa [found] using (ClassDef.declares_iff decl member).mpr declared

namespace Layout

def declarers (table : ClassTable) (layout : Layout) (member : String) : Set Nat :=
  {id | ∃ part, layout.get? id = some part ∧ table.Declares part.className member}

def outermost (layout : Layout) (ids : Set Nat) : Set Nat :=
  {id ∈ ids | ∀ other ∈ ids, layout.contains other id = false}

def IsSite (layout : Layout) (member : String) (site : MemberSite) : Prop :=
  ∃ part, layout.get? site.subobject = some part ∧ site.className = part.className ∧
    site.member = member

theorem IsSite.ext {layout : Layout} {member : String} {first second : MemberSite}
    (firstSite : layout.IsSite member first) (secondSite : layout.IsSite member second)
    (same : first.subobject = second.subobject) : first = second := by
  obtain ⟨part, partAt, className, name⟩ := firstSite
  obtain ⟨other, otherAt, otherClass, otherName⟩ := secondSite
  rw [← same, partAt, Option.some.injEq] at otherAt
  subst otherAt
  cases first
  cases second
  cases same
  cases className
  cases otherClass
  cases name
  cases otherName
  rfl

/-- The sites of a member in the sub-objects of a set, by increasing ids. -/
structure ListsSites (layout : Layout) (member : String) (ids : Set Nat)
    (sites : List MemberSite) : Prop where
  ordered : sites.Pairwise fun early late => early.subobject < late.subobject
  complete : ∀ id ∈ ids, ∃ site ∈ sites, site.subobject = id
  sound : ∀ site ∈ sites, site.subobject ∈ ids
  isSite : ∀ site ∈ sites, layout.IsSite member site

namespace ListsSites

variable {layout : Layout} {member : String} {ids : Set Nat} {sites : List MemberSite}

theorem unique (lists : layout.ListsSites member ids sites) {others : List MemberSite}
    (alike : layout.ListsSites member ids others) : sites = others := by
  have inside : ∀ {left right}, layout.ListsSites member ids left →
      layout.ListsSites member ids right → ∀ site ∈ left, site ∈ right := by
    intro left right leftLists rightLists site listed
    obtain ⟨other, found, same⟩ := rightLists.complete _ (leftLists.sound site listed)
    rwa [← (rightLists.isSite other found).ext (leftLists.isSite site listed) same]
  have increasing := lists.ordered
  have alikeIncreasing := alike.ordered
  let before (early late : MemberSite) := early.subobject < late.subobject
  have : Std.Irrefl before := ⟨fun _ => Nat.lt_irrefl _⟩
  have : Std.Antisymm before :=
    ⟨fun _ _ forth back => absurd (Nat.lt_trans forth back) (Nat.lt_irrefl _)⟩
  exact List.Pairwise.eq_of_mem_iff increasing alikeIncreasing fun site =>
    ⟨inside lists alike site, inside alike lists site⟩

theorem eq_nil_iff (lists : layout.ListsSites member ids sites) : sites = [] ↔ ids = ∅ := by
  constructor
  · rintro rfl
    apply Set.eq_empty_of_forall_notMem
    intro id inside
    obtain ⟨site, listed, _⟩ := lists.complete id inside
    exact List.not_mem_nil listed
  · rintro rfl
    apply List.eq_nil_iff_forall_not_mem.mpr
    exact fun site listed => lists.sound site listed

theorem eq_singleton {winner : MemberSite} (lists : layout.ListsSites member ids [winner]) :
    ids = {winner.subobject} := by
  apply Set.eq_singleton_iff_unique_mem.mpr
  refine ⟨lists.sound winner (by simp), ?_⟩
  intro id inside
  obtain ⟨site, listed, same⟩ := lists.complete id inside
  rw [← same, List.mem_singleton.mp listed]

theorem isLeast_head {winner : MemberSite} {rest : List MemberSite}
    (lists : layout.ListsSites member ids (winner :: rest)) : IsLeast ids winner.subobject := by
  refine ⟨lists.sound winner (by simp), ?_⟩
  intro id inside
  obtain ⟨site, listed, rfl⟩ := lists.complete id inside
  rcases List.mem_cons.mp listed with rfl | later
  · exact Nat.le_refl _
  · exact Nat.le_of_lt ((List.pairwise_cons.mp lists.ordered).1 site later)

end ListsSites

def Numbered (layout : Layout) : Prop :=
  ∀ id part, layout.get? id = some part → part.id = id

theorem Numbered.get?_id {layout : Layout} (numbered : layout.Numbered) {part : Subobject}
    (listed : part ∈ layout.subobjects) : layout.get? part.id = some part := by
  obtain ⟨id, partAt⟩ := List.mem_iff_getElem?.mp listed
  rwa [numbered id part partAt]

theorem Numbered.pairwise_id {layout : Layout} (numbered : layout.Numbered) :
    layout.subobjects.Pairwise fun early late => early.id < late.id := by
  rw [List.pairwise_iff_getElem]
  intro early late earlyBound lateBound before
  have first := numbered early _ (List.getElem?_eq_getElem earlyBound)
  have second := numbered late _ (List.getElem?_eq_getElem lateBound)
  rwa [first, second]

def accepted (layout : Layout) (p : Subobject → Bool) : Set Nat :=
  {id | ∃ part, layout.get? id = some part ∧ p part = true}

theorem listsSites_filter {layout : Layout} (member : String) (numbered : layout.Numbered)
    (p : Subobject → Bool) :
    layout.ListsSites member (layout.accepted p)
      ((layout.subobjects.filter p).map fun part => part.site member) := by
  refine ⟨?_, ?_, ?_, ?_⟩
  · rw [List.pairwise_map]
    exact numbered.pairwise_id.filter p
  · rintro id ⟨part, partAt, accepted⟩
    have listed := List.mem_of_getElem? partAt
    exact ⟨_, List.mem_map_of_mem (List.mem_filter.mpr ⟨listed, accepted⟩), numbered id part partAt⟩
  · intro site listed
    obtain ⟨part, filtered, rfl⟩ := List.mem_map.mp listed
    obtain ⟨inside, accepted⟩ := List.mem_filter.mp filtered
    exact ⟨part, numbered.get?_id inside, accepted⟩
  · intro site listed
    obtain ⟨part, filtered, rfl⟩ := List.mem_map.mp listed
    exact ⟨part, numbered.get?_id (List.mem_filter.mp filtered).1, rfl, rfl⟩

variable {table : ClassTable} {layout : Layout}

theorem mem_properParts_iff {outer inner : Nat} :
    inner ∈ layout.properParts outer ↔ layout.contains outer inner = true := by
  simp only [properParts, List.mem_filter, contains, Bool.and_eq_true, decide_eq_true_eq,
    List.contains_iff_mem]
  constructor
  · rintro ⟨inside, differ⟩
    exact ⟨differ.symm, inside⟩
  · rintro ⟨differ, inside⟩
    exact ⟨inside, differ.symm⟩

def survives (layout : Layout) (found : List Subobject) (part : Subobject) : Bool :=
  found.all fun other => !layout.contains other.id part.id

theorem splitHidden_eq (found : List Subobject) :
    layout.splitHidden found = (found.filter (layout.survives found),
      found.filter fun part => !layout.survives found part) := by
  have kept : (fun part : Subobject =>
      !(found.flatMap fun outer => layout.properParts outer.id).contains part.id) =
        layout.survives found := by
    funext part
    rw [survives, ← List.not_any_eq_all_not, Bool.not_inj_iff, Bool.eq_iff_iff,
      List.contains_iff_mem, List.mem_flatMap, List.any_eq_true]
    simp only [mem_properParts_iff]
  rw [splitHidden, kept, List.partition_eq_filter_filter]
  rfl

theorem declarers_eq_accepted (formed : table.WellFormed) (member : String) :
    layout.declarers table member =
      layout.accepted fun part => table.declares part.className member := by
  ext id
  simp only [declarers, accepted, Set.mem_ofPred_eq, ClassTable.declares_iff formed]

section Split

variable (numbered : layout.Numbered) (member : String) {p : Subobject → Bool}

include numbered

theorem survives_iff {part : Subobject} :
    layout.survives (layout.subobjects.filter p) part = true ↔
      ∀ other ∈ layout.accepted p, layout.contains other part.id = false := by
  simp only [survives, List.all_eq_true, Bool.not_eq_true']
  constructor
  · rintro apart id ⟨other, otherAt, taken⟩
    rw [← numbered id other otherAt]
    exact apart other (List.mem_filter.mpr ⟨List.mem_of_getElem? otherAt, taken⟩)
  · intro apart other listed
    obtain ⟨inside, taken⟩ := List.mem_filter.mp listed
    obtain ⟨id, otherAt⟩ := List.mem_iff_getElem?.mp inside
    rw [numbered id other otherAt]
    exact apart id ⟨other, otherAt, taken⟩

theorem listsSites_kept {keep : Subobject → Bool} {ids : Set Nat}
    (inside : ids ⊆ layout.accepted p)
    (agrees : ∀ id part, layout.get? id = some part → id ∈ layout.accepted p →
      (id ∈ ids ↔ keep part = true)) :
    layout.ListsSites member ids
      (((layout.subobjects.filter p).filter keep).map fun part => part.site member) := by
  have same : ids = layout.accepted fun part => keep part && p part := by
    ext id
    simp only [accepted, Set.mem_ofPred_eq, Bool.and_eq_true]
    constructor
    · intro kept
      obtain ⟨part, partAt, taken⟩ := inside kept
      exact ⟨part, partAt, (agrees id part partAt (inside kept)).mp kept, taken⟩
    · rintro ⟨part, partAt, kept, taken⟩
      exact (agrees id part partAt ⟨part, partAt, taken⟩).mpr kept
  rw [same, List.filter_filter]
  exact listsSites_filter member numbered _

theorem listsSites_splitHidden {survivors hidden : List Subobject}
    (split : layout.splitHidden (layout.subobjects.filter p) = (survivors, hidden)) :
    layout.ListsSites member (layout.outermost (layout.accepted p))
        (survivors.map fun part => part.site member) ∧
      layout.ListsSites member (layout.accepted p \ layout.outermost (layout.accepted p))
        (hidden.map fun part => part.site member) := by
  rw [splitHidden_eq, Prod.mk.injEq] at split
  obtain ⟨rfl, rfl⟩ := split
  have free : ∀ id part, layout.get? id = some part → id ∈ layout.accepted p →
      (id ∈ layout.outermost (layout.accepted p) ↔
        layout.survives (layout.subobjects.filter p) part = true) := by
    intro id part partAt taken
    rw [survives_iff numbered, numbered id part partAt]
    exact and_iff_right taken
  constructor
  · exact listsSites_kept numbered member (fun id outermost => outermost.1) free
  · refine listsSites_kept numbered member (fun id hidden => hidden.1) ?_
    intro id part partAt taken
    rw [Set.mem_sdiff, free id part partAt taken, Bool.not_eq_true']
    simp [taken]

end Split

end Layout

end StaticResolution
