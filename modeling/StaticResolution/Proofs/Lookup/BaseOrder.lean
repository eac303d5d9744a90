import StaticResolution.Proofs.ClassTable.Refinement
import StaticResolution.Proofs.Conversion
import StaticResolution.Proofs.Lookup.Sites

/-!
The order of the bases of a class decides in which order the sub-objects are numbered, and nothing
else: the chains are the same, and which sub-objects declare a member and which of them another one
hides are questions about chains and not about numbers.
-/

namespace StaticResolution

namespace ClassTable

def hides (table : ClassTable) (outer inner : Chain) : Bool :=
  outer ≠ inner && (table.chains.preorder outer).contains inner

/-- None of the chains that were found stands around this one. -/
def isFree (table : ClassTable) (found : List Chain) (chain : Chain) : Bool :=
  found.all fun other => !table.hides other chain

def declaringChains (table : ClassTable) (root member : String) : List Chain :=
  (table.chainsOf root).filter fun chain => table.declares chain.leaf member

def freeChains (table : ClassTable) (root member : String) : List Chain :=
  let found := table.declaringChains root member
  found.filter (table.isFree found)

def hiddenChains (table : ClassTable) (root member : String) : List Chain :=
  let found := table.declaringChains root member
  found.filter fun chain => !table.isFree found chain

theorem hides_iff {table : ClassTable} {outer inner : Chain} :
    table.hides outer inner = true ↔ outer ≠ inner ∧ table.chains.Reaches outer inner := by
  rw [hides, Bool.and_eq_true, decide_eq_true_eq, List.contains_iff_mem, Descent.mem_preorder_iff]

end ClassTable

namespace Layout

def StandsFor (layout : Layout) (list : List Chain) (part : Subobject) (chain : Chain) : Prop :=
  ∃ id, layout.get? id = some part ∧ list[id]? = some chain

namespace ListsChains

variable {table : ClassTable} {layout : Layout} {root : String}

theorem contains_eq_hides (lists : layout.ListsChains table (table.chainsOf root))
    {outer inner : Nat} {around chain : Chain}
    (outerAt : (table.chainsOf root)[outer]? = some around)
    (innerAt : (table.chainsOf root)[inner]? = some chain) :
    layout.contains outer inner = table.hides around chain := by
  rw [Bool.eq_iff_iff, lists.contains_iff outerAt innerAt, ClassTable.hides_iff]
  apply and_congr_left'
  apply not_congr
  constructor
  · rintro rfl
    exact Option.some.inj (outerAt.symm.trans innerAt)
  · rintro rfl
    exact (idxOf_eq outerAt).symm.trans (idxOf_eq innerAt)

theorem forall₂_standsFor {list : List Chain} (lists : layout.ListsChains table list) :
    List.Forall₂ (layout.StandsFor list) layout.subobjects list := by
  rw [List.forall₂_iff_get]
  refine ⟨lists.size, ?_⟩
  intro id partBound chainBound
  exact ⟨id, List.getElem?_eq_getElem partBound, List.getElem?_eq_getElem chainBound⟩

variable (lists : layout.ListsChains table (table.chainsOf root)) {part : Subobject} {chain : Chain}

include lists

theorem className_of_standsFor (stands : layout.StandsFor (table.chainsOf root) part chain) :
    part.className = chain.leaf := by
  obtain ⟨id, partAt, found⟩ := stands
  obtain ⟨same, sameAt, _, named, _⟩ := lists.part id chain found
  cases partAt.symm.trans sameAt
  exact named

theorem contains_of_standsFor {other : Subobject} {around : Chain}
    (otherStands : layout.StandsFor (table.chainsOf root) other around)
    (stands : layout.StandsFor (table.chainsOf root) part chain) :
    layout.contains other.id part.id = table.hides around chain := by
  obtain ⟨outer, otherAt, outerAt⟩ := otherStands
  obtain ⟨inner, partAt, innerAt⟩ := stands
  obtain ⟨_, _, outerId, _⟩ := lists.chain otherAt
  obtain ⟨_, _, innerId, _⟩ := lists.chain partAt
  rw [outerId, innerId, lists.contains_eq_hides outerAt innerAt]

theorem map_className_of_forall₂ {parts : List Subobject} {chains : List Chain}
    (stand : List.Forall₂ (layout.StandsFor (table.chainsOf root)) parts chains) :
    parts.map Subobject.className = chains.map Chain.leaf := by
  induction stand with
  | nil => rfl
  | cons first _ ih => rw [List.map_cons, List.map_cons, lists.className_of_standsFor first, ih]

theorem survives_of_forall₂ {parts : List Subobject} {chains : List Chain}
    (stand : List.Forall₂ (layout.StandsFor (table.chainsOf root)) parts chains)
    (stands : layout.StandsFor (table.chainsOf root) part chain) :
    layout.survives parts part = table.isFree chains chain := by
  unfold survives ClassTable.isFree
  induction stand with
  | nil => rfl
  | cons first _ ih =>
      rw [List.all_cons, List.all_cons, ih, lists.contains_of_standsFor first stands]

theorem forall₂_declarers (member : String) :
    List.Forall₂ (layout.StandsFor (table.chainsOf root))
      (table.declarers layout.subobjects member) (table.declaringChains root member) := by
  refine List.rel_filter ?_ lists.forall₂_standsFor
  intro part chain stands
  simp only [lists.className_of_standsFor stands]

theorem classNames_declarers (member : String) :
    (table.declarers layout.subobjects member).map Subobject.className =
      (table.declaringChains root member).map Chain.leaf :=
  lists.map_className_of_forall₂ (lists.forall₂_declarers member)

theorem classNames_splitHidden (member : String) :
    (layout.splitHidden (table.declarers layout.subobjects member)).1.map Subobject.className =
        (table.freeChains root member).map Chain.leaf ∧
      (layout.splitHidden (table.declarers layout.subobjects member)).2.map Subobject.className =
        (table.hiddenChains root member).map Chain.leaf := by
  have declarers := lists.forall₂_declarers member
  rw [splitHidden_eq]
  constructor
  · apply lists.map_className_of_forall₂
    refine List.rel_filter ?_ declarers
    intro part chain stands
    simp only [lists.survives_of_forall₂ declarers stands]
  · apply lists.map_className_of_forall₂
    refine List.rel_filter ?_ declarers
    intro part chain stands
    simp only [lists.survives_of_forall₂ declarers stands]

end ListsChains

end Layout

/-- The same classes with the same members, and with the same base clauses in some order. -/
structure ReordersBases (classes others : List ClassDef) : Prop where
  names : (others.map ClassDef.name).Perm (classes.map ClassDef.name)
  alike : ∀ decl ∈ classes, ∃ other ∈ others, other.name = decl.name ∧
    other.members.Perm decl.members ∧ other.bases.Perm decl.bases

theorem ReordersBases.of_perm {classes others listed otherListed : List ClassDef}
    (reorders : ReordersBases classes others) (perm : listed.Perm classes)
    (otherPerm : otherListed.Perm others) : ReordersBases listed otherListed := by
  constructor
  · exact ((otherPerm.map _).trans reorders.names).trans (perm.map _).symm
  · intro decl inside
    obtain ⟨other, otherInside, same⟩ := reorders.alike decl (perm.mem_iff.mp inside)
    exact ⟨other, otherPerm.mem_iff.mpr otherInside, same⟩

namespace ReordersBases

open ClassTable

variable {table other : ClassTable}

theorem contains_eq (reorders : ReordersBases table.classes other.classes) :
    other.contains = table.contains := by
  funext name
  rw [Bool.eq_iff_iff, contains_iff_mem, contains_iff_mem, reorders.names.mem_iff]

variable (reorders : ReordersBases table.classes other.classes) (otherFormed : other.WellFormed)

include reorders otherFormed

theorem find?_cases (name : String) :
    (table.find? name = none ∧ other.find? name = none) ∨
      ∃ decl alike, table.find? name = some decl ∧ other.find? name = some alike ∧
        alike.members.Perm decl.members ∧ alike.bases.Perm decl.bases := by
  cases found : table.find? name with
  | none =>
      refine .inl ⟨rfl, ?_⟩
      rw [find?_eq_none_iff] at found ⊢
      rw [reorders.contains_eq, found]
  | some decl =>
      obtain ⟨listed, named⟩ := mem_of_find? found
      obtain ⟨alike, alikeListed, same, members, bases⟩ := reorders.alike decl listed
      exact .inr ⟨decl, alike, rfl, otherFormed.find?_of_mem alikeListed (same.trans named),
        members, bases⟩

theorem basesOf_perm (name : String) : (other.basesOf name).Perm (table.basesOf name) := by
  rcases reorders.find?_cases otherFormed name with
    ⟨none, otherNone⟩ | ⟨decl, alike, found, alikeFound, _, perm⟩
  · rw [basesOf, basesOf, none, otherNone]
  · rw [basesOf, basesOf, found, alikeFound]
    exact perm

theorem declares_eq : other.declares = table.declares := by
  funext className member
  rcases reorders.find?_cases otherFormed className with
    ⟨none, otherNone⟩ | ⟨decl, alike, found, alikeFound, members, _⟩
  · rw [ClassTable.declares, ClassTable.declares, none, otherNone]
  · rw [ClassTable.declares, ClassTable.declares, found, alikeFound, Option.any_some,
      Option.any_some, Bool.eq_iff_iff, ClassDef.declares_iff, ClassDef.declares_iff]
    simp only [members.mem_iff]

theorem inherits_eq : other.Inherits = table.Inherits :=
  Descent.reaches_congr fun name _ =>
    ((reorders.basesOf_perm otherFormed name).map Base.name).mem_iff

theorem hasLink_iff (name : String) (link : Link) :
    other.HasLink name link ↔ table.HasLink name link := by
  simp only [HasLink, reorders.inherits_eq otherFormed,
    (reorders.basesOf_perm otherFormed link.derived).mem_iff]

theorem reaches_eq : other.chains.Reaches = table.chains.Reaches :=
  Descent.reaches_congr fun chain _ =>
    ((reorders.basesOf_perm otherFormed chain.leaf).map chain.extend).mem_iff

theorem chainsOf_perm (root : String) : (other.chainsOf root).Perm (table.chainsOf root) := by
  rw [List.perm_ext_iff_of_nodup nodup_chainsOf nodup_chainsOf]
  intro chain
  rw [chainsOf, chainsOf, Descent.mem_preorder_iff, Descent.mem_preorder_iff,
    reorders.reaches_eq otherFormed]

theorem hides_eq : other.hides = table.hides := by
  funext outer inner
  rw [Bool.eq_iff_iff, hides_iff, hides_iff, reorders.reaches_eq otherFormed]

theorem declaringChains_perm (root member : String) :
    (other.declaringChains root member).Perm (table.declaringChains root member) := by
  rw [declaringChains, declaringChains, reorders.declares_eq otherFormed]
  exact (reorders.chainsOf_perm otherFormed root).filter _

theorem isFree_eq (root member : String) :
    other.isFree (other.declaringChains root member) =
      table.isFree (table.declaringChains root member) := by
  funext chain
  rw [isFree, isFree, reorders.hides_eq otherFormed,
    (reorders.declaringChains_perm otherFormed root member).all_eq]

theorem count_eq (formed : table.WellFormed) (root name : String) :
    (other.layoutOf root).count name = (table.layoutOf root).count name := by
  rw [count_layoutOf otherFormed, count_layoutOf formed]
  exact ((reorders.chainsOf_perm otherFormed root).map Chain.leaf).count_eq name

theorem conversion?_eq (formed : table.WellFormed) (source target : String) :
    other.conversion? source target = table.conversion? source target := by
  rw [conversion?, conversion?, reorders.count_eq otherFormed formed]

end ReordersBases

/-- Results of lookups that name the same classes, up to the order of candidates and of shadowed
declarations. -/
inductive AlikeByClass : Except QueryError (Verdict MemberSite) →
    Except QueryError (Verdict MemberSite) → Prop
  | error (fault : QueryError) : AlikeByClass (.error fault) (.error fault)
  | unique {winner other : MemberSite} (same : other.className = winner.className) :
      AlikeByClass (.ok (.unique winner)) (.ok (.unique other))
  | hidden {winner other : MemberSite} {shadowed others : List MemberSite}
      (same : other.className = winner.className)
      (perm : (others.map MemberSite.className).Perm (shadowed.map MemberSite.className)) :
      AlikeByClass (.ok (.hidden winner shadowed)) (.ok (.hidden other others))
  | ambiguous {candidates others : List MemberSite}
      (perm : (others.map MemberSite.className).Perm (candidates.map MemberSite.className)) :
      AlikeByClass (.ok (.ambiguous candidates)) (.ok (.ambiguous others))

namespace ClassTable

variable {table other : ClassTable}

theorem alike_of_perm {layout otherLayout : Layout} {member : String}
    (sameName : otherLayout.className = layout.className)
    (found : ((other.declarers otherLayout.subobjects member).map Subobject.className).Perm
      ((table.declarers layout.subobjects member).map Subobject.className))
    (free : ((otherLayout.splitHidden (other.declarers otherLayout.subobjects member)).1.map
        Subobject.className).Perm
      ((layout.splitHidden (table.declarers layout.subobjects member)).1.map Subobject.className))
    (hidden : ((otherLayout.splitHidden (other.declarers otherLayout.subobjects member)).2.map
        Subobject.className).Perm
      ((layout.splitHidden (table.declarers layout.subobjects member)).2.map
        Subobject.className)) :
    AlikeByClass (table.lookup layout member) (other.lookup otherLayout member) := by
  unfold lookup Layout.verdictAmong
  simp only
  generalize table.declarers layout.subobjects member = parts at *
  generalize other.declarers otherLayout.subobjects member = otherParts at *
  have sameCount : otherParts.length = parts.length := by simpa using found.length_eq
  have empty : otherParts.isEmpty = parts.isEmpty := by
    rw [Bool.eq_iff_iff, List.isEmpty_iff_length_eq_zero, List.isEmpty_iff_length_eq_zero,
      sameCount]
  rw [empty, sameName]
  split
  · exact .error _
  · generalize layout.splitHidden parts = split at *
    generalize otherLayout.splitHidden otherParts = otherSplit at *
    obtain ⟨survivors, shadowed⟩ := split
    obtain ⟨otherSurvivors, otherShadowed⟩ := otherSplit
    have freeCount : otherSurvivors.length = survivors.length := by simpa using free.length_eq
    have hiddenCount : otherShadowed.length = shadowed.length := by simpa using hidden.length_eq
    have sites : ∀ list : List Subobject, (list.map fun part => part.site member).map
        MemberSite.className = list.map Subobject.className :=
      fun list => List.map_map
    match survivors, otherSurvivors with
    | [], [] => exact .ambiguous (.refl _)
    | [winner], [otherWinner] =>
        have same : otherWinner.className = winner.className := by simpa using free
        match shadowed, otherShadowed with
        | [], [] => exact .unique same
        | first :: rest, otherFirst :: otherRest =>
            refine .hidden same ?_
            rw [sites, sites]
            exact hidden
    | first :: second :: rest, otherFirst :: otherSecond :: otherRest =>
        refine .ambiguous ?_
        rw [sites, sites]
        exact free

theorem lookup_alike (reorders : ReordersBases table.classes other.classes)
    (formed : table.WellFormed) (otherFormed : other.WellFormed) (name member : String) :
    AlikeByClass (table.lookup (table.layoutOf name) member)
      (other.lookup (other.layoutOf name) member) := by
  have lists := layoutOf_listsChains formed name
  have otherLists := layoutOf_listsChains otherFormed name
  have declaring := reorders.declaringChains_perm otherFormed name member
  have isFree := reorders.isFree_eq otherFormed name member
  obtain ⟨free, hidden⟩ := lists.classNames_splitHidden member
  obtain ⟨otherFree, otherHidden⟩ := otherLists.classNames_splitHidden member
  apply alike_of_perm
  · rfl
  · rw [lists.classNames_declarers, otherLists.classNames_declarers]
    exact declaring.map _
  · rw [free, otherFree, freeChains, freeChains, isFree]
    exact (declaring.filter _).map _
  · rw [hidden, otherHidden, hiddenChains, hiddenChains, isFree]
    exact (declaring.filter _).map _

/-- Tables whose classes differ in the order of their bases only have the same ancestries as sets,
the same numbers of sub-objects and the same conversions. Their lookups find the same classes. -/
theorem base_order_free (reachable : Reachable table) (otherReachable : Reachable other)
    (reorders : ReordersBases table.classes other.classes) :
    (∀ name, table.contains name = true →
      (∃ ancestry otherAncestry, table.ancestry name = .ok ancestry ∧
        other.ancestry name = .ok otherAncestry ∧
        (∀ link, link ∈ otherAncestry.links ↔ link ∈ ancestry.links) ∧
        ∀ ancestor, ancestor ∈ otherAncestry.ancestors ↔ ancestor ∈ ancestry.ancestors) ∧
      ∃ layout otherLayout, table.layout name = .ok layout ∧
        other.layout name = .ok otherLayout ∧
        (∀ className, otherLayout.count className = layout.count className) ∧
        ∀ member, AlikeByClass (table.lookup layout member) (other.lookup otherLayout member)) ∧
    ∀ source target (memo otherMemo : LayoutMemo), memo.Coherent table → otherMemo.Coherent other →
      ((other.convert source target).run otherMemo).run.1 =
        ((table.convert source target).run memo).run.1 := by
  have formed := reachable.wellFormed
  have otherFormed := otherReachable.wellFormed
  constructor
  · intro name registered
    have otherRegistered : other.contains name = true := by rwa [reorders.contains_eq]
    obtain ⟨ancestry, found, ancestors, links⟩ := exists_ancestry registered
    obtain ⟨otherAncestry, otherFound, otherAncestors, otherLinks⟩ :=
      exists_ancestry otherRegistered
    refine ⟨⟨ancestry, otherAncestry, found, otherFound, ?_, ?_⟩, table.layoutOf name,
      other.layoutOf name, layout_eq_ok_iff.mpr ⟨registered, rfl⟩,
      layout_eq_ok_iff.mpr ⟨otherRegistered, rfl⟩, reorders.count_eq otherFormed formed name,
      lookup_alike reorders formed otherFormed name⟩
    · intro link
      rw [otherLinks, links, reorders.hasLink_iff otherFormed]
    · intro ancestor
      rw [otherAncestors, ancestors, reorders.inherits_eq otherFormed]
  · intro source target memo otherMemo coherent otherCoherent
    exact convert_eq_of_conversion?_eq formed otherFormed
      (reorders.conversion?_eq otherFormed formed source target) coherent otherCoherent

theorem base_order_free_mixed :
    ∃ other : ClassTable, mixed.Reachable ∧ other.Reachable ∧
      ReordersBases mixed.classes other.classes ∧
      (∃ layout otherLayout, mixed.layout "D" = .ok layout ∧ other.layout "D" = .ok otherLayout ∧
        mixed.lookup layout "m" = .ok (.ambiguous [⟨1, "B", "m"⟩, ⟨5, "A", "m"⟩]) ∧
        other.lookup otherLayout "m" = .ok (.ambiguous [⟨2, "A", "m"⟩, ⟨5, "B", "m"⟩]) ∧
        AlikeByClass (mixed.lookup layout "m") (other.lookup otherLayout "m")) ∧
      ((other.convert "D" "E").run .empty).run.1 = ((mixed.convert "D" "E").run .empty).run.1 := by
  let batch : List ClassDef :=
    { name := "D", bases := [⟨"E", false⟩, ⟨"C", false⟩, ⟨"B", false⟩], members := [.data "d"] } ::
      mixedBatch.tail
  have done : outcome (registerAll mixedBatch) .empty = (.ok [0, 1, 2, 3, 4], mixed) :=
    Prod.ext (by cbv) rfl
  have otherDone : outcome (registerAll batch) .empty =
      (.ok [0, 1, 2, 3, 4], (outcome (registerAll batch) .empty).2) := Prod.ext (by cbv) rfl
  have otherReachable : Reachable (outcome (registerAll batch) .empty).2 := .registerAll _ .empty
  obtain ⟨_, perm, classes⟩ := classes_of_registerAll done
  obtain ⟨_, otherPerm, otherClasses⟩ := classes_of_registerAll otherDone
  have batches : ReordersBases mixedBatch batch := ⟨by decide, by decide⟩
  have reorders : ReordersBases mixed.classes (outcome (registerAll batch) .empty).2.classes := by
    rw [classes, otherClasses]
    exact batches.of_perm perm otherPerm
  obtain ⟨classesAlike, conversions⟩ := base_order_free reachable_mixed otherReachable reorders
  obtain ⟨_, layout, otherLayout, found, otherFound, _, alike⟩ := classesAlike "D" (by cbv)
  obtain ⟨_, computed⟩ := layout_eq_ok_iff.mp found
  obtain ⟨_, otherComputed⟩ := layout_eq_ok_iff.mp otherFound
  refine ⟨_, reachable_mixed, otherReachable, reorders,
    ⟨layout, otherLayout, found, otherFound, ?_, ?_, alike "m"⟩,
    conversions _ _ _ _ (LayoutMemo.coherent_empty _) (LayoutMemo.coherent_empty _)⟩
  · rw [← computed]
    cbv
  · rw [← otherComputed]
    cbv

end ClassTable

end StaticResolution
