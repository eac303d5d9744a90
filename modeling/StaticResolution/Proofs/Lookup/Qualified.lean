import StaticResolution.Proofs.Conversion
import StaticResolution.Proofs.Lookup.Dominance

/-!
Lookup through a qualifier searches a copy of the layout of the qualifier. In the copy the same
declarations hide one another, so that the search finds what a plain lookup in the qualifier finds.
It settles an ambiguity for the candidate that comes first. What can stand as a qualifier are the
class and its ancestors, and the layout meets them in the order of the ancestry.
-/

namespace StaticResolution

namespace Layout

variable {table : ClassTable} {layout : Layout}

def declaredWithin (table : ClassTable) (layout : Layout) (start : Nat) (member : String) :
    Set Nat :=
  {id ∈ layout.declarers table member | id ∈ layout.within start}

def firstSite (qualifier member : String) :
    List MemberSite → Except QueryError (Verdict MemberSite)
  | [] => .error (.unknownMember qualifier member)
  | winner :: _ => .ok (.unique winner)

theorem exists_lookupIn_eq (formed : table.WellFormed) (numbered : layout.Numbered)
    {qualifier : String} {start : Subobject} {rest : List Subobject}
    (copies : layout.ofClass qualifier = start :: rest) (member : String) :
    ∃ sites, layout.ListsSites member
        (layout.outermost (layout.declaredWithin table start.id member)) sites ∧
      table.lookupIn layout qualifier member = firstSite qualifier member sites := by
  have scope : layout.declaredWithin table start.id member = layout.accepted fun part =>
      table.declares part.className member && (layout.within start.id).contains part.id := by
    ext id
    simp only [declaredWithin, declarers, accepted, Set.mem_ofPred_eq, Bool.and_eq_true,
      ClassTable.declares_iff formed, List.contains_iff_mem]
    constructor
    · rintro ⟨⟨part, partAt, declared⟩, inside⟩
      exact ⟨part, partAt, declared, (numbered id part partAt).symm ▸ inside⟩
    · rintro ⟨part, partAt, declared, inside⟩
      exact ⟨⟨part, partAt, declared⟩, numbered id part partAt ▸ inside⟩
  unfold ClassTable.lookupIn choiceAmong ClassTable.declarers
  rw [copies, scope]
  simp only [List.filter_filter]
  cases split : layout.splitHidden (layout.subobjects.filter fun part =>
      table.declares part.className member && (layout.within start.id).contains part.id) with
  | mk survivors hidden =>
      refine ⟨_, (listsSites_splitHidden numbered member split).1, ?_⟩
      cases survivors <;> rfl

theorem lookupIn_notABase {qualifier : String} (none : layout.ofClass qualifier = [])
    (member : String) :
    table.lookupIn layout qualifier member = .error (.notABase layout.className qualifier) := by
  rw [ClassTable.lookupIn, none]

theorem ofClass_isLeast (numbered : layout.Numbered) {name : String} {start : Subobject}
    {rest : List Subobject} (copies : layout.ofClass name = start :: rest) :
    IsLeast {id | ∃ part, layout.get? id = some part ∧ part.className = name} start.id := by
  have lists := listsSites_filter "" numbered fun part => part.className == name
  change layout.ListsSites "" _ ((layout.ofClass name).map _) at lists
  rw [copies, List.map_cons] at lists
  simpa [accepted, Subobject.site] using lists.isLeast_head

def copiesOf (copies : List Nat) (positions : Set Nat) : Set Nat :=
  {id | ∃ position ∈ positions, copies[position]? = some id}

namespace ListsChains

variable {root member : String}

theorem mem_declarers_iff (lists : layout.ListsChains table (table.chainsOf root)) {id : Nat}
    {chain : Chain} (found : (table.chainsOf root)[id]? = some chain) :
    id ∈ layout.declarers table member ↔ table.Declares chain.leaf member := by
  obtain ⟨part, partAt, _, named, _⟩ := lists.part id chain found
  simp [declarers, partAt, named]

variable {inner : Layout} {start : Nat} {outer : Chain}
  (lists : layout.ListsChains table (table.chainsOf root))
  (own : inner.ListsChains table (table.chainsOf outer.leaf))
  (outerAt : (table.chainsOf root)[start]? = some outer)

include lists outerAt

theorem chain_of_copy {position id : Nat} (copied : (layout.within start)[position]? = some id) :
    ∃ chain, (table.chainsOf outer.leaf)[position]? = some chain ∧
      (table.chainsOf root)[id]? = some (outer.graft chain) := by
  rw [ClassTable.within_getElem? lists outerAt, Option.map_eq_some_iff] at copied
  obtain ⟨chain, found, rfl⟩ := copied
  exact ⟨chain, found, List.getElem?_idxOf (ClassTable.graft_mem_chainsOf
    (List.mem_of_getElem? outerAt) (List.mem_of_getElem? found))⟩

theorem exists_copy {position : Nat} {chain : Chain}
    (found : (table.chainsOf outer.leaf)[position]? = some chain) :
    ∃ id, (layout.within start)[position]? = some id := by
  rw [ClassTable.within_getElem? lists outerAt, found]
  exact ⟨_, rfl⟩

include own

theorem contains_copy_iff {above below aboveId belowId : Nat}
    (aboveAt : (layout.within start)[above]? = some aboveId)
    (belowAt : (layout.within start)[below]? = some belowId) :
    layout.contains aboveId belowId = true ↔ inner.contains above below = true := by
  have outerReach := table.chains.mem_preorder_iff.mp (List.mem_of_getElem? outerAt)
  obtain ⟨upper, upperAt, upperCopy⟩ := lists.chain_of_copy outerAt aboveAt
  obtain ⟨lower, lowerAt, lowerCopy⟩ := lists.chain_of_copy outerAt belowAt
  have upperReach := table.chains.mem_preorder_iff.mp (List.mem_of_getElem? upperAt)
  have lowerReach := table.chains.mem_preorder_iff.mp (List.mem_of_getElem? lowerAt)
  rw [lists.contains_iff upperCopy lowerCopy, own.contains_iff upperAt lowerAt,
    ClassTable.reaches_graft_iff outerReach upperReach lowerReach]
  apply and_congr_left'
  apply not_congr
  constructor
  · rintro rfl
    have same := ClassTable.graft_injective outerReach upperReach lowerReach
      (Option.some.inj (upperCopy.symm.trans lowerCopy))
    rw [← idxOf_eq upperAt, ← idxOf_eq lowerAt, same]
  · rintro rfl
    exact Option.some.inj (aboveAt.symm.trans belowAt)

theorem outermost_copiesOf (positions : Set Nat) :
    layout.outermost (copiesOf (layout.within start) positions) =
      copiesOf (layout.within start) (inner.outermost positions) := by
  ext id
  constructor
  · rintro ⟨⟨position, member, copied⟩, free⟩
    refine ⟨position, ⟨member, ?_⟩, copied⟩
    intro other otherMember
    by_contra inside
    have inside : inner.contains other position = true := by simpa using inside
    obtain ⟨_, _, otherAt, _⟩ := own.exists_of_contains inside
    obtain ⟨otherId, otherCopied⟩ := lists.exists_copy outerAt otherAt
    have apart := free otherId ⟨other, otherMember, otherCopied⟩
    rw [(lists.contains_copy_iff own outerAt otherCopied copied).mpr inside] at apart
    exact Bool.noConfusion apart
  · rintro ⟨position, ⟨member, free⟩, copied⟩
    refine ⟨⟨position, member, copied⟩, ?_⟩
    rintro otherId ⟨other, otherMember, otherCopied⟩
    rw [Bool.eq_false_iff, Ne, lists.contains_copy_iff own outerAt otherCopied copied,
      free other otherMember]
    exact Bool.false_ne_true

theorem declaredWithin_eq (member : String) :
    layout.declaredWithin table start member =
      copiesOf (layout.within start) (inner.declarers table member) := by
  have sameClass : ∀ position id, (layout.within start)[position]? = some id →
      (id ∈ layout.declarers table member ↔ position ∈ inner.declarers table member) := by
    intro position id copied
    obtain ⟨chain, found, copyFound⟩ := lists.chain_of_copy outerAt copied
    rw [lists.mem_declarers_iff copyFound, own.mem_declarers_iff found, Chain.leaf_graft]
  ext id
  constructor
  · rintro ⟨declared, inside⟩
    obtain ⟨position, copied⟩ := List.mem_iff_getElem?.mp inside
    exact ⟨position, (sameClass position id copied).mp declared, copied⟩
  · rintro ⟨position, declared, copied⟩
    exact ⟨(sameClass position id copied).mpr declared, List.mem_of_getElem? copied⟩

theorem isSite_copy {site : MemberSite} {id : Nat} (isSite : inner.IsSite member site)
    (copied : (layout.within start)[site.subobject]? = some id) :
    layout.IsSite member { site with subobject := id } := by
  obtain ⟨part, partAt, sameClass, sameMember⟩ := isSite
  obtain ⟨chain, found, copyFound⟩ := lists.chain_of_copy outerAt copied
  obtain ⟨same, sameAt, _, named, _⟩ := own.part _ chain found
  obtain ⟨copy, copyAt, _, copyNamed, _⟩ := lists.part id _ copyFound
  cases partAt.symm.trans sameAt
  refine ⟨copy, copyAt, ?_, sameMember⟩
  rw [sameClass, named, copyNamed, Chain.leaf_graft]

theorem exists_first_copy {ids : Set Nat} {kept sites : List MemberSite}
    (keptLists : inner.ListsSites member ids kept) (some : kept ≠ [])
    (copyLists : layout.ListsSites member (copiesOf (layout.within start) ids) sites) :
    ∃ winner ∈ kept, ∃ id, (layout.within start)[winner.subobject]? = Option.some id ∧
      (∀ other ∈ kept, ∀ otherId,
        (layout.within start)[other.subobject]? = Option.some otherId → id ≤ otherId) ∧
      ∃ rest, sites = { winner with subobject := id } :: rest := by
  obtain ⟨any, anyListed⟩ := List.exists_mem_of_ne_nil kept some
  obtain ⟨part, partAt, _⟩ := keptLists.isSite any anyListed
  obtain ⟨_, found, _⟩ := own.chain partAt
  obtain ⟨anyId, anyCopied⟩ := lists.exists_copy outerAt found
  obtain ⟨_, listed, _⟩ :=
    copyLists.complete anyId ⟨any.subobject, keptLists.sound any anyListed, anyCopied⟩
  cases sites with
  | nil => exact absurd listed List.not_mem_nil
  | cons first rest =>
      have least := copyLists.isLeast_head
      obtain ⟨position, kept, copied⟩ := least.1
      obtain ⟨winner, winnerListed, rfl⟩ := keptLists.complete position kept
      have copySite := lists.isSite_copy own outerAt (keptLists.isSite winner winnerListed) copied
      refine ⟨winner, winnerListed, first.subobject, copied, ?_, rest, ?_⟩
      · intro other otherListed otherId otherCopied
        exact least.2 ⟨_, keptLists.sound other otherListed, otherCopied⟩
      · rw [(copyLists.isSite first (by simp)).ext copySite rfl]

end ListsChains

theorem listsSites_singleton {member : String} {site : MemberSite}
    (isSite : layout.IsSite member site) : layout.ListsSites member {site.subobject} [site] := by
  constructor <;> simp [isSite]

theorem Dominates.outermost_eq (asymm : ∀ outer inner, layout.contains outer inner = true →
      layout.contains inner outer = false) {ids : Set Nat} {winner : Nat}
    (wins : layout.Dominates ids winner) : layout.outermost ids = {winner} := by
  ext id
  rw [Set.mem_singleton_iff]
  constructor
  · rintro ⟨member, free⟩
    by_contra differ
    have inside := wins.2 id member differ
    rw [free winner wins.1] at inside
    exact Bool.noConfusion inside
  · rintro rfl
    refine ⟨wins.1, ?_⟩
    intro other member
    by_cases same : other = id
    · simp [contains, same]
    · exact asymm _ _ (wins.2 other member same)

/-- What a lookup through a qualifier results in, by the result of the plain lookup in the
qualifier. The list translates ids of the layout of the qualifier. -/
inductive QualifiedCase (copies : List Nat) (qualifier member : String) :
    Except QueryError (Verdict MemberSite) → Except QueryError (Verdict MemberSite) → Prop
  | unknown : QualifiedCase copies qualifier member
      (.error (.unknownMember qualifier member)) (.error (.unknownMember qualifier member))
  | unique {winner : MemberSite} {id : Nat} (copied : copies[winner.subobject]? = some id) :
      QualifiedCase copies qualifier member
        (.ok (.unique winner)) (.ok (.unique { winner with subobject := id }))
  | hidden {winner : MemberSite} {shadowed : List MemberSite} {id : Nat}
      (copied : copies[winner.subobject]? = some id) :
      QualifiedCase copies qualifier member
        (.ok (.hidden winner shadowed)) (.ok (.unique { winner with subobject := id }))
  | ambiguous {candidates : List MemberSite} {winner : MemberSite} {id : Nat}
      (listed : winner ∈ candidates) (copied : copies[winner.subobject]? = some id)
      (first : ∀ other ∈ candidates, ∀ otherId, copies[other.subobject]? = some otherId →
        id ≤ otherId) :
      QualifiedCase copies qualifier member
        (.ok (.ambiguous candidates)) (.ok (.unique { winner with subobject := id }))

theorem QualifiedCase.settles {copies : List Nat} {qualifier member : String}
    {plain result : Except QueryError (Verdict MemberSite)}
    (agrees : QualifiedCase copies qualifier member plain result) :
    result = .error (.unknownMember qualifier member) ∨
      ∃ winner, result = .ok (.unique winner) := by
  cases agrees with
  | unknown => exact .inl rfl
  | unique => exact .inr ⟨_, rfl⟩
  | hidden => exact .inr ⟨_, rfl⟩
  | ambiguous => exact .inr ⟨_, rfl⟩

theorem QualifiedCase.of_winner {copies : List Nat} {qualifier member : String}
    {found : Verdict MemberSite} {result : Except QueryError (Verdict MemberSite)}
    (agrees : QualifiedCase copies qualifier member (.ok found) result) {site : MemberSite}
    (winner : found.winner? = some site) :
    ∃ id, result = .ok (.unique { site with subobject := id }) := by
  cases agrees <;> cases winner <;> exact ⟨_, rfl⟩

theorem lookupIn_case {inner : Layout} {root : String} {start : Subobject}
    {rest : List Subobject} {outer : Chain} (formed : table.WellFormed)
    (lists : layout.ListsChains table (table.chainsOf root))
    (own : inner.ListsChains table (table.chainsOf outer.leaf))
    (outerAt : (table.chainsOf root)[start.id]? = some outer)
    (named : inner.className = outer.leaf) (copies : layout.ofClass outer.leaf = start :: rest)
    (member : String) :
    QualifiedCase (layout.within start.id) outer.leaf member (table.lookup inner member)
      (table.lookupIn layout outer.leaf member) := by
  obtain ⟨sites, free, found⟩ := exists_lookupIn_eq formed lists.numbered copies member
  rw [lists.declaredWithin_eq own outerAt, lists.outermost_copiesOf own outerAt] at free
  rw [found]
  have wins : ∀ winner, inner.IsSite member winner →
      inner.Dominates (inner.declarers table member) winner.subobject →
      ∃ id, (layout.within start.id)[winner.subobject]? = some id ∧
        firstSite outer.leaf member sites = .ok (.unique { winner with subobject := id }) := by
    intro winner isSite dominates
    rw [dominates.outermost_eq fun _ _ => own.contains_asymm] at free
    obtain ⟨_, only, id, copied, _, _, rfl⟩ := lists.exists_first_copy own outerAt
      (listsSites_singleton isSite) (by simp) free
    cases List.mem_singleton.mp only
    exact ⟨id, copied, rfl⟩
  have plain := own.lookup_case formed member
  generalize table.lookup inner member = result at plain ⊢
  cases plain with
  | unknown none =>
      have nothing : sites = [] := by
        rw [free.eq_nil_iff, none]
        simp [outermost, copiesOf]
      rw [nothing, named]
      exact .unknown
  | @unique winner isSite only =>
      have dominates : inner.Dominates (inner.declarers table member) winner.subobject := by
        simp [Dominates, only]
      obtain ⟨id, copied, settled⟩ := wins winner isSite dominates
      rw [settled]
      exact .unique copied
  | @hidden winner _ isSite _ dominates =>
      obtain ⟨id, copied, settled⟩ := wins winner isSite dominates
      rw [settled]
      exact .hidden copied
  | @ambiguous candidates several _ keptLists =>
      have some : candidates ≠ [] := by
        rw [Ne, keptLists.eq_nil_iff]
        obtain ⟨id, inside⟩ := several.nonempty
        obtain ⟨top, outermost, _⟩ :=
          own.exists_outermost (declarers_inLayout inner table member) inside
        exact Set.nonempty_iff_ne_empty.mp ⟨top, outermost⟩
      obtain ⟨winner, listed, id, copied, first, _, rfl⟩ :=
        lists.exists_first_copy own outerAt keptLists some free
      exact .ambiguous listed copied first

end Layout

namespace ClassTable

variable {table : ClassTable} {root : String}

theorem ofClass_eq_nil_iff {layout : Layout}
    (lists : layout.ListsChains table (table.chainsOf root)) {name : String} :
    layout.ofClass name = [] ↔ ¬ table.Inherits root name := by
  rw [← mem_map_leaf_iff, ← lists.classNames]
  simp [Layout.ofClass]

theorem lookupIn_agrees {layout inner : Layout} {qualifier : String} (formed : table.WellFormed)
    (lists : layout.ListsChains table (table.chainsOf root))
    (own : inner.ListsChains table (table.chainsOf qualifier)) (named : inner.className = qualifier)
    (inherits : table.Inherits root qualifier) (member : String) :
    ∃ first,
      IsLeast {id | ∃ part, layout.get? id = some part ∧ part.className = qualifier} first ∧
      Layout.QualifiedCase (layout.within first) qualifier member
        (table.lookup inner member) (table.lookupIn layout qualifier member) := by
  cases copies : layout.ofClass qualifier with
  | nil => exact absurd inherits ((ofClass_eq_nil_iff lists).mp copies)
  | cons start rest =>
      have least := Layout.ofClass_isLeast lists.numbered copies
      obtain ⟨part, partAt, partNamed⟩ := least.1
      obtain ⟨outer, outerAt, _, leaf, _⟩ := lists.chain partAt
      obtain rfl : qualifier = outer.leaf := partNamed.symm.trans leaf
      exact ⟨start.id, least, Layout.lookupIn_case formed lists own outerAt named copies member⟩

theorem eq_of_within_zero {layout : Layout}
    (lists : layout.ListsChains table (table.chainsOf root)) {position id : Nat}
    (copied : (layout.within 0)[position]? = some id) : id = position := by
  rw [within_getElem? lists (table.chains.preorder_head _), Option.map_eq_some_iff] at copied
  obtain ⟨chain, found, rfl⟩ := copied
  rw [Chain.leaf_single] at found
  have alone : (Chain.single root).graft chain = chain := by
    rw [Chain.graft, Chain.enclosing_single, List.append_nil, ite_self]
  rw [alone, Layout.ListsChains.idxOf_eq found]

theorem lookupIn_self {layout : Layout} (formed : table.WellFormed)
    (lists : layout.ListsChains table (table.chainsOf root)) (named : layout.className = root)
    {member : String} {candidates : List MemberSite}
    (ambiguous : table.lookup layout member = .ok (.ambiguous candidates)) :
    ∃ winner rest, candidates = winner :: rest ∧
      table.lookupIn layout root member = .ok (.unique winner) := by
  obtain ⟨first, least, agrees⟩ := lookupIn_agrees formed lists lists named .refl member
  have zero : first = 0 := by
    have start := lists.part 0 _ (table.chains.preorder_head _)
    obtain ⟨part, partAt, _, leaf, _⟩ := start
    exact Nat.le_zero.mp (least.2 ⟨part, partAt, leaf⟩)
  rw [zero] at agrees
  have plain := lists.lookup_case formed member
  rw [ambiguous] at agrees plain
  generalize table.lookupIn layout root member = found at agrees ⊢
  cases agrees with
  | @ambiguous _ winner id listed copied earliest =>
      cases eq_of_within_zero lists copied
      cases plain with
      | ambiguous _ _ sites =>
          cases candidates with
          | nil => exact absurd listed List.not_mem_nil
          | cons head rest =>
              refine ⟨head, rest, rfl, ?_⟩
              rcases List.mem_cons.mp listed with rfl | later
              · rfl
              · have after := (List.pairwise_cons.mp sites.ordered).1 winner later
                obtain ⟨part, partAt, _⟩ := sites.isSite head (by simp)
                obtain ⟨_, headAt, _⟩ := lists.chain partAt
                obtain ⟨headId, headCopied⟩ :=
                  lists.exists_copy (table.chains.preorder_head _) headAt
                cases eq_of_within_zero lists headCopied
                have before := earliest head (by simp) _ headCopied
                omega

end ClassTable

namespace ClassTable

variable {table : ClassTable}

theorem eraseDups_leaf_chainsOf (root : String) :
    ((table.chainsOf root).map Chain.leaf).eraseDups = table.inheritance.preorder root :=
  Descent.eraseDups_map_preorder inheritance_next_leaf (.single root)

theorem isBaseOf_eq_decide (formed : table.WellFormed) {derived : String}
    (registered : table.contains derived = true) (name : String) :
    table.isBaseOf name derived =
      .ok (decide (name ≠ derived ∧ 1 ≤ (table.layoutOf derived).count name)) := by
  obtain ⟨ancestry, climbed, ancestors, _⟩ := exists_ancestry registered
  rw [isBaseOf, climbed]
  apply congrArg Except.ok
  rw [Ancestry.contains, Bool.eq_iff_iff, List.contains_iff_mem, ancestors, decide_eq_true_iff,
    Nat.one_le_iff_ne_zero, ← Nat.pos_iff_ne_zero, count_pos_iff_inherits formed]

theorem lookupIn_eq_notABase_iff {layout : Layout} {qualifier member className refused : String} :
    table.lookupIn layout qualifier member = .error (.notABase className refused) ↔
      layout.ofClass qualifier = [] ∧ layout.className = className ∧ qualifier = refused := by
  unfold lookupIn Layout.choiceAmong
  cases layout.ofClass qualifier with
  | nil => simp
  | cons start rest =>
      simp only
      split <;> simp

/-- An object consists of sub-objects of its own class and of the ancestors of the class, and the
layout meets these classes in the order of the ancestry. So the layout tells which classes are bases
of its class, and which qualifiers a lookup in it refuses. -/
theorem layout_in_ancestry_order (reachable : Reachable table) {name : String}
    (registered : table.contains name = true) :
    ∃ layout ancestry, table.layout name = .ok layout ∧ table.ancestry name = .ok ancestry ∧
      (layout.subobjects.map Subobject.className).eraseDups = name :: ancestry.ancestors ∧
      (∀ other, table.isBaseOf other name =
        .ok (decide (other ≠ name ∧ 1 ≤ layout.count other))) ∧
      ∀ qualifier member className refused,
        table.lookupIn layout qualifier member = .error (.notABase className refused) ↔
          qualifier ∉ name :: ancestry.ancestors ∧ className = name ∧ refused = qualifier := by
  have formed := reachable.wellFormed
  have lists := layoutOf_listsChains formed name
  obtain ⟨ancestry, climbed, walked⟩ := ancestry_eq registered
  refine ⟨table.layoutOf name, ancestry, layout_eq_ok_iff.mpr ⟨registered, rfl⟩, climbed, ?_,
    isBaseOf_eq_decide formed registered, ?_⟩
  · rw [lists.classNames, eraseDups_leaf_chainsOf, walked]
  · intro qualifier member className refused
    have apart : (table.layoutOf name).ofClass qualifier = [] ↔
        qualifier ∉ name :: ancestry.ancestors := by
      rw [ofClass_eq_nil_iff lists, mem_ancestry_iff climbed]
    rw [lookupIn_eq_notABase_iff, apart, eq_comm (b := className), eq_comm (b := refused)]
    rfl

theorem layout_in_ancestry_order_mixed : mixed.Reachable ∧ mixed.contains "D" = true ∧
    ∃ layout ancestry, mixed.layout "D" = .ok layout ∧ mixed.ancestry "D" = .ok ancestry ∧
      layout.subobjects.map Subobject.className = ["D", "B", "A", "C", "E", "A"] ∧
      ancestry.ancestors = ["B", "A", "C", "E"] ∧
      mixed.isBaseOf "A" "D" = .ok true ∧ mixed.isBaseOf "D" "D" = .ok false ∧
      mixed.lookupIn layout "F" "m" = .error (.notABase "D" "F") := by
  have registered : mixed.contains "D" = true := by cbv
  obtain ⟨layout, ancestry, found, climbed, order, bases, refused⟩ :=
    layout_in_ancestry_order reachable_mixed registered
  obtain ⟨_, computed⟩ := layout_eq_ok_iff.mp found
  have classes : layout.subobjects.map Subobject.className = ["D", "B", "A", "C", "E", "A"] := by
    rw [← computed]
    cbv
  rw [classes] at order
  have ancestors : ancestry.ancestors = ["B", "A", "C", "E"] := (List.cons.inj order).2.symm
  have twice : layout.count "A" = 2 := by
    rw [← computed]
    cbv
  refine ⟨reachable_mixed, registered, layout, ancestry, found, climbed, classes, ancestors, ?_,
    ?_, ?_⟩
  · rw [bases, twice]
    decide
  · rw [bases]
    simp
  · rw [refused, ancestors]
    decide

end ClassTable

end StaticResolution
