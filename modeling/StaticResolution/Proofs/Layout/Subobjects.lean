import StaticResolution.Proofs.Layout.Expansion

/-!
The sub-objects of a layout are the chains of its class, and correspond to paths of class names from
the outside in. So the copies of a class can be counted clause by clause.
-/

namespace StaticResolution

/-- Which chain each id of a layout stands for. -/
structure Layout.ListsChains (table : ClassTable) (layout : Layout) (list : List Chain) : Prop where
  size : layout.size = list.length
  part : ∀ id chain, list[id]? = some chain → ∃ part, layout.get? id = some part ∧ part.id = id ∧
    part.className = chain.leaf ∧ part.isVirtual = (chain.enclosing.isEmpty && id ≠ 0)
  partsOf : ∀ id chain, list[id]? = some chain →
    layout.partsOf id = (table.chains.next chain).map list.idxOf
  parent : ∀ id part, layout.get? (id + 1) = some part → ∃ outer around chain,
    part.parent = some outer ∧ outer ≤ id ∧ list[outer]? = some around ∧
      list[id + 1]? = some chain ∧ chain ∈ table.chains.next around

theorem Layout.ListsChains.chain {table : ClassTable} {layout : Layout} {list : List Chain}
    (lists : layout.ListsChains table list) {id : Nat} {part : Subobject}
    (partAt : layout.get? id = some part) : ∃ chain, list[id]? = some chain ∧ part.id = id ∧
      part.className = chain.leaf ∧ part.isVirtual = (chain.enclosing.isEmpty && id ≠ 0) := by
  have bound : id < list.length := by
    rw [← lists.size]
    exact (List.getElem?_eq_some_iff.mp partAt).1
  obtain ⟨other, otherAt, described⟩ := lists.part id _ (List.getElem?_eq_getElem bound)
  cases partAt.symm.trans otherAt
  exact ⟨_, List.getElem?_eq_getElem bound, described⟩

namespace ClassTable

variable {table : ClassTable}

theorem layout_eq_ok_iff {name : String} {layout : Layout} :
    table.layout name = .ok layout ↔ table.contains name = true ∧ table.layoutOf name = layout := by
  unfold ClassTable.layout
  split
  next registered => simp [registered]
  next unregistered => simp [unregistered]

def chainsOf (table : ClassTable) (name : String) : List Chain :=
  table.chains.preorder (.single name)

theorem nodup_chainsOf {root : String} : (table.chainsOf root).Nodup :=
  table.chains.nodup_preorder _

theorem mem_chainsOf_of_reaches {root : String} {outer inner : Chain}
    (reach : table.chains.Reaches outer inner) (member : outer ∈ table.chainsOf root) :
    inner ∈ table.chainsOf root := by
  rw [chainsOf, Descent.mem_preorder_iff] at member ⊢
  exact member.trans reach

theorem expand_lists (formed : WellFormed table) (name : String) :
    Draft.Lists table name (table.expand {} 0 name) (table.chainsOf name) ∧
      ∀ id chain, (table.chainsOf name)[id]? = some chain →
        (table.expand {} 0 name).partsOf id =
          (table.chains.next chain).map (table.chainsOf name).idxOf := by
  have own : ∀ base ∈ table.basesOf name, base.isVirtual = false →
      (Chain.single name).extend base ∉ [Chain.single name] := by
    intro base listed _ member
    have step : (Chain.single name).extend base ∈ table.chains.next (.single name) :=
      extend_mem_next listed
    have lower := table.chains.rank_lt step
    rw [List.mem_singleton.mp member] at lower
    exact Nat.lt_irrefl _ lower
  have walked := expandsTo formed name .refl {} [.single name] 0 .initial
    (List.nodup_singleton _) rfl own
  rw [chainsOf, Descent.preorder_eq_cons]
  refine ⟨walked.lists, ?_⟩
  intro id chain found
  cases id with
  | zero =>
      have first := walked.lists.start
      rw [found, Option.some.injEq] at first
      rw [first]
      exact walked.linked
  | succ id => exact walked.filled (id + 1) chain (by simp) found

theorem get?_succ_finish (table : ClassTable) (name : String) (draft : Draft) (position : Nat) :
    (table.finish name draft).get? (position + 1) = (draft.bases[position]?).map fun placed =>
      { id := position + 1
        className := placed.className
        classIndex := table.rank placed.className
        isVirtual := placed.isVirtual
        parent := some placed.parent
        depth := DepthSearch.depthOf (depthsFrom (fun id => draft.parts.getD id []) draft.size)
          (position + 1) } := by
  simp [finish, Layout.get?, Layout.subobjects]

theorem layoutOf_listsChains (formed : WellFormed table) (name : String) :
    (table.layoutOf name).ListsChains table (table.chainsOf name) := by
  obtain ⟨lists, filled⟩ := expand_lists formed name
  refine ⟨?_, ?_, filled, ?_⟩
  · have count := lists.count
    simpa [layoutOf, finish, Layout.size, Layout.subobjects] using count
  · intro id chain found
    cases id with
    | zero =>
        have first := lists.start
        rw [found, Option.some.injEq] at first
        subst first
        exact ⟨_, rfl, rfl, rfl, by simp [layoutOf, finish]⟩
    | succ position =>
        have bases := congrArg (fun list => list[position]?) lists.bases
        simp only [List.getElem?_map, List.getElem?_tail, found, Option.map_some,
          Option.map_eq_some_iff, Prod.mk.injEq] at bases
        obtain ⟨placed, placedAt, named, virtual⟩ := bases
        rw [layoutOf, get?_succ_finish, placedAt]
        exact ⟨_, rfl, rfl, named, by simp [virtual]⟩
  · intro position part found
    rw [layoutOf, get?_succ_finish, Option.map_eq_some_iff] at found
    obtain ⟨placed, placedAt, rfl⟩ := found
    obtain ⟨early, around, inside, outerAt, innerAt, step⟩ := lists.parents position placed placedAt
    exact ⟨placed.parent, around, inside, rfl, early, outerAt, innerAt, step⟩

end ClassTable

namespace ClassTable

variable {table : ClassTable} {root : String}

/-- A class that can be reached has a base clause for a virtual base of the name. -/
def ReachesVirtually (table : ClassTable) (root name : String) : Prop :=
  ∃ derived, table.Inherits root derived ∧ ⟨name, true⟩ ∈ table.basesOf derived

def HasNonvirtualBase (table : ClassTable) (derived name : String) : Prop :=
  ⟨name, false⟩ ∈ table.basesOf derived

structure IsSubobjectPath (table : ClassTable) (root : String) (path : List String) : Prop where
  start : ∃ first, path.head? = some first ∧ (first = root ∨ table.ReachesVirtually root first)
  descends : path.IsChain table.HasNonvirtualBase

end ClassTable

namespace Chain

def path (chain : Chain) : List String :=
  chain.enclosing.reverse ++ [chain.leaf]

@[simp] theorem path_single (name : String) : (single name).path = [name] := rfl

theorem path_extend (chain : Chain) {base : Base} (own : base.isVirtual = false) :
    (chain.extend base).path = chain.path ++ [base.name] := by
  simp [extend_nonvirtual _ own, path]

theorem getLast?_path (chain : Chain) : chain.path.getLast? = some chain.leaf := by
  simp [path]

theorem path_injective : Function.Injective path := by
  intro first second same
  obtain ⟨around, leaf⟩ := List.append_inj' same rfl
  cases first
  cases second
  simp_all

theorem exists_path {list : List String} (nonempty : list ≠ []) :
    ∃ chain : Chain, chain.path = list := by
  obtain ⟨front, last, rfl⟩ := List.eq_nil_or_concat list |>.resolve_left nonempty
  exact ⟨⟨last, front.reverse⟩, by simp [path]⟩

end Chain

namespace ClassTable

variable {table : ClassTable} {root : String}

theorem exists_chain_of_inherits {name : String} (inherits : table.Inherits root name) :
    ∃ chain, table.chains.Reaches (.single root) chain ∧ chain.leaf = name := by
  induction inherits with
  | refl => exact ⟨.single root, .refl, rfl⟩
  | tail _ step ih =>
      obtain ⟨base, listed, rfl⟩ := List.mem_map.mp step
      obtain ⟨chain, reach, rfl⟩ := ih
      exact ⟨chain.extend base, .tail reach (extend_mem_next listed), Chain.leaf_extend ..⟩

theorem mem_map_leaf_iff {name : String} :
    name ∈ (table.chainsOf root).map Chain.leaf ↔ table.Inherits root name := by
  constructor
  · intro listed
    obtain ⟨chain, member, rfl⟩ := List.mem_map.mp listed
    exact inherits_of_reaches (table.chains.mem_preorder_iff.mp member)
  · intro inherits
    obtain ⟨chain, reach, rfl⟩ := exists_chain_of_inherits inherits
    exact List.mem_map_of_mem (table.chains.mem_preorder_iff.mpr reach)

theorem isSubobjectPath_of_reaches {chain : Chain}
    (reach : table.chains.Reaches (.single root) chain) :
    table.IsSubobjectPath root chain.path := by
  induction reach with
  | refl => exact ⟨⟨root, rfl, Or.inl rfl⟩, List.isChain_singleton _⟩
  | @tail chain _ before step ih =>
      obtain ⟨base, listed, rfl⟩ := mem_chains_next.mp step
      cases virtual : base.isVirtual with
      | true =>
          rw [Chain.extend_virtual _ virtual]
          have clause : (⟨base.name, true⟩ : Base) ∈ table.basesOf chain.leaf := by
            rwa [← virtual]
          exact ⟨⟨base.name, rfl, Or.inr ⟨chain.leaf, inherits_of_reaches before, clause⟩⟩,
            List.isChain_singleton _⟩
      | false =>
          rw [Chain.path_extend _ virtual]
          have clause : table.HasNonvirtualBase chain.leaf base.name := by
            rwa [HasNonvirtualBase, ← virtual]
          obtain ⟨first, head, origin⟩ := ih.start
          refine ⟨⟨first, by rw [List.head?_append, head]; rfl, origin⟩, ?_⟩
          rw [List.isChain_append]
          refine ⟨ih.descends, List.isChain_singleton _, ?_⟩
          intro last isLast next isNext
          rw [Chain.getLast?_path] at isLast
          cases isLast
          cases isNext
          exact clause

theorem reaches_of_isSubobjectPath (enclosing : List String) (leaf : String)
    (valid : table.IsSubobjectPath root (Chain.mk leaf enclosing).path) :
    table.chains.Reaches (.single root) ⟨leaf, enclosing⟩ := by
  induction enclosing generalizing leaf with
  | nil =>
      obtain ⟨first, head, origin⟩ := valid.start
      cases head
      rcases origin with rfl | ⟨derived, inherits, clause⟩
      · exact .refl
      · obtain ⟨chain, reach, rfl⟩ := exists_chain_of_inherits inherits
        exact .tail reach (mem_chains_next.mpr ⟨_, clause, rfl⟩)
  | cons outer around ih =>
      have split : (Chain.mk leaf (outer :: around)).path =
          (Chain.mk outer around).path ++ [leaf] :=
        Chain.path_extend ⟨outer, around⟩ (rfl : (⟨leaf, false⟩ : Base).isVirtual = false)
      rw [split] at valid
      obtain ⟨first, head, origin⟩ := valid.start
      obtain ⟨upper, _, joined⟩ := List.isChain_append.mp valid.descends
      have clause : table.HasNonvirtualBase outer leaf :=
        joined outer (Chain.getLast?_path ⟨outer, around⟩) leaf rfl
      have headUpper : (Chain.mk outer around).path.head? = some first := by
        rwa [List.head?_append_of_ne_nil _ (by simp [Chain.path])] at head
      have reach := ih outer ⟨⟨first, headUpper, origin⟩, upper⟩
      exact .tail reach (mem_chains_next.mpr ⟨_, clause, rfl⟩)

theorem mem_chainsOf_iff {chain : Chain} :
    chain ∈ table.chainsOf root ↔ table.IsSubobjectPath root chain.path := by
  rw [chainsOf, Descent.mem_preorder_iff]
  exact ⟨isSubobjectPath_of_reaches, reaches_of_isSubobjectPath chain.enclosing chain.leaf⟩

theorem single_mem_chainsOf_iff {name : String} :
    .single name ∈ table.chainsOf root ↔ name = root ∨ table.ReachesVirtually root name := by
  rw [mem_chainsOf_iff, Chain.path_single]
  constructor
  · rintro ⟨⟨first, head, origin⟩, _⟩
    cases head
    exact origin
  · exact fun origin => ⟨⟨name, rfl, origin⟩, List.isChain_singleton _⟩

end ClassTable

namespace Layout.ListsChains

variable {table : ClassTable} {layout : Layout} {list : List Chain}

theorem classNames (lists : layout.ListsChains table list) :
    layout.subobjects.map Subobject.className = list.map Chain.leaf := by
  apply List.ext_getElem?
  intro id
  rw [List.getElem?_map, List.getElem?_map]
  cases found : list[id]? with
  | none =>
      have beyond : layout.subobjects.length ≤ id := by
        have size := lists.size
        have bound := List.getElem?_eq_none_iff.mp found
        unfold Layout.size at size
        omega
      rw [List.getElem?_eq_none_iff.mpr beyond]
      rfl
  | some chain =>
      obtain ⟨part, partAt, _, named, _⟩ := lists.part id chain found
      have partFound : layout.subobjects[id]? = some part := partAt
      simp [partFound, named]

theorem count (lists : layout.ListsChains table list) (name : String) :
    layout.count name = (list.map Chain.leaf).count name := by
  rw [← lists.classNames, List.count, List.countP_map, List.countP_eq_length_filter]
  rfl

end Layout.ListsChains

namespace ClassTable

variable {table : ClassTable} {root : String}

theorem inherits_of_mem_layoutOf (formed : table.WellFormed) {part : Subobject}
    (listed : part ∈ (table.layoutOf root).subobjects) : table.Inherits root part.className := by
  rw [← mem_map_leaf_iff, ← (layoutOf_listsChains formed root).classNames]
  exact List.mem_map_of_mem listed

theorem countP_leaf_eq_sum (p : String → Bool) :
    (table.chainsOf root).countP (fun chain => p chain.leaf) =
      (((table.inheritance.preorder root).filter p).map fun name =>
        ((table.chainsOf root).map Chain.leaf).count name).sum := by
  have classes : (((table.chainsOf root).map Chain.leaf).dedup).Perm
      (table.inheritance.preorder root) := by
    rw [List.perm_ext_iff_of_nodup (List.nodup_dedup _) (table.inheritance.nodup_preorder _)]
    intro name
    rw [List.mem_dedup, mem_map_leaf_iff, Descent.mem_preorder_iff]
    rfl
  rw [← ((classes.filter p).map _).sum_eq, List.sum_map_count_dedup_filter_eq_countP,
    List.countP_map]
  rfl

theorem filter_leaf_perm (table : ClassTable) {root name : String} (other : name ≠ root) :
    ((table.chainsOf root).filter fun chain => chain.leaf == name).Perm
      (((table.chainsOf root).filter fun chain => chain == .single name) ++
        ((table.chainsOf root).filter fun chain =>
          (⟨name, false⟩ : Base) ∈ table.basesOf chain.leaf).map fun chain =>
            chain.extend ⟨name, false⟩) := by
  have extendInjective : Function.Injective fun chain : Chain => chain.extend ⟨name, false⟩ :=
    fun _ _ same => (Chain.extend_inj rfl same).1
  have apart : ∀ chain : Chain, chain.extend ⟨name, false⟩ ≠ .single name := by
    intro chain same
    have empty := Chain.isEmpty_enclosing_extend chain ⟨name, false⟩
    simp [same] at empty
  rw [List.perm_ext_iff_of_nodup (nodup_chainsOf.filter _)]
  · intro chain
    simp only [List.mem_filter, beq_iff_eq, List.mem_append, List.mem_map, decide_eq_true_eq]
    constructor
    · rintro ⟨member, rfl⟩
      have reach := table.chains.mem_preorder_iff.mp member
      cases reach with
      | refl => exact absurd rfl other
      | @tail around _ before step =>
          obtain ⟨base, listed, rfl⟩ := mem_chains_next.mp step
          cases virtual : base.isVirtual with
          | true => exact Or.inl ⟨member, by simp [Chain.extend_virtual _ virtual]⟩
          | false =>
              obtain ⟨baseName, _⟩ := base
              cases virtual
              exact Or.inr ⟨around,
                ⟨table.chains.mem_preorder_iff.mpr before, by simpa using listed⟩, by simp⟩
    · rintro (⟨member, rfl⟩ | ⟨around, ⟨member, listed⟩, rfl⟩)
      · exact ⟨member, rfl⟩
      · have reach := table.chains.mem_preorder_iff.mp member
        exact ⟨table.chains.mem_preorder_iff.mpr (.tail reach (extend_mem_next listed)),
          Chain.leaf_extend ..⟩
  · rw [List.nodup_append]
    refine ⟨nodup_chainsOf.filter _, (nodup_chainsOf.filter _).map extendInjective, ?_⟩
    intro chain early same late rfl
    obtain ⟨around, _, extended⟩ := List.mem_map.mp late
    have alone : chain = .single name := by simpa using (List.mem_filter.mp early).2
    exact apart around (extended.trans alone)

theorem count_leaf_eq (table : ClassTable) {root name : String} (other : name ≠ root) :
    ((table.chainsOf root).map Chain.leaf).count name =
      (table.chainsOf root).count (.single name) +
        (((table.inheritance.preorder root).filter fun derived =>
          (⟨name, false⟩ : Base) ∈ table.basesOf derived).map fun derived =>
            ((table.chainsOf root).map Chain.leaf).count derived).sum := by
  rw [← countP_leaf_eq_sum fun derived => (⟨name, false⟩ : Base) ∈ table.basesOf derived]
  have split := (table.filter_leaf_perm other).length_eq
  simp only [List.length_append, List.length_map, ← List.countP_eq_length_filter] at split
  rw [List.count, List.countP_map]
  exact split

theorem eq_single_of_leaf {chain : Chain} (member : chain ∈ table.chainsOf root)
    (leaf : chain.leaf = root) : chain = .single root := by
  have reach := table.chains.mem_preorder_iff.mp member
  cases reach with
  | refl => rfl
  | tail before step => exact absurd leaf (leaf_ne_of_next before step)

theorem count_root_eq_one : ((table.chainsOf root).map Chain.leaf).count root = 1 := by
  have only : (table.chainsOf root).countP (fun chain => chain.leaf == root) =
      (table.chainsOf root).count (.single root) := by
    apply List.countP_congr
    intro chain member
    simp only [beq_iff_eq]
    exact ⟨eq_single_of_leaf member, fun same => same ▸ rfl⟩
  rw [List.count, List.countP_map]
  refine only.trans (List.count_eq_one_of_mem nodup_chainsOf ?_)
  exact single_mem_chainsOf_iff.mpr (Or.inl rfl)

theorem count_single_of_reachesVirtually {name : String}
    (shared : table.ReachesVirtually root name) :
    (table.chainsOf root).count (.single name) = 1 :=
  List.count_eq_one_of_mem nodup_chainsOf (single_mem_chainsOf_iff.mpr (Or.inr shared))

theorem count_single_of_not_reachesVirtually {name : String} (other : name ≠ root)
    (unshared : ¬ table.ReachesVirtually root name) :
    (table.chainsOf root).count (.single name) = 0 := by
  rw [List.count_eq_zero, single_mem_chainsOf_iff]
  rintro (same | shared)
  · exact other same
  · exact unshared shared

def pathOf (table : ClassTable) (root : String) (id : Nat) : List String :=
  (((table.chainsOf root)[id]?).map Chain.path).getD []

theorem pathOf_eq {id : Nat} {chain : Chain} (found : (table.chainsOf root)[id]? = some chain) :
    table.pathOf root id = chain.path := by
  simp [pathOf, found]

theorem pathOf_virtual {layout : Layout}
    (lists : layout.ListsChains table (table.chainsOf root)) {id : Nat} {part : Subobject}
    (partAt : layout.get? id = some part) (virtual : part.isVirtual = true) :
    table.pathOf root id = [part.className] := by
  obtain ⟨chain, found, _, named, shared⟩ := lists.chain partAt
  rw [virtual, eq_comm, Bool.and_eq_true, List.isEmpty_iff] at shared
  rw [pathOf_eq found, Chain.eq_single_of_enclosing shared.1, Chain.path_single, named]

theorem pathOf_nonvirtual {layout : Layout}
    (lists : layout.ListsChains table (table.chainsOf root)) {id : Nat} {part : Subobject}
    (partAt : layout.get? id = some part) (inner : id ≠ 0) (own : part.isVirtual = false) :
    ∃ outer < id, part.parent = some outer ∧
      table.pathOf root id = table.pathOf root outer ++ [part.className] := by
  obtain ⟨position, rfl⟩ := Nat.exists_eq_succ_of_ne_zero inner
  obtain ⟨outer, around, chain, parent, early, outerAt, found, step⟩ :=
    lists.parent position part partAt
  obtain ⟨same, sameAt, _, named, shared⟩ := lists.chain partAt
  cases found.symm.trans sameAt
  obtain ⟨base, listed, rfl⟩ := mem_chains_next.mp step
  rw [own, Chain.isEmpty_enclosing_extend] at shared
  have virtual : base.isVirtual = false := by simpa using shared.symm
  refine ⟨outer, by omega, parent, ?_⟩
  rw [pathOf_eq found, pathOf_eq outerAt, Chain.path_extend _ virtual, named, Chain.leaf_extend]

theorem bijOn_pathOf {layout : Layout} (lists : layout.ListsChains table (table.chainsOf root)) :
    Set.BijOn (table.pathOf root) {id | id < layout.size}
      {path | table.IsSubobjectPath root path} := by
  refine ⟨?_, ?_, ?_⟩
  · intro id bound
    rw [Set.mem_ofPred_eq, lists.size] at bound
    have found := List.getElem?_eq_getElem bound
    rw [Set.mem_ofPred_eq, pathOf_eq found]
    exact mem_chainsOf_iff.mp (List.getElem_mem bound)
  · intro id bound other otherBound same
    rw [Set.mem_ofPred_eq, lists.size] at bound otherBound
    rw [pathOf_eq (List.getElem?_eq_getElem bound),
      pathOf_eq (List.getElem?_eq_getElem otherBound)] at same
    exact (nodup_chainsOf.getElem_inj_iff).mp (Chain.path_injective same)
  · intro path valid
    have nonempty : path ≠ [] := by
      rintro rfl
      obtain ⟨first, head, _⟩ := valid.start
      cases head
    obtain ⟨chain, rfl⟩ := Chain.exists_path nonempty
    obtain ⟨id, found⟩ := List.mem_iff_getElem?.mp (mem_chainsOf_iff.mpr valid)
    refine ⟨id, ?_, pathOf_eq found⟩
    rw [Set.mem_ofPred_eq, lists.size]
    exact (List.getElem?_eq_some_iff.mp found).1

/-- The sub-objects of a registered class and its sub-object paths correspond one to one, and each
class occurs once as a shared base, if it is one, and once more for every sub-object that lists it
as a non-virtual base. -/
theorem layout_subobjects (reachable : Reachable table) (registered : table.contains root = true) :
    ∃ layout ancestry, table.layout root = .ok layout ∧ table.ancestry root = .ok ancestry ∧
      (∃ path : Nat → List String,
        path 0 = [root] ∧
        (∀ id part, layout.get? id = some part → part.isVirtual = true →
          path id = [part.className]) ∧
        (∀ id part, layout.get? id = some part → id ≠ 0 → part.isVirtual = false →
          ∃ outer < id, part.parent = some outer ∧ path id = path outer ++ [part.className]) ∧
        Set.BijOn path {id | id < layout.size} {list | table.IsSubobjectPath root list}) ∧
      layout.count root = 1 ∧
      ∀ name, name ≠ root →
        let throughClauses := (((root :: ancestry.ancestors).filter fun derived =>
          (⟨name, false⟩ : Base) ∈ table.basesOf derived).map layout.count).sum
        (table.ReachesVirtually root name → layout.count name = 1 + throughClauses) ∧
        (¬ table.ReachesVirtually root name → layout.count name = throughClauses) := by
  obtain ⟨ancestry, found, ancestors⟩ := ancestry_eq registered
  have lists := layoutOf_listsChains reachable.wellFormed root
  have counts : (table.layoutOf root).count = fun name =>
      ((table.chainsOf root).map Chain.leaf).count name := funext lists.count
  refine ⟨table.layoutOf root, ancestry, layout_eq_ok_iff.mpr ⟨registered, rfl⟩, found,
    ⟨table.pathOf root, ?_, ?_, ?_, bijOn_pathOf lists⟩, ?_, ?_⟩
  · exact pathOf_eq (table.chains.preorder_head _)
  · exact fun id part partAt virtual => pathOf_virtual lists partAt virtual
  · exact fun id part partAt inner own => pathOf_nonvirtual lists partAt inner own
  · rw [lists.count, count_root_eq_one]
  · intro name other
    dsimp only
    rw [ancestors, counts]
    have counted := table.count_leaf_eq other
    constructor
    · intro shared
      rw [count_single_of_reachesVirtually shared] at counted
      exact counted
    · intro unshared
      rw [count_single_of_not_reachesVirtually other unshared, Nat.zero_add] at counted
      exact counted

theorem layout_subobjects_mixed :
    mixed.Reachable ∧ mixed.contains "D" = true ∧
      ∃ layout, mixed.layout "D" = .ok layout ∧ layout.count "D" = 1 ∧ layout.count "A" = 2 := by
  have registered : mixed.contains "D" = true := by cbv
  obtain ⟨layout, _, found, _, _, once, _⟩ := layout_subobjects reachable_mixed registered
  refine ⟨reachable_mixed, registered, layout, found, once, ?_⟩
  obtain ⟨_, computed⟩ := layout_eq_ok_iff.mp found
  rw [← computed]
  cbv

end ClassTable

end StaticResolution
