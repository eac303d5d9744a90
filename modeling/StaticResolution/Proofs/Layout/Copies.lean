import StaticResolution.Proofs.Layout.Within

/-!
Layouts are compositional: what lies within a sub-object is the layout of its class. Chains that
start at the class continue the chain of the copy, and chains that start at a virtual base are the
same in both.
-/

namespace StaticResolution

namespace Chain

def outermost (chain : Chain) : String :=
  chain.enclosing.getLast?.getD chain.leaf

/-- The place of a sub-object of a class within a larger object, where `outer` is the copy of the
class. -/
def graft (outer inner : Chain) : Chain :=
  if inner.outermost = outer.leaf then ⟨inner.leaf, inner.enclosing ++ outer.enclosing⟩ else inner

@[simp] theorem outermost_single (name : String) : (single name).outermost = name := rfl

theorem outermost_extend (chain : Chain) {base : Base} (own : base.isVirtual = false) :
    (chain.extend base).outermost = chain.outermost := by
  rw [extend_nonvirtual _ own, outermost, outermost, List.getLast?_cons]
  rfl

@[simp] theorem leaf_graft (outer inner : Chain) : (outer.graft inner).leaf = inner.leaf := by
  unfold graft
  split <;> rfl

theorem graft_of_outermost {outer inner : Chain} (start : inner.outermost = outer.leaf) :
    outer.graft inner = ⟨inner.leaf, inner.enclosing ++ outer.enclosing⟩ := if_pos start

theorem graft_of_ne {outer inner : Chain} (start : inner.outermost ≠ outer.leaf) :
    outer.graft inner = inner := if_neg start

@[simp] theorem graft_single (outer : Chain) : outer.graft (single outer.leaf) = outer := by
  rw [graft_of_outermost rfl]
  rfl

theorem outermost_graft {outer inner : Chain} (start : inner.outermost = outer.leaf) :
    (outer.graft inner).outermost = outer.outermost := by
  rw [graft_of_outermost start]
  simp only [outermost, List.getLast?_append] at start ⊢
  cases outer.enclosing.getLast? with
  | none => exact start
  | some name => rfl

end Chain

namespace ClassTable

variable {table : ClassTable}

theorem rank_leaf_le_outermost {root : String} {chain : Chain}
    (reach : table.chains.Reaches (.single root) chain) :
    table.rank chain.leaf ≤ table.rank chain.outermost := by
  induction reach with
  | refl => exact Nat.le_refl _
  | tail _ step ih =>
      obtain ⟨base, listed, rfl⟩ := mem_chains_next.mp step
      cases virtual : base.isVirtual with
      | true =>
          rw [Chain.extend_virtual _ virtual]
          exact Nat.le_refl _
      | false =>
          rw [Chain.outermost_extend _ virtual, Chain.leaf_extend]
          exact Nat.le_trans (Nat.le_of_lt (table.rank_lt listed)) ih

theorem outermost_eq_or_rank_lt {name : String} {chain : Chain}
    (reach : table.chains.Reaches (.single name) chain) :
    chain.outermost = name ∨ table.rank chain.outermost < table.rank name := by
  induction reach with
  | refl => exact Or.inl rfl
  | @tail around _ before step ih =>
      obtain ⟨base, listed, rfl⟩ := mem_chains_next.mp step
      cases virtual : base.isVirtual with
      | true =>
          have lower := table.rank_lt listed
          have upper : table.rank around.leaf ≤ table.rank name := Descent.Reaches.rank_le before
          rw [Chain.extend_virtual _ virtual, Chain.outermost_single]
          exact Or.inr (by omega)
      | false =>
          rw [Chain.outermost_extend _ virtual]
          exact ih

theorem graft_extend {outer chain : Chain}
    (reach : table.chains.Reaches (.single outer.leaf) chain) {base : Base}
    (listed : base ∈ table.basesOf chain.leaf) :
    (outer.graft chain).extend base = outer.graft (chain.extend base) := by
  cases virtual : base.isVirtual with
  | true =>
      have differs := leaf_ne_of_next reach (extend_mem_next listed)
      rw [Chain.extend_virtual _ virtual, Chain.extend_virtual _ virtual, Chain.graft_of_ne]
      rwa [Chain.leaf_extend] at differs
  | false =>
      have start := Chain.outermost_extend chain virtual
      by_cases same : chain.outermost = outer.leaf
      · rw [Chain.graft_of_outermost same, Chain.graft_of_outermost (start.trans same),
          Chain.extend_nonvirtual _ virtual, Chain.extend_nonvirtual _ virtual]
        rfl
      · rw [Chain.graft_of_ne same, Chain.graft_of_ne (by rwa [start])]

theorem graft_next {outer chain : Chain}
    (reach : table.chains.Reaches (.single outer.leaf) chain) :
    table.chains.next (outer.graft chain) = (table.chains.next chain).map outer.graft := by
  change (table.basesOf (outer.graft chain).leaf).map (outer.graft chain).extend =
    ((table.basesOf chain.leaf).map chain.extend).map outer.graft
  rw [Chain.leaf_graft, List.map_map]
  exact List.map_congr_left fun base listed => graft_extend reach listed

/-- A continued chain starts where the copy does, and the start of any other chain lies below. -/
theorem graft_injective {root : String} {outer first second : Chain}
    (outerReach : table.chains.Reaches (.single root) outer)
    (firstReach : table.chains.Reaches (.single outer.leaf) first)
    (secondReach : table.chains.Reaches (.single outer.leaf) second)
    (same : outer.graft first = outer.graft second) : first = second := by
  have apart : ∀ inner other, table.chains.Reaches (.single outer.leaf) other →
      inner.outermost = outer.leaf → other.outermost ≠ outer.leaf →
      outer.graft inner ≠ outer.graft other := by
    intro inner other reach start elsewhere equal
    have lower := (outermost_eq_or_rank_lt reach).resolve_left elsewhere
    have upper := rank_leaf_le_outermost outerReach
    have starts := congrArg Chain.outermost equal
    rw [Chain.outermost_graft start, Chain.graft_of_ne elsewhere] at starts
    rw [← starts] at lower
    omega
  by_cases firstStart : first.outermost = outer.leaf
  · by_cases secondStart : second.outermost = outer.leaf
    · rw [Chain.graft_of_outermost firstStart, Chain.graft_of_outermost secondStart] at same
      cases first
      cases second
      simpa using same
    · exact absurd same (apart first second secondReach firstStart secondStart)
  · by_cases secondStart : second.outermost = outer.leaf
    · exact absurd same.symm (apart second first firstReach secondStart firstStart)
    · rwa [Chain.graft_of_ne firstStart, Chain.graft_of_ne secondStart] at same

theorem preorder_graft_below {root : String} {outer chain : Chain}
    (outerReach : table.chains.Reaches (.single root) outer)
    (reach : table.chains.Reaches (.single outer.leaf) chain) :
    table.chains.preorder (outer.graft chain) = (table.chains.preorder chain).map outer.graft :=
  table.chains.preorder_map table.chains outer.graft chain
    (fun _ below => graft_next (reach.trans below))
    (fun _ _ firstBelow secondBelow same =>
      graft_injective outerReach (reach.trans firstBelow) (reach.trans secondBelow) same)

theorem preorder_graft {root : String} {outer : Chain}
    (reach : table.chains.Reaches (.single root) outer) :
    table.chains.preorder outer = (table.chainsOf outer.leaf).map outer.graft := by
  have moved := preorder_graft_below reach .refl
  rwa [Chain.graft_single] at moved

theorem reaches_graft_iff {root : String} {outer above below : Chain}
    (outerReach : table.chains.Reaches (.single root) outer)
    (aboveReach : table.chains.Reaches (.single outer.leaf) above)
    (belowReach : table.chains.Reaches (.single outer.leaf) below) :
    table.chains.Reaches (outer.graft above) (outer.graft below) ↔
      table.chains.Reaches above below := by
  rw [← Descent.mem_preorder_iff, preorder_graft_below outerReach aboveReach, List.mem_map,
    ← Descent.mem_preorder_iff]
  constructor
  · rintro ⟨other, listed, same⟩
    have otherReach := aboveReach.trans (table.chains.mem_preorder_iff.mp listed)
    rwa [← graft_injective outerReach otherReach belowReach same]
  · exact fun listed => ⟨below, listed, rfl⟩

end ClassTable

namespace ClassTable

variable {table : ClassTable} {root : String}

theorem within_getElem? {layout : Layout}
    (lists : layout.ListsChains table (table.chainsOf root)) {id : Nat} {outer : Chain}
    (outerAt : (table.chainsOf root)[id]? = some outer) (position : Nat) :
    (layout.within id)[position]? = ((table.chainsOf outer.leaf)[position]?).map fun chain =>
      (table.chainsOf root).idxOf (outer.graft chain) := by
  have reach := table.chains.mem_preorder_iff.mp (List.mem_of_getElem? outerAt)
  rw [lists.within_eq outerAt, preorder_graft reach, List.map_map, List.getElem?_map]
  rfl

theorem graft_mem_chainsOf {outer chain : Chain} (outerMember : outer ∈ table.chainsOf root)
    (member : chain ∈ table.chainsOf outer.leaf) : outer.graft chain ∈ table.chainsOf root := by
  have reach := table.chains.mem_preorder_iff.mp outerMember
  have below : outer.graft chain ∈ table.chains.preorder outer := by
    rw [preorder_graft reach]
    exact List.mem_map_of_mem member
  exact mem_chainsOf_of_reaches (table.chains.mem_preorder_iff.mp below) outerMember

theorem isVirtual_graft {outer chain : Chain} {position : Nat}
    (outerMember : outer ∈ table.chainsOf root)
    (found : (table.chainsOf outer.leaf)[position]? = some chain) (inner : position ≠ 0) :
    ((outer.graft chain).enclosing.isEmpty &&
        (table.chainsOf root).idxOf (outer.graft chain) ≠ 0) =
      (chain.enclosing.isEmpty && position ≠ 0) := by
  have member := List.mem_of_getElem? found
  have reach := table.chains.mem_preorder_iff.mp member
  have differs : .single outer.leaf ≠ chain := by
    rintro rfl
    have first : (table.chainsOf outer.leaf)[0]? = some (.single outer.leaf) :=
      table.chains.preorder_head _
    exact inner ((Layout.ListsChains.idxOf_eq found).symm.trans
      (Layout.ListsChains.idxOf_eq first))
  have lower : table.rank chain.leaf < table.rank outer.leaf := reach.rank_lt_of_ne differs
  have upper : table.rank outer.leaf ≤ table.rank root :=
    (table.chains.mem_preorder_iff.mp outerMember).rank_le
  have notFirst : (table.chainsOf root).idxOf (outer.graft chain) ≠ 0 := by
    intro zero
    have graftAt := List.getElem?_idxOf (graft_mem_chainsOf outerMember member)
    rw [zero, chainsOf, table.chains.preorder_head, Option.some.injEq] at graftAt
    have leaf := congrArg Chain.leaf graftAt
    rw [Chain.leaf_graft, Chain.leaf_single] at leaf
    rw [← leaf] at lower
    omega
  have sameStart : (outer.graft chain).enclosing.isEmpty = chain.enclosing.isEmpty := by
    by_cases start : chain.outermost = outer.leaf
    · have continued : chain.enclosing ≠ [] := by
        intro alone
        apply differs
        rw [Chain.eq_single_of_enclosing alone, Chain.outermost_single] at start
        rw [Chain.eq_single_of_enclosing alone, ← start]
      rw [Chain.graft_of_outermost start]
      rw [List.isEmpty_eq_false_iff.mpr continued, List.isEmpty_eq_false_iff]
      exact List.append_ne_nil_of_left_ne_nil continued _
    · rw [Chain.graft_of_ne start]
  rw [sameStart]
  simp [notFirst, inner]

theorem partsOf_graft {layout inner : Layout} {id position : Nat} {outer chain : Chain}
    (lists : layout.ListsChains table (table.chainsOf root))
    (ownLists : inner.ListsChains table (table.chainsOf outer.leaf))
    (outerAt : (table.chainsOf root)[id]? = some outer)
    (found : (table.chainsOf outer.leaf)[position]? = some chain) :
    (layout.partsOf ((table.chainsOf root).idxOf (outer.graft chain))).map some =
      (inner.partsOf position).map fun part => (layout.within id)[part]? := by
  have outerMember := List.mem_of_getElem? outerAt
  have member := List.mem_of_getElem? found
  have graftAt := List.getElem?_idxOf (graft_mem_chainsOf outerMember member)
  rw [lists.partsOf _ _ graftAt, ownLists.partsOf _ _ found,
    graft_next (table.chains.mem_preorder_iff.mp member)]
  simp only [List.map_map]
  apply List.map_congr_left
  intro part step
  have partMember := mem_chainsOf_of_reaches (.single step) member
  simp only [Function.comp_apply]
  rw [within_getElem? lists outerAt, List.getElem?_idxOf partMember]
  rfl

/-- The part of a layout within any copy of a class is an isomorphic copy of the class's own layout,
in the same order. -/
theorem layout_within_isomorphic (reachable : Reachable table)
    (registered : table.contains root = true) :
    ∃ layout, table.layout root = .ok layout ∧
      ∀ id part, layout.get? id = some part →
        ∃ inner, table.layout part.className = .ok inner ∧
          (layout.within id).length = inner.size ∧
          ∀ position own, inner.get? position = some own →
            ∃ image copy, (layout.within id)[position]? = some image ∧
              layout.get? image = some copy ∧
              copy.className = own.className ∧
              (1 ≤ position → copy.isVirtual = own.isVirtual) ∧
              (layout.partsOf image).map some =
                (inner.partsOf position).map fun part => (layout.within id)[part]? := by
  have formed := reachable.wellFormed
  have lists := layoutOf_listsChains formed root
  refine ⟨table.layoutOf root, layout_eq_ok_iff.mpr ⟨registered, rfl⟩, ?_⟩
  intro id part partAt
  obtain ⟨outer, outerAt, _, outerName, _⟩ := lists.chain partAt
  have outerMember := List.mem_of_getElem? outerAt
  have outerReach := table.chains.mem_preorder_iff.mp outerMember
  have outerRegistered : table.contains outer.leaf = true :=
    (inherits_of_reaches outerReach).contains registered
  have ownLists := layoutOf_listsChains formed outer.leaf
  rw [outerName]
  refine ⟨table.layoutOf outer.leaf, layout_eq_ok_iff.mpr ⟨outerRegistered, rfl⟩, ?_, ?_⟩
  · rw [lists.within_eq outerAt, preorder_graft outerReach, ownLists.size]
    simp
  · intro position own ownAt
    obtain ⟨chain, found, _, ownName, ownVirtual⟩ := ownLists.chain ownAt
    have member := List.mem_of_getElem? found
    have graftAt := List.getElem?_idxOf (graft_mem_chainsOf outerMember member)
    obtain ⟨copy, copyAt, _, copyName, copyVirtual⟩ := lists.part _ _ graftAt
    refine ⟨_, copy, ?_, copyAt, ?_, ?_, ?_⟩
    · rw [within_getElem? lists outerAt, found]
      rfl
    · rw [copyName, ownName, Chain.leaf_graft]
    · intro later
      rw [copyVirtual, ownVirtual]
      exact isVirtual_graft outerMember found (by omega)
    · exact partsOf_graft lists ownLists outerAt found

theorem layout_within_isomorphic_mixed :
    mixed.Reachable ∧ mixed.contains "D" = true ∧
      ∃ layout inner, mixed.layout "D" = .ok layout ∧ mixed.layout "C" = .ok inner ∧
        (layout.within 3).length = inner.size ∧ layout.within 3 = [3, 2] := by
  have registered : mixed.contains "D" = true := by cbv
  obtain ⟨layout, found, copies⟩ := layout_within_isomorphic reachable_mixed registered
  obtain ⟨_, computed⟩ := layout_eq_ok_iff.mp found
  have third : ∃ part, layout.get? 3 = some part ∧ part.className = "C" := by
    rw [← computed]
    exact ⟨⟨3, "C", 2, false, some 0, 1⟩, by cbv, rfl⟩
  obtain ⟨part, partAt, named⟩ := third
  obtain ⟨inner, innerFound, size, _⟩ := copies 3 part partAt
  rw [named] at innerFound
  refine ⟨reachable_mixed, registered, layout, inner, found, innerFound, size, ?_⟩
  rw [← computed]
  cbv

end ClassTable

end StaticResolution
