import StaticResolution.Proofs.Layout.Subobjects

/-!
The sub-objects within a sub-object are the chains below its chain, in pre-order. So containment is
a strict partial order.
-/

namespace StaticResolution

/-- The walk with an explicit stack visits the ids on the stack one after the other, with all that
lies below an id before the next one. An id may be on the stack twice, and is new once only. -/
theorem Layout.walk_eq_visitAll {layout : Layout} {links : Descent Nat}
    (next : ∀ id < layout.size, links.next id = layout.partsOf id)
    (closed : ∀ id < layout.size, ∀ part ∈ layout.partsOf id, part < layout.size)
    {seen stack : List Nat} (inside : ∀ id ∈ stack, id < layout.size) :
    layout.walk seen stack = links.visitAll seen stack := by
  induction seen, stack using Layout.walk.induct layout with
  | case1 seen =>
      rw [walk]
      rfl
  | case2 seen id rest bound met ih =>
      obtain ⟨_, restInside⟩ := List.forall_mem_cons.mp inside
      rw [walk, if_pos bound, if_pos met, ih restInside, Descent.visitAll_cons,
        Descent.visit_of_mem _ met]
  | case3 seen id rest bound fresh ih =>
      obtain ⟨_, restInside⟩ := List.forall_mem_cons.mp inside
      have pushed : ∀ other ∈ layout.partsOf id ++ rest, other < layout.size := by
        intro other listed
        rcases List.mem_append.mp listed with part | later
        · exact closed id bound other part
        · exact restInside other later
      rw [walk, if_pos bound, if_neg fresh, ih pushed, Descent.visitAll_append,
        Descent.visitAll_cons, Descent.visit_of_not_mem _ fresh, next id bound]
  | case4 seen id rest outside _ => exact absurd (inside id (List.mem_cons_self ..)) outside

theorem Layout.within_of_size_le {layout : Layout} {id : Nat} (outside : layout.size ≤ id) :
    layout.within id = [] := by
  rw [within, walk, if_neg (Nat.not_lt.mpr outside), walk]

namespace Layout.ListsChains

variable {table : ClassTable} {layout : Layout} {root : String}

theorem idxOf_eq {id : Nat} {chain : Chain} (found : (table.chainsOf root)[id]? = some chain) :
    (table.chainsOf root).idxOf chain = id := by
  obtain ⟨bound, rfl⟩ := List.getElem?_eq_some_iff.mp found
  exact ClassTable.nodup_chainsOf.idxOf_getElem id bound

theorem mem_map_idxOf_iff {list : List Chain} (listed : list ⊆ table.chainsOf root)
    {chain : Chain} :
    (table.chainsOf root).idxOf chain ∈ list.map (table.chainsOf root).idxOf ↔ chain ∈ list := by
  constructor
  · intro inside
    obtain ⟨other, otherListed, same⟩ := List.mem_map.mp inside
    rwa [← (List.idxOf_inj (listed otherListed)).mp same]
  · exact fun inside => List.mem_map_of_mem inside

theorem exists_of_mem_partsOf (lists : layout.ListsChains table (table.chainsOf root))
    {id base : Nat} {chain : Chain}
    (found : (table.chainsOf root)[id]? = some chain) (direct : base ∈ layout.partsOf id) :
    ∃ below ∈ table.chains.next chain, (table.chainsOf root)[base]? = some below := by
  rw [lists.partsOf id chain found] at direct
  obtain ⟨below, step, rfl⟩ := List.mem_map.mp direct
  have listed := ClassTable.mem_chainsOf_of_reaches (.single step) (List.mem_of_getElem? found)
  exact ⟨below, step, List.getElem?_idxOf listed⟩

theorem lt_size_of_mem_partsOf (lists : layout.ListsChains table (table.chainsOf root)) :
    ∀ id < layout.size, ∀ part ∈ layout.partsOf id, part < layout.size := by
  intro id inside part direct
  rw [lists.size] at inside ⊢
  obtain ⟨_, _, found⟩ := lists.exists_of_mem_partsOf (List.getElem?_eq_getElem inside) direct
  exact (List.getElem?_eq_some_iff.mp found).1

/-- The links from the sub-objects to their direct bases. They go down to classes that come earlier
in the table. -/
def links (lists : layout.ListsChains table (table.chainsOf root)) : Descent Nat where
  next id := if id < layout.size then layout.partsOf id else []
  rank id := ((table.chainsOf root)[id]?).elim 0 table.chains.rank
  rank_lt := by
    intro id part listed
    split at listed
    next inside =>
      rw [lists.size] at inside
      have found := List.getElem?_eq_getElem inside
      obtain ⟨below, step, belowAt⟩ := lists.exists_of_mem_partsOf found listed
      rw [found, belowAt]
      exact table.chains.rank_lt step
    next => exact absurd listed List.not_mem_nil

theorem next_links (lists : layout.ListsChains table (table.chainsOf root)) {id : Nat}
    (inside : id < layout.size) : lists.links.next id = layout.partsOf id :=
  if_pos inside

theorem within_eq_preorder (lists : layout.ListsChains table (table.chainsOf root)) {id : Nat}
    (inside : id < layout.size) : layout.within id = lists.links.preorder id :=
  Layout.walk_eq_visitAll (fun _ => lists.next_links) lists.lt_size_of_mem_partsOf
    (by simpa using inside)

theorem within_eq (lists : layout.ListsChains table (table.chainsOf root)) {id : Nat}
    {chain : Chain} (found : (table.chainsOf root)[id]? = some chain) :
    layout.within id = (table.chains.preorder chain).map (table.chainsOf root).idxOf := by
  have member := List.mem_of_getElem? found
  have listed : ∀ below, table.chains.Reaches chain below → below ∈ table.chainsOf root :=
    fun _ reach => ClassTable.mem_chainsOf_of_reaches reach member
  have bound : ∀ below ∈ table.chainsOf root,
      (table.chainsOf root).idxOf below < layout.size := by
    intro below inside
    rw [lists.size]
    exact List.idxOf_lt_length_of_mem inside
  rw [← idxOf_eq found, lists.within_eq_preorder (bound chain member)]
  refine table.chains.preorder_map lists.links (table.chainsOf root).idxOf chain ?_ ?_
  · intro below reach
    rw [lists.next_links (bound below (listed below reach))]
    exact lists.partsOf _ below (List.getElem?_idxOf (listed below reach))
  · intro below other reach _ same
    exact (List.idxOf_inj (listed below reach)).mp same

theorem mem_within_iff (lists : layout.ListsChains table (table.chainsOf root)) {outer inner : Nat}
    {around chain : Chain} (outerAt : (table.chainsOf root)[outer]? = some around)
    (innerAt : (table.chainsOf root)[inner]? = some chain) :
    inner ∈ layout.within outer ↔ table.chains.Reaches around chain := by
  have below : table.chains.preorder around ⊆ table.chainsOf root := by
    intro other listed
    rw [Descent.mem_preorder_iff] at listed
    exact ClassTable.mem_chainsOf_of_reaches listed (List.mem_of_getElem? outerAt)
  rw [lists.within_eq outerAt, ← idxOf_eq innerAt,
    mem_map_idxOf_iff below, Descent.mem_preorder_iff]

theorem exists_of_mem_within (lists : layout.ListsChains table (table.chainsOf root))
    {id inner : Nat} {chain : Chain}
    (found : (table.chainsOf root)[id]? = some chain) (inside : inner ∈ layout.within id) :
    ∃ below, table.chains.Reaches chain below ∧ (table.chainsOf root)[inner]? = some below := by
  rw [lists.within_eq found] at inside
  obtain ⟨below, listed, rfl⟩ := List.mem_map.mp inside
  have reach := table.chains.mem_preorder_iff.mp listed
  have member := ClassTable.mem_chainsOf_of_reaches reach (List.mem_of_getElem? found)
  exact ⟨below, reach, List.getElem?_idxOf member⟩

theorem contains_iff (lists : layout.ListsChains table (table.chainsOf root)) {outer inner : Nat}
    {around chain : Chain} (outerAt : (table.chainsOf root)[outer]? = some around)
    (innerAt : (table.chainsOf root)[inner]? = some chain) :
    layout.contains outer inner = true ↔ outer ≠ inner ∧ table.chains.Reaches around chain := by
  rw [Layout.contains, Bool.and_eq_true, decide_eq_true_eq, List.contains_iff_mem,
    lists.mem_within_iff outerAt innerAt]

theorem exists_of_contains (lists : layout.ListsChains table (table.chainsOf root))
    {outer inner : Nat} (inside : layout.contains outer inner = true) :
    ∃ around chain, (table.chainsOf root)[outer]? = some around ∧
      (table.chainsOf root)[inner]? = some chain ∧ outer ≠ inner ∧
      table.chains.Reaches around chain := by
  simp only [Layout.contains, Bool.and_eq_true, decide_eq_true_eq, List.contains_iff_mem] at inside
  obtain ⟨differ, walked⟩ := inside
  by_cases bound : outer < layout.size
  · rw [lists.size] at bound
    have outerAt := List.getElem?_eq_getElem bound
    obtain ⟨chain, reach, innerAt⟩ := lists.exists_of_mem_within outerAt walked
    exact ⟨_, chain, outerAt, innerAt, differ, reach⟩
  · rw [Layout.within_of_size_le (Nat.not_lt.mp bound)] at walked
    exact absurd walked List.not_mem_nil

theorem rank_lt_of_contains (lists : layout.ListsChains table (table.chainsOf root))
    {outer inner : Nat} {around chain : Chain}
    (outerAt : (table.chainsOf root)[outer]? = some around)
    (innerAt : (table.chainsOf root)[inner]? = some chain)
    (inside : layout.contains outer inner = true) :
    table.rank chain.leaf < table.rank around.leaf := by
  obtain ⟨differ, reach⟩ := (lists.contains_iff outerAt innerAt).mp inside
  apply reach.rank_lt_of_ne
  rintro rfl
  exact differ ((idxOf_eq outerAt).symm.trans (idxOf_eq innerAt))

theorem contains_asymm (lists : layout.ListsChains table (table.chainsOf root)) {outer inner : Nat}
    (inside : layout.contains outer inner = true) : layout.contains inner outer = false := by
  obtain ⟨around, chain, outerAt, innerAt, _, _⟩ := lists.exists_of_contains inside
  have lower := lists.rank_lt_of_contains outerAt innerAt inside
  by_contra back
  have upper := lists.rank_lt_of_contains innerAt outerAt (by simpa using back)
  omega

theorem contains_trans (lists : layout.ListsChains table (table.chainsOf root))
    {outer middle inner : Nat} (above : layout.contains outer middle = true)
    (below : layout.contains middle inner = true) : layout.contains outer inner = true := by
  obtain ⟨first, second, outerAt, middleAt, _, early⟩ := lists.exists_of_contains above
  obtain ⟨_, third, again, innerAt, _, late⟩ := lists.exists_of_contains below
  cases middleAt.symm.trans again
  rw [lists.contains_iff outerAt innerAt]
  refine ⟨?_, early.trans late⟩
  rintro rfl
  have circle := lists.contains_asymm above
  rw [below] at circle
  exact Bool.noConfusion circle

theorem mem_partsOf_iff (lists : layout.ListsChains table (table.chainsOf root)) {id base : Nat}
    {chain below : Chain}
    (found : (table.chainsOf root)[id]? = some chain)
    (belowAt : (table.chainsOf root)[base]? = some below) :
    base ∈ layout.partsOf id ↔ below ∈ table.chains.next chain := by
  have listed : table.chains.next chain ⊆ table.chainsOf root := fun part step =>
    ClassTable.mem_chainsOf_of_reaches (.single step) (List.mem_of_getElem? found)
  rw [lists.partsOf id chain found, ← idxOf_eq belowAt, mem_map_idxOf_iff listed]

theorem mem_within_iff_parts (lists : layout.ListsChains table (table.chainsOf root))
    {id inner : Nat} {chain : Chain}
    (found : (table.chainsOf root)[id]? = some chain) :
    inner ∈ layout.within id ↔
      inner = id ∨ ∃ base ∈ layout.partsOf id, inner ∈ layout.within base := by
  constructor
  · intro inside
    obtain ⟨below, reach, innerAt⟩ := lists.exists_of_mem_within found inside
    rcases Relation.ReflTransGen.cases_head reach with rfl | ⟨next, step, further⟩
    · exact .inl ((idxOf_eq innerAt).symm.trans (idxOf_eq found))
    · have listed := ClassTable.mem_chainsOf_of_reaches (.single step)
        (List.mem_of_getElem? found)
      have nextAt := List.getElem?_idxOf listed
      exact .inr ⟨_, (lists.mem_partsOf_iff found nextAt).mpr step,
        (lists.mem_within_iff nextAt innerAt).mpr further⟩
  · rintro (rfl | ⟨base, direct, inside⟩)
    · exact (lists.mem_within_iff found found).mpr .refl
    · obtain ⟨next, step, nextAt⟩ := lists.exists_of_mem_partsOf found direct
      obtain ⟨below, reach, innerAt⟩ := lists.exists_of_mem_within nextAt inside
      exact (lists.mem_within_iff found innerAt).mpr (.head step reach)

theorem mem_within_zero (lists : layout.ListsChains table (table.chainsOf root)) {id : Nat}
    {chain : Chain} (found : (table.chainsOf root)[id]? = some chain) : id ∈ layout.within 0 := by
  rw [lists.mem_within_iff (table.chains.preorder_head _) found, ← Descent.mem_preorder_iff]
  exact List.mem_of_getElem? found

end Layout.ListsChains

end StaticResolution
