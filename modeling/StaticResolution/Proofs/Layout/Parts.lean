import StaticResolution.Proofs.Layout.Depth

/-!
The lists of direct bases in a layout. Each answers the base clauses of its class one by one, and
the walk with an explicit stack is the recursive walk along these lists.
-/

namespace StaticResolution

theorem count_flatten_eq_one {α : Type} [DecidableEq α] {lists : List (List α)} {item : α}
    {place : Nat} {list : List α} (here : lists[place]? = some list) (once : list.count item = 1)
    (only : ∀ (other : Nat) (list : List α), lists[other]? = some list → item ∈ list →
      other = place) : lists.flatten.count item = 1 := by
  induction lists generalizing place with
  | nil => cases here
  | cons first rest ih =>
      rw [List.flatten_cons, List.count_append]
      cases place with
      | zero =>
          obtain rfl := Option.some.inj here
          have absent : item ∉ rest.flatten := by
            intro listed
            obtain ⟨list, inside, member⟩ := List.mem_flatten.mp listed
            obtain ⟨other, there⟩ := List.mem_iff_getElem?.mp inside
            exact Nat.succ_ne_zero other (only (other + 1) list there member)
          rw [once, List.count_eq_zero.mpr absent]
      | succ place =>
          have absent : item ∉ first := fun member =>
            Nat.succ_ne_zero place (only 0 first rfl member).symm
          rw [List.count_eq_zero.mpr absent, Nat.zero_add]
          exact ih here fun other list there member =>
            Nat.succ.inj (only (other + 1) list there member)

theorem Layout.getElem?_parts_iff {layout : Layout} (lengths : layout.parts.length = layout.size)
    {id : Nat} {list : List Nat} :
    layout.parts[id]? = some list ↔ id < layout.size ∧ layout.partsOf id = list := by
  constructor
  · intro listAt
    have inside := (List.getElem?_eq_some_iff.mp listAt).1
    exact ⟨lengths ▸ inside, by rw [partsOf, List.getD, listAt, Option.getD_some]⟩
  · rintro ⟨inside, rfl⟩
    have bound : id < layout.parts.length := lengths.symm ▸ inside
    rw [partsOf, List.getD, List.getElem?_eq_getElem bound, Option.getD_some]

/-- A base clause is answered by a sub-object of the class and the kind that it names. -/
def Layout.Answers (layout : Layout) (inner : Nat) (base : Base) : Prop :=
  ∃ part, layout.get? inner = some part ∧ part.className = base.name ∧
    part.isVirtual = base.isVirtual

namespace ClassTable

variable {table : ClassTable} {root : String}

theorem nodup_chains_next (formed : table.WellFormed) (chain : Chain) :
    (table.chains.next chain).Nodup := by
  apply List.Nodup.of_map Chain.leaf
  rw [← inheritance_next_leaf]
  exact formed.distinct_basesOf chain.leaf

theorem length_parts_layoutOf (formed : table.WellFormed) (root : String) :
    (table.layoutOf root).parts.length = (table.layoutOf root).size := by
  rw [(layoutOf_listsChains formed root).size]
  exact (expand_lists formed root).1.size

theorem classIndex_layoutOf {id : Nat} {part : Subobject}
    (partAt : (table.layoutOf root).get? id = some part) :
    part.classIndex = table.rank part.className := by
  cases id with
  | zero =>
      cases partAt
      rfl
  | succ position =>
      rw [layoutOf, get?_succ_finish, Option.map_eq_some_iff] at partAt
      obtain ⟨placed, _, rfl⟩ := partAt
      rfl

end ClassTable

namespace Layout.ListsChains

variable {table : ClassTable} {layout : Layout} {root : String} {id : Nat} {chain : Chain}

theorem nodup_partsOf (lists : layout.ListsChains table (table.chainsOf root))
    (formed : table.WellFormed) (found : (table.chainsOf root)[id]? = some chain) :
    (layout.partsOf id).Nodup := by
  rw [lists.partsOf id chain found]
  apply (ClassTable.nodup_chains_next formed chain).map_on
  intro first firstStep second _ same
  have firstMember := ClassTable.mem_chainsOf_of_reaches (.single firstStep)
    (List.mem_of_getElem? found)
  exact (List.idxOf_inj firstMember).mp same

theorem zero_not_mem_partsOf (lists : layout.ListsChains table (table.chainsOf root))
    (found : (table.chainsOf root)[id]? = some chain) : 0 ∉ layout.partsOf id := by
  rw [lists.mem_partsOf_iff found (table.chains.preorder_head _)]
  intro step
  have reach := table.chains.mem_preorder_iff.mp (List.mem_of_getElem? found)
  exact ClassTable.leaf_ne_of_next reach step rfl

theorem zero_not_mem_flatten_parts (lists : layout.ListsChains table (table.chainsOf root))
    (lengths : layout.parts.length = layout.size) : 0 ∉ layout.parts.flatten := by
  intro listed
  obtain ⟨list, inside, member⟩ := List.mem_flatten.mp listed
  obtain ⟨id, listAt⟩ := List.mem_iff_getElem?.mp inside
  obtain ⟨bound, rfl⟩ := (Layout.getElem?_parts_iff lengths).mp listAt
  rw [lists.size] at bound
  exact lists.zero_not_mem_partsOf (List.getElem?_eq_getElem bound) member

theorem answers_partsOf (lists : layout.ListsChains table (table.chainsOf root))
    (found : (table.chainsOf root)[id]? = some chain) :
    List.Forall₂ layout.Answers (layout.partsOf id) (table.basesOf chain.leaf) := by
  have next : table.chains.next chain = (table.basesOf chain.leaf).map chain.extend := rfl
  rw [lists.partsOf id chain found, next, List.map_map, List.forall₂_map_left_iff,
    List.forall₂_same]
  intro base clause
  have step := ClassTable.extend_mem_next clause
  have member := ClassTable.mem_chainsOf_of_reaches (.single step) (List.mem_of_getElem? found)
  have innerAt := List.getElem?_idxOf member
  obtain ⟨part, partAt, _, named, shared⟩ := lists.part _ _ innerAt
  have inner : (table.chainsOf root).idxOf (chain.extend base) ≠ 0 := by
    intro first
    have direct := (lists.mem_partsOf_iff found innerAt).mpr step
    rw [first] at direct
    exact lists.zero_not_mem_partsOf found direct
  refine ⟨part, partAt, by rw [named, Chain.leaf_extend], ?_⟩
  simpa [inner, Chain.isEmpty_enclosing_extend] using shared

theorem eq_of_shared (lists : layout.ListsChains table (table.chainsOf root)) {other : Nat}
    {part piece : Subobject} (partAt : layout.get? id = some part)
    (pieceAt : layout.get? other = some piece) (virtual : part.isVirtual = true)
    (pieceVirtual : piece.isVirtual = true) (same : part.className = piece.className) :
    id = other := by
  obtain ⟨chain, found, _, named, shared⟩ := lists.chain partAt
  obtain ⟨second, secondAt, _, secondNamed, secondShared⟩ := lists.chain pieceAt
  rw [virtual, eq_comm, Bool.and_eq_true, List.isEmpty_iff] at shared
  rw [pieceVirtual, eq_comm, Bool.and_eq_true, List.isEmpty_iff] at secondShared
  have chains : chain = second := by
    rw [Chain.eq_single_of_enclosing shared.1, Chain.eq_single_of_enclosing secondShared.1,
      ← named, ← secondNamed, same]
  subst chains
  exact (idxOf_eq found).symm.trans (idxOf_eq secondAt)

theorem count_flatten_parts (lists : layout.ListsChains table (table.chainsOf root))
    (formed : table.WellFormed) (lengths : layout.parts.length = layout.size) {part : Subobject}
    (partAt : layout.get? id = some part) (inner : id ≠ 0) (own : part.isVirtual = false) :
    layout.parts.flatten.count id = 1 := by
  obtain ⟨outer, around, _, _, aroundAt, direct⟩ := lists.mem_partsOf_parent partAt inner
  have outerInside : outer < layout.size := (List.getElem?_eq_some_iff.mp aroundAt).1
  obtain ⟨chain, found, _⟩ := lists.chain aroundAt
  refine count_flatten_eq_one ((Layout.getElem?_parts_iff lengths).mpr ⟨outerInside, rfl⟩) ?_ ?_
  · exact List.count_eq_one_of_mem (lists.nodup_partsOf formed found) direct
  · intro other list listAt member
    obtain ⟨otherInside, rfl⟩ := (Layout.getElem?_parts_iff lengths).mp listAt
    exact lists.eq_of_mem_partsOf partAt inner own otherInside outerInside member direct

end Layout.ListsChains

namespace Layout.ListsChains

variable {table : ClassTable} {layout : Layout} {root : String}

theorem next_links_eq (lists : layout.ListsChains table (table.chainsOf root))
    (lengths : layout.parts.length = layout.size) : lists.links.next = layout.partsOf := by
  funext id
  by_cases inside : id < layout.size
  · exact lists.next_links inside
  · have beyond : layout.parts[id]? = none := List.getElem?_eq_none (by omega)
    have unlinked : lists.links.next id = [] := if_neg inside
    rw [unlinked, Layout.partsOf, List.getD, beyond, Option.getD_none]

theorem within_zero (lists : layout.ListsChains table (table.chainsOf root)) :
    layout.within 0 = List.range layout.size := by
  have whole : layout.within 0 = (table.chainsOf root).map (table.chainsOf root).idxOf :=
    lists.within_eq (table.chains.preorder_head _)
  rw [whole, lists.size]
  apply List.ext_getElem
  · rw [List.length_map, List.length_range]
  · intro id bound _
    rw [List.length_map] at bound
    rw [List.getElem_map, List.getElem_range, ClassTable.nodup_chainsOf.idxOf_getElem id bound]

theorem contains_zero (lists : layout.ListsChains table (table.chainsOf root)) {id : Nat}
    (inner : 0 < id) (inside : id < layout.size) : layout.contains 0 id = true := by
  rw [Layout.contains, lists.within_zero, Bool.and_eq_true, decide_eq_true_eq,
    List.contains_iff_mem, List.mem_range]
  exact ⟨Nat.ne_of_lt inner, inside⟩

end Layout.ListsChains

theorem Layout.contains_self (layout : Layout) (id : Nat) : layout.contains id id = false := by
  simp [contains]

namespace ClassTable

variable {table : ClassTable} {root : String}

/-- The walk with an explicit stack lists what can be reached along the links, each sub-object once,
in the order of the recursive walk. From the complete object that is the order of the ids. What it
lists besides its start is contained in the start, which is a strict order. -/
theorem within_recursive (reachable : Reachable table) (registered : table.contains root = true) :
    ∃ layout, table.layout root = .ok layout ∧
      (∃ links : Descent Nat, links.next = layout.partsOf ∧
        ∀ id < layout.size, layout.within id = links.preorder id) ∧
      (∀ id < layout.size, (layout.within id).Nodup ∧ ∀ inner, inner ∈ layout.within id ↔
        Relation.ReflTransGen (fun outer part => part ∈ layout.partsOf outer) id inner) ∧
      (∀ id, layout.size ≤ id → layout.within id = []) ∧
      layout.within 0 = List.range layout.size ∧
      (∀ id, layout.contains id id = false) ∧
      (∀ outer middle inner, layout.contains outer middle = true →
        layout.contains middle inner = true → layout.contains outer inner = true) ∧
      (∀ outer inner, layout.contains outer inner = true → layout.contains inner outer = false) ∧
      ∀ id, 0 < id → id < layout.size → layout.contains 0 id = true := by
  have formed := reachable.wellFormed
  have lists := layoutOf_listsChains formed root
  have links := lists.next_links_eq (length_parts_layoutOf formed root)
  refine ⟨table.layoutOf root, layout_eq_ok_iff.mpr ⟨registered, rfl⟩,
    ⟨lists.links, links, fun _ => lists.within_eq_preorder⟩, ?_, fun _ => Layout.within_of_size_le,
    lists.within_zero, Layout.contains_self _, fun _ _ _ => lists.contains_trans,
    fun _ _ => lists.contains_asymm, fun _ => lists.contains_zero⟩
  intro id inside
  rw [lists.within_eq_preorder inside]
  refine ⟨lists.links.nodup_preorder id, fun inner => ?_⟩
  rw [Descent.mem_preorder_iff, Descent.Reaches, links]

theorem within_recursive_mixed :
    mixed.Reachable ∧ mixed.contains "D" = true ∧
      ∃ layout, mixed.layout "D" = .ok layout ∧
        (∃ links : Descent Nat, links.next = layout.partsOf ∧ links.preorder 3 = [3, 2]) ∧
        layout.within 0 = [0, 1, 2, 3, 4, 5] ∧ layout.within 6 = [] ∧
        layout.contains 3 2 = true ∧ layout.contains 2 3 = false ∧ layout.contains 0 5 = true := by
  have registered : mixed.contains "D" = true := by cbv
  obtain ⟨layout, found, ⟨links, next, recursive⟩, _, outside, whole, _, _, asymmetric,
    outermost⟩ := within_recursive reachable_mixed registered
  obtain ⟨_, computed⟩ := layout_eq_ok_iff.mp found
  have size : layout.size = 6 := by
    rw [← computed]
    cbv
  have third : layout.within 3 = [3, 2] := by
    rw [← computed]
    cbv
  have contained : layout.contains 3 2 = true := by
    rw [Layout.contains, third]
    decide
  refine ⟨reachable_mixed, registered, layout, found, ⟨links, next, ?_⟩, ?_, outside 6 (by omega),
    contained, asymmetric 3 2 contained, outermost 5 (by omega) (by omega)⟩
  · rw [← recursive 3 (by omega), third]
  · rw [whole, size]
    decide

end ClassTable

end StaticResolution
