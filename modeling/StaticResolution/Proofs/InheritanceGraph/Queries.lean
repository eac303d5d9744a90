import StaticResolution.Proofs.InheritanceGraph.Layout
import StaticResolution.Proofs.Lookup.Dominance
import StaticResolution.Proofs.Lookup.Stability

/-!
What queries of a graph tell. Lookups in the nodes of a layout find what lookups in the table find,
and batches are inserted into the graph as into the table, in an order that no query by name tells.
-/

namespace StaticResolution

namespace Subobject

theorem pairwise_inIdOrder (parts : List Subobject) :
    (inIdOrder parts).Pairwise fun early late => early.id ≤ late.id := by
  have sorted : (inIdOrder parts).Pairwise fun early late =>
      decide (early.id ≤ late.id) = true := by
    apply List.pairwise_mergeSort
    · intro first second third early late
      rw [decide_eq_true_eq] at early late ⊢
      exact Nat.le_trans early late
    · intro first second
      simpa using Nat.le_total first.id second.id
  simpa only [decide_eq_true_eq] using sorted

theorem inIdOrder_eq {parts ordered : List Subobject} (perm : parts.Perm ordered)
    (increasing : ordered.Pairwise fun early late => early.id < late.id) :
    inIdOrder parts = ordered := by
  have sorted : (inIdOrder parts).Perm ordered := (List.mergeSort_perm ..).trans perm
  have distinct : (ordered.map Subobject.id).Nodup := by
    rw [List.nodup_iff_pairwise_ne, List.pairwise_map]
    exact increasing.imp Nat.ne_of_lt
  refine sorted.eq_of_pairwise ?_ (pairwise_inIdOrder parts) (increasing.imp Nat.le_of_lt)
  intro first second firstListed secondListed early late
  exact List.inj_on_of_nodup_map distinct (sorted.subset firstListed) secondListed
    (Nat.le_antisymm early late)

end Subobject

namespace Layout

variable {layout : Layout}

theorem Numbered.perm_filterMap_get? (numbered : layout.Numbered) {scope : List Nat}
    (distinct : scope.Nodup) :
    (scope.filterMap layout.get?).Perm
      (layout.subobjects.filter fun part => scope.contains part.id) := by
  have once : (scope.filterMap layout.get?).Nodup := by
    refine distinct.filterMap ?_
    intro first second part firstAt secondAt
    exact (numbered first part firstAt).symm.trans (numbered second part secondAt)
  have parts : layout.subobjects.Nodup := numbered.pairwise_id.imp fun lower same =>
    Nat.ne_of_lt lower (congrArg Subobject.id same)
  rw [List.perm_ext_iff_of_nodup once (parts.filter _)]
  intro part
  rw [List.mem_filterMap, List.mem_filter, List.contains_iff_mem]
  constructor
  · rintro ⟨id, inside, partAt⟩
    exact ⟨List.mem_of_getElem? partAt, (numbered id part partAt).symm ▸ inside⟩
  · rintro ⟨listed, inside⟩
    exact ⟨part.id, inside, numbered.get?_id listed⟩

end Layout

namespace InheritanceGraph

variable {table : ClassTable} {root : String} {layout : Layout}

theorem declaring?_graph (formed : table.WellFormed) (registered : table.contains root = true)
    (member : String) {parts : List Subobject} (inside : parts ⊆ (table.layoutOf root).subobjects) :
    table.graph.declaring? member parts = some (table.declarers parts member) := by
  induction parts with
  | nil => rfl
  | cons part rest ih =>
      obtain ⟨listed, restInside⟩ := List.cons_subset.mp inside
      obtain ⟨id, partAt⟩ := List.mem_iff_getElem?.mp listed
      have inherits := ClassTable.inherits_of_mem_layoutOf formed listed
      obtain ⟨decl, here, named⟩ := ClassTable.exists_at? (inherits.contains registered)
      have node : table.graph.nodes[part.classIndex]? = some decl := by
        rw [ClassTable.classIndex_layoutOf partAt]
        exact here
      have found : table.find? part.className = some decl :=
        formed.find?_of_mem (List.mem_of_getElem? here) named
      have declares : table.declares part.className member = decl.declares member := by
        rw [ClassTable.declares, found, Option.any_some]
      have declarers : table.declarers (part :: rest) member =
          if decl.declares member then part :: table.declarers rest member
          else table.declarers rest member := by
        rw [ClassTable.declarers, List.filter_cons, declares, ClassTable.declarers]
      rw [declaring?, node, ih restInside, declarers]
      rfl

theorem declaringWithin?_graph (formed : table.WellFormed)
    (registered : table.contains root = true) (member : String) {scope : List Nat}
    (distinct : scope.Nodup) :
    table.graph.declaringWithin? (table.layoutOf root) scope member =
      some (table.declarers ((table.layoutOf root).subobjects.filter fun part =>
        scope.contains part.id) member) := by
  have numbered := (ClassTable.layoutOf_listsChains formed root).numbered
  have perm := numbered.perm_filterMap_get? distinct
  have inside : scope.filterMap (table.layoutOf root).get? ⊆ (table.layoutOf root).subobjects :=
    fun part listed => (List.mem_filter.mp (perm.subset listed)).1
  rw [declaringWithin?, declaring?_graph formed registered member inside, Option.map_some,
    Option.some.injEq]
  exact Subobject.inIdOrder_eq (perm.filter _) ((numbered.pairwise_id.filter _).filter _)

theorem lookup?_graph (formed : table.WellFormed) (found : table.layout root = .ok layout)
    (member : String) :
    table.graph.lookup? layout member = some (table.lookup layout member) := by
  obtain ⟨registered, rfl⟩ := ClassTable.layout_eq_ok_iff.mp found
  have numbered := (ClassTable.layoutOf_listsChains formed root).numbered
  have whole : ((table.layoutOf root).subobjects.filter fun part =>
      (List.range (table.layoutOf root).size).contains part.id) =
        (table.layoutOf root).subobjects := by
    rw [List.filter_eq_self]
    intro part listed
    rw [List.contains_iff_mem, List.mem_range]
    exact (List.getElem?_eq_some_iff.mp (numbered.get?_id listed)).1
  rw [lookup?, declaringWithin?_graph formed registered member List.nodup_range, whole]
  rfl

theorem lookupIn?_graph (formed : table.WellFormed) (found : table.layout root = .ok layout)
    (qualifier member : String) :
    table.graph.lookupIn? layout qualifier member =
      some (table.lookupIn layout qualifier member) := by
  obtain ⟨registered, rfl⟩ := ClassTable.layout_eq_ok_iff.mp found
  have lists := ClassTable.layoutOf_listsChains formed root
  unfold lookupIn? ClassTable.lookupIn
  cases copies : (table.layoutOf root).ofClass qualifier with
  | nil => rfl
  | cons start rest =>
      have listed : start ∈ (table.layoutOf root).subobjects :=
        (List.mem_filter.mp (copies ▸ List.mem_cons_self)).1
      have inside : start.id < (table.layoutOf root).size :=
        (List.getElem?_eq_some_iff.mp (lists.numbered.get?_id listed)).1
      have distinct : ((table.layoutOf root).within start.id).Nodup := by
        rw [lists.within_eq_preorder inside]
        exact lists.links.nodup_preorder start.id
      simp only [declaringWithin?_graph formed registered member distinct, Option.map_some]

/-- The class has one node, and its bases have earlier ones. -/
structure PlacedAt (graph : InheritanceGraph) (node : Nat) (decl : ClassDef) : Prop where
  here : graph.nodes[node]? = some decl
  only : ∀ other, graph.nodes[other]? = some decl → other = node
  bases : ∀ base ∈ decl.bases, ∃ lower < node, graph.index? base.name = some lower

theorem placedAt_graph {node : Nat} {decl : ClassDef} (placed : table.PlacedAt node decl) :
    table.graph.PlacedAt node decl where
  here := placed.here
  only := placed.only
  bases := by
    simpa only [ClassTable.index?_graph] using placed.bases

theorem registerAll_inserts {graph : InheritanceGraph} (reachable : Reachable graph)
    (batch : List ClassDef) :
    ((∃ nodes grown, outcome (registerAll batch) graph = (.ok nodes, grown)) ↔
      ∃ order : List ClassDef, order.Perm batch ∧
        ∃ nodes grown, outcome (order.mapM register) graph = (.ok nodes, grown)) ∧
    ∀ nodes grown, outcome (registerAll batch) graph = (.ok nodes, grown) →
      nodes = List.range' graph.size batch.length ∧
      (∃ order : List ClassDef, order.Perm batch ∧ grown.nodes = graph.nodes ++ order ∧
        outcome (order.mapM register) graph = (.ok nodes, grown)) ∧
      (∀ decl ∈ batch, ∃ node ∈ nodes, grown.PlacedAt node decl) ∧
      ∀ singles final, outcome (batch.mapM register) graph = (.ok singles, final) →
        grown.nodes = graph.nodes ++ batch ∧ final = grown := by
  obtain ⟨table, _, rfl⟩ := reachable.exists_table
  have whole := mirrors_registerAll batch
  have singly (order : List ClassDef) := Mirrors.mapM mirrors_register order
  refine ⟨?_, ?_⟩
  · rw [whole.exists_ok_iff, ClassTable.registerAll_ok_iff_mapM]
    simp only [(singly _).exists_ok_iff]
  · intro nodes grown done
    obtain ⟨changed, inserted, rfl⟩ := whole.eq_ok_iff.mp done
    obtain ⟨numbered, ⟨order, perm, classes, inOrder⟩, placed, given⟩ :=
      ClassTable.mapM_of_registerAll inserted
    refine ⟨numbered, ⟨order, perm, classes, (singly order).eq_ok_iff.mpr ⟨_, inOrder, rfl⟩⟩,
      ?_, ?_⟩
    · intro decl listed
      obtain ⟨node, inside, there⟩ := placed decl listed
      exact ⟨node, inside, placedAt_graph there⟩
    · intro singles final sequence
      obtain ⟨last, accepted, rfl⟩ := (singly batch).eq_ok_iff.mp sequence
      obtain ⟨same, rfl⟩ := given singles last accepted
      exact ⟨same, rfl⟩

/-- What queries by name tell about the classes of two graphs. -/
structure SameByName (graph other : InheritanceGraph) : Prop where
  find? : ∀ name, other.find? name = graph.find? name
  ancestry : ∀ name, other.ancestry name = graph.ancestry name
  layout? : ∀ name, other.layout? name = (graph.layout? name).map fun result =>
    result.map fun layout => layout.reindexed fun name => (other.index? name).getD other.size
  lookup? : ∀ name member layout otherLayout, graph.layout? name = some (.ok layout) →
    other.layout? name = some (.ok otherLayout) →
      other.lookup? otherLayout member = graph.lookup? layout member
  lookupIn? : ∀ name qualifier member layout otherLayout,
    graph.layout? name = some (.ok layout) → other.layout? name = some (.ok otherLayout) →
      other.lookupIn? otherLayout qualifier member = graph.lookupIn? layout qualifier member

theorem find?_graph (table : ClassTable) (name : String) :
    table.graph.find? name = table.find? name := by
  rw [find?, ClassTable.index?_graph]
  exact (List.find?_eq_bind_findIdx?_getElem? ..).symm

theorem layout?_graph_eq_ok_iff (formed : table.WellFormed) {name : String} :
    table.graph.layout? name = some (.ok layout) ↔ table.layout name = .ok layout := by
  rw [layout?_graph formed, Option.some.injEq]

theorem sameByName_graph {other : ClassTable} (formed : table.WellFormed)
    (otherFormed : other.WellFormed) (same : ClassTable.SameByName table other) :
    SameByName table.graph other.graph := by
  have places : (fun name => (other.graph.index? name).getD other.graph.size) = other.rank := by
    funext name
    rw [ClassTable.index?_graph]
    exact List.findIdx_eq_getD_findIdx?.symm
  constructor
  case find? =>
    intro name
    rw [find?_graph, find?_graph, same.find?]
  case ancestry =>
    intro name
    rw [ancestry_graph formed, ancestry_graph otherFormed, same.ancestry]
  case layout? =>
    intro name
    rw [layout?_graph formed, layout?_graph otherFormed, places, same.layout]
    rfl
  case lookup? =>
    intro name member layout otherLayout found otherFound
    rw [layout?_graph_eq_ok_iff formed] at found
    rw [layout?_graph_eq_ok_iff otherFormed] at otherFound
    have looked := same.lookup name member
    rw [found, otherFound] at looked
    rw [lookup?_graph formed found, lookup?_graph otherFormed otherFound]
    exact congrArg some looked
  case lookupIn? =>
    intro name qualifier member layout otherLayout found otherFound
    rw [layout?_graph_eq_ok_iff formed] at found
    rw [layout?_graph_eq_ok_iff otherFormed] at otherFound
    have looked := same.lookupIn name qualifier member
    rw [found, otherFound] at looked
    rw [lookupIn?_graph formed found, lookupIn?_graph otherFormed otherFound]
    exact congrArg some looked

theorem registerAll_reordered {graph : InheritanceGraph} (reachable : Reachable graph)
    {batch reordered : List ClassDef} (perm : reordered.Perm batch) :
    ((∃ nodes grown, outcome (registerAll batch) graph = (.ok nodes, grown)) ↔
      ∃ nodes grown, outcome (registerAll reordered) graph = (.ok nodes, grown)) ∧
    ∀ nodes grown otherNodes otherGrown,
      outcome (registerAll batch) graph = (.ok nodes, grown) →
        outcome (registerAll reordered) graph = (.ok otherNodes, otherGrown) →
          SameByName grown otherGrown ∧ ∃ table other : ClassTable, table.graph = grown ∧
            other.graph = otherGrown ∧ ClassTable.SameByName table other := by
  obtain ⟨table, tableReachable, rfl⟩ := reachable.exists_table
  have whole := mirrors_registerAll batch
  have otherWhole := mirrors_registerAll reordered
  refine ⟨?_, ?_⟩
  · rw [whole.exists_ok_iff, otherWhole.exists_ok_iff]
    exact ClassTable.registerAll_ok_iff_of_perm perm
  · intro nodes grown otherNodes otherGrown done otherDone
    obtain ⟨changed, inserted, rfl⟩ := whole.eq_ok_iff.mp done
    obtain ⟨other, otherInserted, rfl⟩ := otherWhole.eq_ok_iff.mp otherDone
    have same := ClassTable.sameByName_of_perm tableReachable perm inserted otherInserted
    have formed := (ClassTable.reachable_of_registerAll tableReachable inserted).wellFormed
    have otherFormed :=
      (ClassTable.reachable_of_registerAll tableReachable otherInserted).wellFormed
    exact ⟨sameByName_graph formed otherFormed same, changed, other, rfl, rfl, same⟩

end InheritanceGraph

end StaticResolution
