import Mathlib
import StaticResolution.InheritanceGraph
import StaticResolution.Proofs.ClassTable.Register

/-!
The graph refines the table of its classes: every registration gives the result that it gives with
the table. The parts of a reachable graph are in step, in whatever order its edges are found, and
all edges go to earlier nodes.
-/

namespace StaticResolution

theorem lookup_mapIdx_name (classes : List ClassDef) (name : String) :
    (classes.mapIdx fun place decl => (decl.name, place)).lookup name =
      classes.findIdx? fun decl => decl.name == name := by
  induction classes using List.reverseRecOn with
  | nil => rfl
  | append_singleton front last ih =>
      rw [List.mapIdx_concat, List.lookup_append, List.findIdx?_append, ih, List.findIdx?_singleton]
      by_cases same : last.name = name
      · simp [same]
      · have unequal : (name == last.name) = false := by simpa using Ne.symm same
        simp [same, List.lookup_cons, unequal]

namespace ClassTable

def edgesAt (table : ClassTable) (place : Nat) (decl : ClassDef) : List BaseEdge :=
  decl.bases.zipIdx.map fun (base, position) =>
    ⟨place, table.rank base.name, base.isVirtual, position⟩

def graph (table : ClassTable) : InheritanceGraph :=
  { nodes := table.classes
    index := table.classes.mapIdx fun place decl => (decl.name, place)
    edges := (table.classes.mapIdx table.edgesAt).flatten }

variable {table : ClassTable}

@[simp] theorem index?_graph (table : ClassTable) (name : String) :
    table.graph.index? name = table.index? name :=
  lookup_mapIdx_name table.classes name

@[simp] theorem contains_graph (table : ClassTable) : table.graph.contains = table.contains := by
  funext name
  rw [InheritanceGraph.contains, index?_graph, index?, List.findIdx?_isSome]
  rfl

theorem index?_of_not_contains {name : String} (absent : table.contains name = false) :
    table.index? name = none := by
  simpa [index?, contains] using absent

theorem rank_add {decl : ClassDef} {known : ∀ base ∈ decl.bases, table.contains base.name = true}
    {name : String} (registered : table.contains name = true) :
    (table.add decl known).rank name = table.rank name :=
  Extends.rank_eq (List.prefix_append _ _) registered

theorem edgesAt_add {decl other : ClassDef}
    {known : ∀ base ∈ decl.bases, table.contains base.name = true} (place : Nat)
    (registered : ∀ base ∈ other.bases, table.contains base.name = true) :
    (table.add decl known).edgesAt place other = table.edgesAt place other := by
  apply List.map_congr_left
  rintro ⟨base, position⟩ listed
  simp only [rank_add (registered base (List.fst_mem_of_mem_zipIdx listed))]

theorem graph_add {decl : ClassDef}
    (known : ∀ base ∈ decl.bases, table.contains base.name = true) :
    (table.add decl known).graph = table.graph.add decl (table.edgesAt table.size decl) := by
  have old : table.classes.mapIdx (table.add decl known).edgesAt =
      table.classes.mapIdx table.edgesAt := by
    apply List.ext_getElem (by simp)
    intro place inside _
    rw [List.getElem_mapIdx, List.getElem_mapIdx]
    exact edgesAt_add place fun base => contains_of_mem_bases (List.getElem_mem _)
  unfold graph InheritanceGraph.add
  simp only [show (table.add decl known).classes = table.classes ++ [decl] from rfl,
    List.mapIdx_concat, List.flatten_append, List.flatten_singleton, old, edgesAt_add _ known]
  rfl

end ClassTable

namespace InheritanceGraph

variable {table : ClassTable} {decl : ClassDef}

theorem edgesOf_graph_of_known (known : ∀ base ∈ decl.bases, table.contains base.name = true) :
    table.graph.edgesOf decl = .ok (table.edgesAt table.size decl) := by
  unfold edgesOf ClassTable.edgesAt
  generalize 0 = start
  generalize decl.bases = bases at known
  induction bases generalizing start with
  | nil => rfl
  | cons base rest ih =>
      obtain ⟨first, later⟩ := List.forall_mem_cons.mp known
      rw [List.zipIdx_cons, List.mapM_cons, ih _ later]
      simp only [ClassTable.index?_graph, ClassTable.index?_of_contains first]
      rfl

theorem edgesOf_graph_of_missing {base : Base}
    (missing : decl.bases.find? (fun base => !table.contains base.name) = some base) :
    table.graph.edgesOf decl = .error (.unknownBase decl.name base.name) := by
  unfold edgesOf
  generalize 0 = start
  generalize decl.bases = bases at missing
  induction bases generalizing start with
  | nil => cases missing
  | cons first rest ih =>
      rw [List.zipIdx_cons, List.mapM_cons]
      rw [List.find?_cons] at missing
      cases known : table.contains first.name with
      | true =>
          rw [known] at missing
          rw [ih _ missing]
          simp only [ClassTable.index?_graph, ClassTable.index?_of_contains known]
          rfl
      | false =>
          rw [known] at missing
          cases missing
          simp only [ClassTable.index?_graph, ClassTable.index?_of_not_contains known]
          rfl

theorem mirrors_register (decl : ClassDef) :
    Mirrors ClassTable.graph (ClassTable.register decl) (register decl) := by
  intro table
  unfold register ClassTable.register
  rw [outcome_bind_ok (outcome_get table), outcome_bind_ok (outcome_get table.graph)]
  rw [ClassTable.contains_graph]
  cases table.contains decl.name with
  | true => rfl
  | false =>
      simp only [Bool.false_eq_true, if_false]
      cases decl.duplicateBase? with
      | some fault => rfl
      | none =>
          simp only
          by_cases known : ∀ base ∈ decl.bases, table.contains base.name = true
          · rw [edgesOf_graph_of_known known]
            simp only
            split
            next base missing =>
              have absent := List.find?_some missing
              simp [known base (List.mem_of_find?_eq_some missing)] at absent
            next missing =>
              change (Except.ok table.size, table.graph.add decl _) = _
              rw [← ClassTable.graph_add known]
              rfl
          · have refused : decl.bases.find? (fun base => !table.contains base.name) ≠ none := by
              simpa using known
            obtain ⟨base, missing⟩ := Option.ne_none_iff_exists'.mp refused
            rw [edgesOf_graph_of_missing missing]
            simp only
            split
            next other again =>
              cases missing.symm.trans again
              rfl
            next none => exact absurd none refused

theorem mirrors_registerAll (batch : List ClassDef) :
    Mirrors ClassTable.graph (ClassTable.registerAll batch) (registerAll batch) := by
  intro table
  unfold registerAll ClassTable.registerAll ClassTable.duplicate? ClassTable.unknownBase?
  rw [outcome_bind_ok (outcome_get table), outcome_bind_ok (outcome_get table.graph)]
  rw [ClassTable.contains_graph]
  cases duplicateAmong? table.contains [] batch with
  | some fault => rfl
  | none =>
      cases unknownBaseAmong? table.contains batch with
      | some fault => rfl
      | none =>
          cases basesFirst batch with
          | error fault => rfl
          | ok sorted => exact Mirrors.mapM mirrors_register sorted table

/-- The graphs that calls of the two registrations lead to, whether they succeed or fail. -/
inductive Reachable : InheritanceGraph → Prop
  | empty : Reachable .empty
  | register {graph : InheritanceGraph} (decl : ClassDef) (reachable : Reachable graph) :
      Reachable (outcome (register decl) graph).2
  | registerAll {graph : InheritanceGraph} (batch : List ClassDef) (reachable : Reachable graph) :
      Reachable (outcome (registerAll batch) graph).2

theorem Reachable.exists_table {graph : InheritanceGraph} (reachable : Reachable graph) :
    ∃ table : ClassTable, table.Reachable ∧ table.graph = graph := by
  induction reachable with
  | empty => exact ⟨.empty, .empty, rfl⟩
  | register decl _ ih =>
      obtain ⟨table, tableReachable, rfl⟩ := ih
      refine ⟨_, .register decl tableReachable, ?_⟩
      rw [mirrors_register decl table]
  | registerAll batch _ ih =>
      obtain ⟨table, tableReachable, rfl⟩ := ih
      refine ⟨_, .registerAll batch tableReachable, ?_⟩
      rw [mirrors_registerAll batch table]

end InheritanceGraph

theorem filter_flatten_mapIdx {α β : Type} {f : Nat → α → List β} {key : β → Nat}
    (keyed : ∀ place item, ∀ entry ∈ f place item, key entry = place) (list : List α)
    (place : Nat) :
    (list.mapIdx f).flatten.filter (fun entry => key entry == place) =
      ((list[place]?).map (f place)).getD [] := by
  induction list using List.reverseRecOn with
  | nil => rfl
  | append_singleton front last ih =>
      rw [List.mapIdx_concat, List.flatten_append, List.flatten_singleton, List.filter_append, ih]
      by_cases here : place = front.length
      · subst here
        have all : (f front.length last).filter (fun entry => key entry == front.length) =
            f front.length last :=
          List.filter_eq_self.mpr fun entry listed => beq_iff_eq.mpr (keyed _ _ entry listed)
        simp [all]
      · have none : (f front.length last).filter (fun entry => key entry == place) = [] := by
          apply List.filter_eq_nil_iff.mpr
          intro entry listed
          simpa [keyed _ _ entry listed] using Ne.symm here
        rw [none, List.append_nil]
        rcases Nat.lt_or_ge place front.length with inside | outside
        · rw [List.getElem?_append_left inside]
        · rw [List.getElem?_eq_none outside, List.getElem?_eq_none]
          rw [List.length_append, List.length_singleton]
          omega

namespace BaseEdge

theorem inClauseOrder_perm (edges : List BaseEdge) : (inClauseOrder edges).Perm edges :=
  List.mergeSort_perm _ _

theorem pairwise_inClauseOrder (edges : List BaseEdge) :
    (inClauseOrder edges).Pairwise fun early late => early.position ≤ late.position := by
  have sorted := @List.pairwise_mergeSort _ (fun early late : BaseEdge =>
    decide (early.position ≤ late.position)) (by simp; omega) (by simp; omega) edges
  simpa [inClauseOrder] using sorted

theorem inClauseOrder_eq {edges found : List BaseEdge} (perm : found.Perm edges)
    (increasing : edges.Pairwise fun early late => early.position < late.position) :
    inClauseOrder found = edges := by
  have toEdges := (inClauseOrder_perm found).trans perm
  have distinct : (edges.map position).Nodup := by
    rw [List.Nodup, List.pairwise_map]
    exact increasing.imp Nat.ne_of_lt
  refine List.Perm.eq_of_pairwise ?_ (pairwise_inClauseOrder found)
    (increasing.imp Nat.le_of_lt) toEdges
  intro early late earlyListed lateListed below above
  exact List.inj_on_of_nodup_map distinct (toEdges.mem_iff.mp earlyListed) lateListed
    (Nat.le_antisymm below above)

end BaseEdge

namespace ClassTable

variable {table : ClassTable}

theorem source_of_mem_edgesAt {place : Nat} {decl : ClassDef} :
    ∀ edge ∈ table.edgesAt place decl, edge.source = place := by
  intro edge listed
  obtain ⟨clause, _, rfl⟩ := List.mem_map.mp listed
  rfl

theorem pairwise_edgesAt (table : ClassTable) (place : Nat) (decl : ClassDef) :
    (table.edgesAt place decl).Pairwise fun early late => early.position < late.position := by
  rw [List.pairwise_iff_getElem]
  intro early late earlyBound lateBound before
  have positionAt : ∀ position (bound : position < (table.edgesAt place decl).length),
      ((table.edgesAt place decl)[position]).position = position := by
    intro position bound
    simp [edgesAt]
  rwa [positionAt, positionAt]

theorem edgesFrom_graph (table : ClassTable) (place : Nat) :
    table.graph.edgesFrom place =
      (((table.at? place).map (table.edgesAt place)).getD []).reverse := by
  rw [InheritanceGraph.edgesFrom]
  exact congrArg List.reverse
    (filter_flatten_mapIdx (fun _ _ => source_of_mem_edgesAt) table.classes place)

theorem inClauseOrder_edges {place : Nat} {found : List BaseEdge}
    (perm : found.Perm (table.graph.edgesFrom place)) :
    BaseEdge.inClauseOrder found = ((table.at? place).map (table.edgesAt place)).getD [] := by
  rw [edgesFrom_graph] at perm
  apply BaseEdge.inClauseOrder_eq (perm.trans (List.reverse_perm _))
  cases table.at? place with
  | none => exact List.Pairwise.nil
  | some decl => exact table.pairwise_edgesAt place decl

@[simp] theorem basesAt_graph (table : ClassTable) (place : Nat) :
    table.graph.basesAt place = table.basesAt place := by
  rw [InheritanceGraph.basesAt, inClauseOrder_edges (List.Perm.refl _), basesAt]
  cases table.at? place with
  | none => rfl
  | some decl =>
      simp only [Option.map_some, Option.getD_some, edgesAt, List.map_map,
        List.mapIdx_eq_zipIdx_map]
      rfl

theorem rank_lt_place {place : Nat} {decl : ClassDef} (here : table.at? place = some decl)
    {base : Base} (clause : base ∈ decl.bases) : table.rank base.name < place := by
  obtain ⟨bound, rfl⟩ := List.getElem?_eq_some_iff.mp here
  have split : table.classes = table.classes.take place ++ table.classes[place] ::
      table.classes.drop (place + 1) := by
    rw [List.getElem_cons_drop, List.take_append_drop]
  obtain ⟨owner, early, named⟩ := table.precede _ _ _ split base clause
  have found : (table.classes.take place).findIdx (fun decl => decl.name == base.name) <
      (table.classes.take place).length :=
    List.findIdx_lt_length_of_exists ⟨owner, early, beq_iff_eq.mpr named⟩
  rw [rank, ← List.take_append_drop place table.classes, List.findIdx_append, if_pos found]
  exact Nat.lt_of_lt_of_le found (List.length_take_le _ _)

theorem index?_eq_some_iff (formed : table.WellFormed) {name : String} {place : Nat} :
    table.index? name = some place ↔
      ∃ decl, table.at? place = some decl ∧ decl.name = name := by
  constructor
  · intro found
    obtain ⟨bound, named, _⟩ := List.findIdx?_eq_some_iff_getElem.mp found
    exact ⟨_, List.getElem?_eq_getElem bound, by simpa using named⟩
  · rintro ⟨decl, here, rfl⟩
    obtain ⟨bound, rfl⟩ := List.getElem?_eq_some_iff.mp here
    refine List.findIdx?_eq_some_iff_getElem.mpr ⟨bound, by simp, ?_⟩
    intro other before same
    have inside : other < table.classes.length := Nat.lt_trans before bound
    have equal : (table.classes.map ClassDef.name)[other]? =
        (table.classes.map ClassDef.name)[place]? := by
      simpa [inside, bound] using same
    have places := (List.getElem?_inj (by simpa using inside) formed.distinctNames).mp equal
    omega

theorem exists_at? {name : String} (registered : table.contains name = true) :
    ∃ decl, table.at? (table.rank name) = some decl ∧ decl.name = name := by
  obtain ⟨bound, named, _⟩ :=
    List.findIdx?_eq_some_iff_getElem.mp (index?_of_contains registered)
  exact ⟨_, List.getElem?_eq_getElem bound, by simpa using named⟩

theorem WellFormed.name_eq_iff (formed : table.WellFormed) {place other : Nat}
    {decl second : ClassDef} (here : table.at? place = some decl)
    (there : table.at? other = some second) : decl.name = second.name ↔ place = other := by
  constructor
  · intro same
    have first := (index?_eq_some_iff formed).mpr ⟨decl, here, same⟩
    have again := (index?_eq_some_iff formed).mpr ⟨second, there, rfl⟩
    exact Option.some.inj (first.symm.trans again)
  · rintro rfl
    rw [Option.some.inj (here.symm.trans there)]

theorem basesOf_of_at? (formed : table.WellFormed) {place : Nat} {decl : ClassDef}
    (here : table.at? place = some decl) : table.basesOf decl.name = decl.bases := by
  rw [basesOf, formed.find?_of_mem (List.mem_of_getElem? here) rfl]

theorem exists_at?_of_mem_basesOf {name : String} {base : Base}
    (clause : base ∈ table.basesOf name) :
    ∃ place decl, table.at? place = some decl ∧ decl.name = name ∧ base ∈ decl.bases := by
  unfold basesOf at clause
  split at clause
  next decl found =>
    obtain ⟨listed, named⟩ := mem_of_find? found
    obtain ⟨place, here⟩ := List.mem_iff_getElem?.mp listed
    exact ⟨place, decl, here, named, clause⟩
  next => exact absurd clause List.not_mem_nil

theorem mem_edges_graph {edge : BaseEdge} (listed : edge ∈ table.graph.edges) :
    ∃ decl, table.at? edge.source = some decl ∧ edge ∈ table.edgesAt edge.source decl := by
  obtain ⟨_, placed, inside⟩ := List.mem_flatten.mp listed
  obtain ⟨place, bound, rfl⟩ := List.mem_mapIdx.mp placed
  rw [source_of_mem_edgesAt edge inside]
  exact ⟨_, List.getElem?_eq_getElem bound, inside⟩

end ClassTable

namespace InheritanceGraph

def Leads (graph : InheritanceGraph) (node below : Nat) : Prop :=
  ∃ edge ∈ graph.edges, edge.source = node ∧ edge.target = below

/-- The entries name the classes of the clauses, in the order and with the flags of the clauses. -/
structure Lists (graph : InheritanceGraph) (bases : List Base) (entries : List BaseEntry) :
    Prop where
  length : entries.length = bases.length
  entry : ∀ (position : Nat) (base : Base), bases[position]? = some base →
    ∃ (target : Nat) (owner : ClassDef),
      entries[position]? = some ⟨target, base.isVirtual, position⟩ ∧
        graph.nodes[target]? = some owner ∧ owner.name = base.name

/-- The nodes, the index and the edges tell the same, and no way along the edges comes back. -/
structure InStep (graph : InheritanceGraph) : Prop where
  distinctNames : (graph.nodes.map ClassDef.name).Nodup
  indexed : ∀ name node, graph.index? name = some node ↔
    ∃ decl, graph.nodes[node]? = some decl ∧ decl.name = name
  distinctBases : ∀ decl ∈ graph.nodes, (decl.bases.map Base.name).Nodup
  clauses : ∀ node decl, graph.nodes[node]? = some decl →
    graph.Lists decl.bases (graph.basesAt node)
  anyOrder : ∀ node found, found.Perm (graph.edgesFrom node) →
    (BaseEdge.inClauseOrder found).map BaseEdge.entry = graph.basesAt node
  descending : ∀ edge ∈ graph.edges, edge.target < edge.source ∧ edge.source < graph.size
  acyclic : ∀ node, ¬ Relation.TransGen graph.Leads node node

theorem lt_of_transGen {graph : InheritanceGraph}
    (descending : ∀ edge ∈ graph.edges, edge.target < edge.source) {node below : Nat}
    (way : Relation.TransGen graph.Leads node below) : below < node := by
  induction way with
  | single step =>
      obtain ⟨edge, listed, rfl, rfl⟩ := step
      exact descending edge listed
  | tail _ step ih =>
      obtain ⟨edge, listed, rfl, rfl⟩ := step
      exact Nat.lt_trans (descending edge listed) ih

theorem lists_basesAt {table : ClassTable} {node : Nat} {decl : ClassDef}
    (here : table.at? node = some decl) :
    table.graph.Lists decl.bases (table.graph.basesAt node) := by
  rw [ClassTable.basesAt_graph, ClassTable.basesAt, here]
  refine ⟨List.length_mapIdx, ?_⟩
  intro position base clause
  obtain ⟨owner, ownerAt, named⟩ := ClassTable.exists_at?
    (ClassTable.contains_of_mem_bases (List.mem_of_getElem? here) (List.mem_of_getElem? clause))
  refine ⟨table.rank base.name, owner, ?_, ownerAt, named⟩
  rw [List.getElem?_mapIdx, clause]
  rfl

theorem inStep_graph {table : ClassTable} (formed : table.WellFormed) : table.graph.InStep := by
  have descending : ∀ edge ∈ table.graph.edges,
      edge.target < edge.source ∧ edge.source < table.graph.size := by
    intro edge listed
    obtain ⟨decl, here, inside⟩ := ClassTable.mem_edges_graph listed
    obtain ⟨⟨base, position⟩, clause, same⟩ := List.mem_map.mp inside
    refine ⟨?_, (List.getElem?_eq_some_iff.mp here).1⟩
    have lower := ClassTable.rank_lt_place here (List.fst_mem_of_mem_zipIdx clause)
    rw [← same] at lower ⊢
    exact lower
  constructor
  case distinctNames => exact formed.distinctNames
  case indexed =>
    intro name node
    rw [ClassTable.index?_graph]
    exact ClassTable.index?_eq_some_iff formed
  case distinctBases => exact formed.distinctBases
  case clauses => exact fun node decl here => lists_basesAt here
  case anyOrder =>
    intro node found perm
    rw [basesAt, ClassTable.inClauseOrder_edges perm,
      ClassTable.inClauseOrder_edges (List.Perm.refl _)]
  case descending => exact descending
  case acyclic =>
    intro node circle
    exact Nat.lt_irrefl _ (lt_of_transGen (fun edge listed => (descending edge listed).1) circle)

/-- After any registrations the parts of the graph are in step. The graph is then that of a table
which registrations lead to as well, and the table tells the same places and bases. -/
theorem reachable_inStep {graph : InheritanceGraph} (reachable : Reachable graph) :
    graph.InStep ∧ ∃ table : ClassTable, table.Reachable ∧ table.graph = graph ∧
      table.classes = graph.nodes ∧ table.index? = graph.index? ∧
      table.basesAt = graph.basesAt := by
  obtain ⟨table, tableReachable, rfl⟩ := reachable.exists_table
  refine ⟨inStep_graph tableReachable.wellFormed, table, tableReachable, rfl, rfl, ?_, ?_⟩
  · exact funext fun name => (ClassTable.index?_graph table name).symm
  · exact funext fun node => (ClassTable.basesAt_graph table node).symm

theorem reachable_inStep_mixed :
    ∃ graph, graph = (outcome (registerAll ClassTable.mixedBatch) .empty).2 ∧ Reachable graph ∧
      graph.index? "D" = some 4 ∧
      (graph.edgesFrom 4).map BaseEdge.position = [2, 1, 0] ∧
      (BaseEdge.inClauseOrder (graph.edgesFrom 4).reverse).map BaseEdge.entry =
        [⟨1, false, 0⟩, ⟨2, false, 1⟩, ⟨3, false, 2⟩] := by
  have reachable : Reachable (outcome (registerAll ClassTable.mixedBatch) .empty).2 :=
    .registerAll _ .empty
  obtain ⟨inStep, _⟩ := reachable_inStep reachable
  refine ⟨_, rfl, reachable, by cbv, by cbv, ?_⟩
  rw [inStep.anyOrder 4 _ (List.reverse_perm _)]
  cbv

end InheritanceGraph

end StaticResolution
