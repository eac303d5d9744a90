import StaticResolution.Proofs.InheritanceGraph.Ancestry
import StaticResolution.Proofs.Layout.Parts

/-!
The walk along the edges of a graph lays objects out as the table of its classes does, which tells
the numbers, nodes, kinds and parents of the sub-objects, and their lists of direct bases.
-/

namespace StaticResolution

def Subobject.unmeasured (part : Subobject) : Subobject :=
  { part with depth := 0 }

namespace ClassTable

variable {table : ClassTable} {name : String}

def placedIn (table : ClassTable) (root : String) (draft : Draft) : List Subobject :=
  { id := 0, className := root, classIndex := table.rank root, isVirtual := false, parent := none,
    depth := 0 } ::
  draft.bases.mapIdx fun position placed =>
    { id := position + 1, className := placed.className, classIndex := table.rank placed.className,
      isVirtual := placed.isVirtual, parent := some placed.parent, depth := 0 }

theorem rank_inj {other : String} (registered : table.contains name = true)
    (otherRegistered : table.contains other = true) :
    table.rank name = table.rank other ↔ name = other := by
  constructor
  · intro same
    obtain ⟨decl, here, named⟩ := exists_at? registered
    obtain ⟨second, there, otherNamed⟩ := exists_at? otherRegistered
    rw [same, there, Option.some.injEq] at here
    rw [← named, ← otherNamed, here]
  · exact fun same => congrArg table.rank same

theorem lookup_ranks {shared : List (String × Nat)}
    (known : ∀ entry ∈ shared, table.contains entry.1 = true)
    (registered : table.contains name = true) :
    (shared.map fun entry => (table.rank entry.1, entry.2)).lookup (table.rank name) =
      shared.lookup name := by
  induction shared with
  | nil => rfl
  | cons first rest ih =>
      obtain ⟨firstKnown, restKnown⟩ := List.forall_mem_cons.mp known
      have keys : (table.rank name == table.rank first.1) = (name == first.1) := by
        rw [Bool.eq_iff_iff, beq_iff_eq, beq_iff_eq, rank_inj registered firstKnown]
      rw [List.map_cons, List.lookup_cons, List.lookup_cons, keys, ih restKnown]

end ClassTable

namespace LayoutBuilder

@[simp] theorem subobjects_share (builder : LayoutBuilder) (base : BaseEntry) (id : Nat) :
    (builder.share base id).subobjects = builder.subobjects := by
  unfold share
  split <;> rfl

@[simp] theorem parts_share (builder : LayoutBuilder) (base : BaseEntry) (id : Nat) :
    (builder.share base id).parts = builder.parts := by
  unfold share
  split <;> rfl

theorem shared_share (builder : LayoutBuilder) (base : BaseEntry) (id : Nat) :
    (builder.share base id).shared =
      if base.isVirtual then builder.shared ++ [(base.index, id)] else builder.shared := by
  unfold share
  split <;> rfl

end LayoutBuilder

/-- A builder that has placed what a draft has placed, each thing with the node of its class. -/
structure LayoutBuilder.Follows (table : ClassTable) (root : String) (draft : Draft)
    (builder : LayoutBuilder) : Prop where
  subobjects : builder.subobjects.map Subobject.unmeasured = table.placedIn root draft
  parts : builder.parts = draft.parts
  shared : builder.shared = draft.shared.map fun entry => (table.rank entry.1, entry.2)
  known : ∀ entry ∈ draft.shared, table.contains entry.1 = true
  placed : draft.size = draft.bases.length + 1

namespace LayoutBuilder.Follows

variable {table : ClassTable} {root : String} {draft : Draft} {builder : LayoutBuilder}

theorem initial (table : ClassTable) (root : String) {start : LayoutBuilder}
    (first : start.subobjects.map Subobject.unmeasured = table.placedIn root {})
    (parts : start.parts = [[]]) (shared : start.shared = []) :
    start.Follows table root {} where
  subobjects := first
  parts := parts
  shared := shared
  known := by simp
  placed := rfl

theorem size (follows : builder.Follows table root draft) : builder.size = draft.size := by
  have lengths := congrArg List.length follows.subobjects
  rw [follows.placed, LayoutBuilder.size]
  simpa [ClassTable.placedIn] using lengths

theorem link (follows : builder.Follows table root draft) (outer inner : Nat) :
    (builder.link outer inner).Follows table root (draft.link outer inner) where
  subobjects := follows.subobjects
  parts := by rw [LayoutBuilder.link, follows.parts]; rfl
  shared := follows.shared
  known := follows.known
  placed := by rw [Draft.size_link]; exact follows.placed

theorem shared?_eq (follows : builder.Follows table root draft) {base : Base}
    (registered : table.contains base.name = true) (position : Nat) :
    builder.shared? (table.entryFor (base, position)) = draft.shared? base := by
  unfold LayoutBuilder.shared? Draft.shared?
  rw [follows.shared]
  exact if_congr Iff.rfl (ClassTable.lookup_ranks follows.known registered) rfl

theorem add (follows : builder.Follows table root draft) {base : Base}
    (registered : table.contains base.name = true) {outer position : Nat} {part : Subobject}
    (described : part.unmeasured =
      { id := draft.bases.length + 1, className := base.name, classIndex := table.rank base.name,
        isVirtual := base.isVirtual, parent := some outer, depth := 0 }) :
    ((builder.add part).share (table.entryFor (base, position)) builder.size).Follows table root
      { bases := draft.bases ++ [⟨base.name, base.isVirtual, outer⟩]
        parts := draft.parts ++ [[]]
        shared := if base.isVirtual then draft.shared ++ [(base.name, builder.size)]
          else draft.shared } := by
  constructor
  case subobjects =>
    rw [subobjects_share, LayoutBuilder.add, List.map_append, follows.subobjects,
      List.map_singleton, described]
    simp [ClassTable.placedIn]
  case parts => rw [parts_share, LayoutBuilder.add, follows.parts]
  case shared =>
    rw [shared_share, LayoutBuilder.add, follows.shared, ClassTable.entryFor]
    cases base.isVirtual <;> simp
  case known =>
    intro entry listed
    split at listed
    next =>
      rcases List.mem_append.mp listed with old | new
      · exact follows.known entry old
      · rwa [List.mem_singleton.mp new]
    next => exact follows.known entry listed
  case placed =>
    have placed := follows.placed
    simp only [Draft.size, List.length_append, List.length_singleton] at placed ⊢
    omega

theorem place (follows : builder.Follows table root draft) {base : Base}
    (registered : table.contains base.name = true) {outer : Nat} (inside : outer < builder.size)
    (position : Nat) :
    ∃ placed,
      table.graph.place? builder (table.rank base.name) base.isVirtual (some outer) =
        some placed ∧
      LayoutBuilder.Follows table root (draft.place outer base)
        ((placed.share (table.entryFor (base, position)) builder.size).link outer
          builder.size) := by
  obtain ⟨decl, here, named⟩ := ClassTable.exists_at? registered
  have node : table.graph.nodes[table.rank base.name]? = some decl := here
  have depth : builder.depthBelow? (some outer) = some (builder.subobjects[outer].depth + 1) := by
    rw [depthBelow?, List.getElem?_eq_getElem inside, Option.map_some]
  refine ⟨_, by rw [InheritanceGraph.place?, node, depth]; rfl, ?_⟩
  unfold Draft.place
  rw [named, ← follows.size]
  apply (follows.add registered _).link
  rw [follows.size, follows.placed]
  rfl

end LayoutBuilder.Follows

namespace InheritanceGraph

def expandOver? (graph : InheritanceGraph) (outer : Nat) (builder : LayoutBuilder)
    (base : BaseEntry) : Option LayoutBuilder :=
  match builder.shared? base with
  | some inner => some (builder.link outer inner)
  | none => do
      let placed ← graph.place? builder base.index base.isVirtual (some outer)
      graph.expand? ((placed.share base builder.size).link outer builder.size) builder.size
        base.index

theorem expand?_eq (graph : InheritanceGraph) (builder : LayoutBuilder) (outer node : Nat) :
    graph.expand? builder outer node =
      (graph.basesAt node).foldlM (graph.expandOver? outer) builder := by
  rw [expand?]
  rfl

variable {table : ClassTable} {root : String} {draft : Draft} {builder : LayoutBuilder}

def BuildsFrom (table : ClassTable) (root : String) (node : Nat) : Prop :=
  ∀ {decl draft builder outer}, table.at? node = some decl →
    LayoutBuilder.Follows table root draft builder → outer < builder.size →
    ∃ built, table.graph.expand? builder outer node = some built ∧
      built.Follows table root (table.expand draft outer decl.name) ∧ builder.size ≤ built.size

theorem expandOver?_graph {base : Base} (registered : table.contains base.name = true)
    (follows : builder.Follows table root draft) {outer : Nat} (inside : outer < builder.size)
    (further : BuildsFrom table root (table.rank base.name)) (position : Nat) :
    ∃ built,
      table.graph.expandOver? outer builder (table.entryFor (base, position)) = some built ∧
      built.Follows table root (table.expandOver outer draft base) ∧
        builder.size ≤ built.size := by
  unfold expandOver? ClassTable.expandOver
  rw [follows.shared?_eq registered]
  cases draft.shared? base with
  | some inner => exact ⟨_, rfl, follows.link outer inner, Nat.le_refl _⟩
  | none =>
      obtain ⟨owner, ownerAt, named⟩ := ClassTable.exists_at? registered
      obtain ⟨placed, found, grown⟩ := follows.place registered inside position
      have larger := grown.size
      rw [Draft.size_place, ← follows.size] at larger
      have insideGrown : builder.size < ((placed.share (table.entryFor (base, position))
        builder.size).link outer builder.size).size := by omega
      obtain ⟨built, walked, kept, longer⟩ := further ownerAt grown insideGrown
      rw [named, follows.size] at kept
      exact ⟨built, Option.bind_eq_some_iff.mpr ⟨placed, found, walked⟩, kept, by omega⟩

theorem foldlM_expandOver? {clauses : List (Base × Nat)}
    (registered : ∀ clause ∈ clauses, table.contains clause.1.name = true)
    (further : ∀ clause ∈ clauses, BuildsFrom table root (table.rank clause.1.name))
    (follows : builder.Follows table root draft) {outer : Nat} (inside : outer < builder.size) :
    ∃ built,
      (clauses.map table.entryFor).foldlM (table.graph.expandOver? outer) builder = some built ∧
      built.Follows table root
        ((clauses.map Prod.fst).foldl (table.expandOver outer) draft) ∧
      builder.size ≤ built.size := by
  induction clauses generalizing draft builder with
  | nil => exact ⟨builder, rfl, follows, Nat.le_refl _⟩
  | cons clause rest ih =>
      obtain ⟨known, restKnown⟩ := List.forall_mem_cons.mp registered
      obtain ⟨below, restBelow⟩ := List.forall_mem_cons.mp further
      obtain ⟨middle, stepped, middleFollows, longer⟩ :=
        expandOver?_graph known follows inside below clause.2
      obtain ⟨built, walked, kept, longest⟩ := ih restKnown restBelow middleFollows (by omega)
      refine ⟨built, ?_, kept, by omega⟩
      rw [List.map_cons, List.foldlM_cons]
      exact Option.bind_eq_some_iff.mpr ⟨middle, stepped, walked⟩

theorem buildsFrom (formed : table.WellFormed) (root : String) (node : Nat) :
    BuildsFrom table root node := by
  induction node using Nat.strong_induction_on with
  | _ node ih =>
      intro decl draft builder outer here follows inside
      have registered : ∀ clause ∈ decl.bases.zipIdx, table.contains clause.1.name = true :=
        fun clause listed => ClassTable.contains_of_mem_bases (List.mem_of_getElem? here)
          (List.fst_mem_of_mem_zipIdx listed)
      have further : ∀ clause ∈ decl.bases.zipIdx,
          BuildsFrom table root (table.rank clause.1.name) := fun clause listed =>
        ih _ (ClassTable.rank_lt_place here (List.fst_mem_of_mem_zipIdx listed))
      obtain ⟨built, walked, kept, longer⟩ := foldlM_expandOver? registered further follows inside
      refine ⟨built, ?_, ?_, longer⟩
      · rw [expand?_eq, basesAt_of_at? here, walked]
      · rw [ClassTable.expand_eq_foldl, ClassTable.basesOf_of_at? formed here]
        rwa [List.zipIdx_map_fst] at kept

theorem measured_of_follows (follows : builder.Follows table root draft) :
    builder.measured = (table.finish root draft).subobjects := by
  have unmeasured : ∀ depths : List (Option Nat),
      (builder.subobjects.mapIdx fun id part =>
        { part with depth := DepthSearch.depthOf depths id }) =
      (builder.subobjects.map Subobject.unmeasured).mapIdx fun id part =>
        { part with depth := DepthSearch.depthOf depths id } := by
    intro depths
    simp [List.mapIdx_eq_zipIdx_map, List.zipIdx_map, Subobject.unmeasured]
  rw [LayoutBuilder.measured, unmeasured, follows.subobjects, follows.parts, follows.size,
    ClassTable.placedIn, List.mapIdx_cons, List.mapIdx_mapIdx]
  rfl

theorem finish?_of_follows (follows : builder.Follows table root draft) :
    builder.finish? = some (table.finish root draft) := by
  rw [LayoutBuilder.finish?, measured_of_follows follows, follows.parts]
  rfl

/-- The walk along the edges of the graph ends, and lays a class out as the table does. -/
theorem layout?_graph (formed : table.WellFormed) (name : String) :
    table.graph.layout? name = some (table.layout name) := by
  unfold layout? ClassTable.layout
  rw [ancestry_graph formed, ClassTable.ancestry, ClassTable.index?_graph]
  by_cases registered : table.contains name = true
  · obtain ⟨decl, here, rfl⟩ := ClassTable.exists_at? registered
    let start : LayoutBuilder := LayoutBuilder.add {}
      { id := 0, className := decl.name, classIndex := table.rank decl.name, isVirtual := false,
        parent := none, depth := 0 }
    have placed : table.graph.place? {} (table.rank decl.name) false none = some start := by
      have node : table.graph.nodes[table.rank decl.name]? = some decl := here
      rw [place?, node]
      rfl
    have follows : start.Follows table decl.name {} := .initial table decl.name rfl rfl rfl
    obtain ⟨built, walked, kept, _⟩ :=
      buildsFrom formed decl.name _ here follows (Nat.lt_succ_self 0)
    rw [if_pos registered, if_pos registered, ClassTable.index?_of_contains registered]
    refine Option.bind_eq_some_iff.mpr ⟨start, placed, ?_⟩
    refine Option.bind_eq_some_iff.mpr ⟨built, walked, ?_⟩
    exact Option.bind_eq_some_iff.mpr ⟨_, finish?_of_follows kept, rfl⟩
  · rw [if_neg registered, if_neg registered]

end InheritanceGraph

def Layout.AnswersEdge (layout : Layout) (inner : Nat) (entry : BaseEntry) : Prop :=
  ∃ part, layout.get? inner = some part ∧ part.classIndex = entry.index ∧
    part.isVirtual = entry.isVirtual

/-- The sub-objects are numbered in their order, and the direct bases of each are listed as its
class lists them. The complete object is listed nowhere, a sub-object that is not shared once, and
any other one by its parent, which comes before it. No class is shared twice. -/
structure Layout.Represents (layout : Layout) (graph : InheritanceGraph) (name : String) :
    Prop where
  complete : layout.complete.className = name ∧ layout.complete.isVirtual = false ∧
    layout.complete.parent = none
  numbered : ∀ id part, layout.get? id = some part → part.id = id
  lists : layout.parts.length = layout.size
  clauses : ∀ id part, layout.get? id = some part →
    ∃ decl, graph.nodes[part.classIndex]? = some decl ∧ decl.name = part.className ∧
      List.Forall₂ layout.Answers (layout.partsOf id) decl.bases
  edges : ∀ id part, layout.get? id = some part →
    List.Forall₂ layout.AnswersEdge (layout.partsOf id) (graph.basesAt part.classIndex)
  outermost : 0 ∉ layout.parts.flatten
  parent : ∀ id part, layout.get? id = some part → id ≠ 0 →
    ∃ outer < id, part.parent = some outer ∧ id ∈ layout.partsOf outer
  own : ∀ id part, layout.get? id = some part → id ≠ 0 → part.isVirtual = false →
    layout.parts.flatten.count id = 1
  shared : ∀ id other part piece, layout.get? id = some part → layout.get? other = some piece →
    part.isVirtual = true → piece.isVirtual = true → part.className = piece.className → id = other

namespace InheritanceGraph

variable {table : ClassTable} {name : String}

theorem answersEdge_of_answers {decl : ClassDef} {place : Nat} (here : table.at? place = some decl)
    {parts : List Nat} (answers : List.Forall₂ (table.layoutOf name).Answers parts decl.bases) :
    List.Forall₂ (table.layoutOf name).AnswersEdge parts (table.graph.basesAt place) := by
  rw [← List.zipIdx_map_fst 0 decl.bases, List.forall₂_map_right_iff] at answers
  rw [basesAt_of_at? here, List.forall₂_map_right_iff]
  refine answers.imp ?_
  rintro inner ⟨base, position⟩ ⟨part, partAt, named, kind⟩
  exact ⟨part, partAt, (ClassTable.classIndex_layoutOf partAt).trans (congrArg table.rank named),
    kind⟩

theorem layoutOf_represents (formed : table.WellFormed) (registered : table.contains name = true) :
    (table.layoutOf name).Represents table.graph name := by
  have lists := ClassTable.layoutOf_listsChains formed name
  have lengths := ClassTable.length_parts_layoutOf formed name
  have clauses : ∀ id part, (table.layoutOf name).get? id = some part →
      ∃ decl, table.at? part.classIndex = some decl ∧ decl.name = part.className ∧
        List.Forall₂ (table.layoutOf name).Answers ((table.layoutOf name).partsOf id)
          decl.bases := by
    intro id part partAt
    have inherits := ClassTable.inherits_of_mem_layoutOf formed (List.mem_of_getElem? partAt)
    obtain ⟨decl, here, named⟩ := ClassTable.exists_at? (inherits.contains registered)
    obtain ⟨chain, found, _, leaf, _⟩ := lists.chain partAt
    have answers := lists.answers_partsOf found
    rw [← leaf, ← named, ClassTable.basesOf_of_at? formed here] at answers
    exact ⟨decl, ClassTable.classIndex_layoutOf partAt ▸ here, named, answers⟩
  constructor
  case complete => exact ⟨rfl, rfl, rfl⟩
  case numbered =>
    intro id part partAt
    obtain ⟨_, _, numbered, _⟩ := lists.chain partAt
    exact numbered
  case lists => exact lengths
  case clauses => exact clauses
  case edges =>
    intro id part partAt
    obtain ⟨decl, here, _, answers⟩ := clauses id part partAt
    exact answersEdge_of_answers here answers
  case outermost => exact lists.zero_not_mem_flatten_parts lengths
  case parent =>
    intro id part partAt inner
    obtain ⟨outer, _, parent, before, _, direct⟩ := lists.mem_partsOf_parent partAt inner
    exact ⟨outer, before, parent, direct⟩
  case own =>
    exact fun id part partAt inner own => lists.count_flatten_parts formed lengths partAt inner own
  case shared =>
    exact fun id other part piece partAt pieceAt => lists.eq_of_shared partAt pieceAt

/-- After any registrations the layout of every registered class is computed, without coming upon a
cycle, and it has one sub-object for every base clause of each, or shares one. The table of the
classes gives the same layouts. -/
theorem layout_represents {graph : InheritanceGraph} (reachable : Reachable graph) :
    (∀ name, graph.contains name = false ∧
        graph.layout? name = some (.error (.unknownClass name)) ∨
      graph.contains name = true ∧ ∃ layout, graph.layout? name = some (.ok layout) ∧
        layout.Represents graph name) ∧
    ∃ table : ClassTable, table.Reachable ∧ table.graph = graph ∧
      ∀ name, graph.layout? name = some (table.layout name) := by
  obtain ⟨table, tableReachable, rfl⟩ := reachable.exists_table
  have formed := tableReachable.wellFormed
  refine ⟨fun name => ?_, table, tableReachable, rfl, layout?_graph formed⟩
  rw [layout?_graph formed, ClassTable.contains_graph, ClassTable.layout]
  by_cases registered : table.contains name = true
  · rw [if_pos registered]
    exact .inr ⟨registered, _, rfl, layoutOf_represents formed registered⟩
  · rw [if_neg registered]
    exact .inl ⟨by simpa using registered, rfl⟩

theorem layout_represents_mixed :
    ∃ graph layout, graph = (outcome (registerAll ClassTable.mixedBatch) .empty).2 ∧
      Reachable graph ∧ graph.layout? "D" = some (.ok layout) ∧
      layout.subobjects.map Subobject.className = ["D", "B", "A", "C", "E", "A"] ∧
      layout.subobjects.map Subobject.isVirtual = [false, false, true, false, false, false] ∧
      layout.parts = [[1, 3, 4], [2], [], [2], [5], []] ∧ layout.Represents graph "D" ∧
      graph.layout? "F" = some (.error (.unknownClass "F")) := by
  have reachable : Reachable (outcome (registerAll ClassTable.mixedBatch) .empty).2 :=
    .registerAll _ .empty
  have mirrored : (outcome (registerAll ClassTable.mixedBatch) .empty).2 =
      ClassTable.mixed.graph :=
    congrArg Prod.snd (mirrors_registerAll ClassTable.mixedBatch .empty)
  have formed := ClassTable.reachable_mixed.wellFormed
  obtain ⟨layouts, _⟩ := layout_represents reachable
  have registered : ClassTable.mixed.contains "D" = true := by cbv
  have unregistered : ClassTable.mixed.contains "F" = false := by cbv
  rcases layouts "D" with ⟨absent, _⟩ | ⟨_, layout, found, represents⟩
  · rw [mirrored, ClassTable.contains_graph, registered] at absent
    cases absent
  · have computed : ClassTable.mixed.layoutOf "D" = layout := by
      rw [mirrored, layout?_graph formed, Option.some.injEq,
        ClassTable.layout_eq_ok_iff] at found
      exact found.2
    refine ⟨_, layout, rfl, reachable, found, ?_, ?_, ?_, represents, ?_⟩
    · rw [← computed]
      cbv
    · rw [← computed]
      cbv
    · rw [← computed]
      cbv
    · rcases layouts "F" with ⟨_, refused⟩ | ⟨present, _⟩
      · exact refused
      · rw [mirrored, ClassTable.contains_graph, unregistered] at present
        cases present

end InheritanceGraph

end StaticResolution
