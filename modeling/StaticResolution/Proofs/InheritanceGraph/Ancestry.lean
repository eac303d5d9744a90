import StaticResolution.Proofs.ClassTable.Inheritance
import StaticResolution.Proofs.InheritanceGraph.Refinement

/-!
The ancestry of a class tells what the edges of the graph tell: its ancestors are the classes that
ways along the edges lead to, and its links are the edges on such ways. Edges lead to nodes of lower
numbers only, so that none leads back to the way which the walk has come.
-/

namespace StaticResolution

def ClassTable.entryFor (table : ClassTable) (clause : Base × Nat) : BaseEntry :=
  { index := table.rank clause.1.name, isVirtual := clause.1.isVirtual, position := clause.2 }

/-- A walk knows the classes on its way and those it is done with as met, and no others. -/
structure AncestryWalk.Tracks (table : ClassTable) (path : List Nat) (walk : AncestryWalk) :
    Prop where
  start : ∃ place ∈ path, ∃ decl, table.at? place = some decl ∧ decl.name = walk.found.root
  met : ∀ place decl, table.at? place = some decl →
    (decl.name ∈ walk.found.root :: walk.found.ancestors ↔ place ∈ path ∨ place ∈ walk.finished)

namespace AncestryWalk.Tracks

variable {table : ClassTable} {path : List Nat} {walk after : AncestryWalk} {node : Nat}

theorem initial (formed : table.WellFormed) {decl : ClassDef} (here : table.at? node = some decl) :
    AncestryWalk.Tracks table [node] { found := { root := decl.name } } := by
  refine ⟨⟨node, by simp, decl, here, rfl⟩, fun place other there => ?_⟩
  simpa using formed.name_eq_iff there here

theorem addLink (tracks : walk.Tracks table path) (link : Link) :
    (walk.addLink link).Tracks table path :=
  ⟨tracks.start, tracks.met⟩

theorem enter (tracks : walk.Tracks table path) (formed : table.WellFormed)
    {decl : ClassDef} (here : table.at? node = some decl) :
    (walk.addAncestor decl.name).Tracks table (path ++ [node]) := by
  constructor
  · obtain ⟨place, onPath, start⟩ := tracks.start
    exact ⟨place, List.mem_append_left _ onPath, start⟩
  · intro place other there
    have old := tracks.met place other there
    simp only [addAncestor, Ancestry.addAncestor, List.mem_cons, List.mem_append,
      List.not_mem_nil, or_false, formed.name_eq_iff there here] at old ⊢
    rw [← or_assoc, old]
    tauto

theorem leave (entered : after.Tracks table (path ++ [node])) (tracks : walk.Tracks table path)
    (root : after.found.root = walk.found.root) (finished : node ∈ after.finished) :
    after.Tracks table path := by
  constructor
  · rw [root]
    exact tracks.start
  · intro place other there
    rw [entered.met place other there, List.mem_append, List.mem_singleton]
    constructor
    · rintro ((onPath | rfl) | done)
      · exact .inl onPath
      · exact .inr finished
      · exact .inr done
    · rintro (onPath | done)
      · exact .inl (.inl onPath)
      · exact .inr done

theorem finish (tracks : walk.Tracks table path) (onPath : node ∈ path) :
    (walk.finish node).Tracks table path := by
  refine ⟨tracks.start, fun place decl here => (tracks.met place decl here).trans ?_⟩
  simp only [AncestryWalk.finish, List.mem_append, List.mem_singleton]
  constructor
  · rintro (before | done)
    · exact .inl before
    · exact .inr (.inl done)
  · rintro (before | done | rfl)
    · exact .inl before
    · exact .inr done
    · exact .inl onPath

end AncestryWalk.Tracks

namespace InheritanceGraph

def walkOver (graph : InheritanceGraph) (path : List Nat) (name : String) (walk : AncestryWalk)
    (base : BaseEntry) : Except QueryError AncestryWalk :=
  match graph.nodes[base.index]? with
  | none => .ok walk
  | some owner =>
      let linked := walk.addLink ⟨name, owner.name, base.isVirtual⟩
      if base.index ∈ path then
        let cycle := path.dropWhile (fun step => step ≠ base.index) ++ [base.index]
        .error (.cyclicInheritance (graph.namesOf cycle))
      else if base.index ∈ walk.finished then .ok linked
      else graph.walkFrom (path ++ [base.index]) (linked.addAncestor owner.name) base.index
        owner.name

theorem walkFrom_eq (graph : InheritanceGraph) (path : List Nat) (walk : AncestryWalk) (node : Nat)
    (name : String) : graph.walkFrom path walk node name =
      ((graph.basesAt node).foldlM (graph.walkOver path name) walk).map fun walk =>
        walk.finish node := by
  rw [walkFrom]
  congr 2
  funext walk base
  unfold walkOver
  split
  next missing => rw [missing]
  next owner here => rw [here]

section Over

variable {graph : InheritanceGraph} {path : List Nat} {name : String} {walk : AncestryWalk}
  {base : BaseEntry} {owner : ClassDef}

theorem walkOver_of_finished (here : graph.nodes[base.index]? = some owner)
    (offPath : base.index ∉ path) (finished : base.index ∈ walk.finished) :
    graph.walkOver path name walk base =
      .ok (walk.addLink ⟨name, owner.name, base.isVirtual⟩) := by
  rw [walkOver, here]
  simp only [offPath, finished, if_true, if_false]

theorem walkOver_of_fresh (here : graph.nodes[base.index]? = some owner)
    (offPath : base.index ∉ path) (fresh : base.index ∉ walk.finished) :
    graph.walkOver path name walk base =
      graph.walkFrom (path ++ [base.index])
        ((walk.addLink ⟨name, owner.name, base.isVirtual⟩).addAncestor owner.name) base.index
        owner.name := by
  rw [walkOver, here]
  simp only [offPath, fresh, if_false]

end Over

variable {table : ClassTable} {path : List Nat} {walk : AncestryWalk}

theorem basesAt_of_at? {node : Nat} {decl : ClassDef} (here : table.at? node = some decl) :
    table.graph.basesAt node = decl.bases.zipIdx.map table.entryFor := by
  rw [ClassTable.basesAt_graph, ClassTable.basesAt, here]
  exact List.mapIdx_eq_zipIdx_map

/-- From the node the walk finds what a climb from the class finds. -/
def ClimbsFrom (table : ClassTable) (node : Nat) : Prop :=
  ∀ {decl path walk}, table.at? node = some decl → node ∈ path → (∀ place ∈ path, node ≤ place) →
    walk.Tracks table path → ∃ after, table.graph.walkFrom path walk node decl.name = .ok after ∧
      after.found = table.climb walk.found decl.name ∧ node ∈ after.finished ∧
      after.Tracks table path

section Clauses

variable (formed : table.WellFormed) {node : Nat} {decl : ClassDef}
  (here : table.at? node = some decl) (above : ∀ place ∈ path, node ≤ place)

include formed here above

theorem walkOver_graph {base : Base} {position : Nat} (clause : base ∈ decl.bases)
    (tracks : walk.Tracks table path) (further : ClimbsFrom table (table.rank base.name)) :
    ∃ after,
      table.graph.walkOver path decl.name walk (table.entryFor (base, position)) = .ok after ∧
      after.found = table.climbOver decl.name walk.found base ∧ after.Tracks table path := by
  obtain ⟨owner, ownerAt, named⟩ := ClassTable.exists_at?
    (ClassTable.contains_of_mem_bases (List.mem_of_getElem? here) clause)
  have lower := ClassTable.rank_lt_place here clause
  have offPath : table.rank base.name ∉ path := by
    intro back
    have around := above _ back
    omega
  obtain ⟨start, startOnPath, first, startAt, startNamed⟩ := tracks.start
  have notRoot : owner.name ≠ walk.found.root := by
    intro same
    rw [← startNamed] at same
    exact offPath ((formed.name_eq_iff ownerAt startAt).mp same ▸ startOnPath)
  have known : walk.found.contains base.name = true ↔ table.rank base.name ∈ walk.finished := by
    have met := tracks.met _ owner ownerAt
    rw [named] at met notRoot
    simpa [notRoot, offPath, Ancestry.contains] using met
  by_cases finished : table.rank base.name ∈ walk.finished
  · refine ⟨_, walkOver_of_finished ownerAt offPath finished, ?_, tracks.addLink _⟩
    rw [ClassTable.climbOver, if_pos (known.mpr finished), named]
    rfl
  · have entered := (tracks.addLink ⟨decl.name, owner.name, base.isVirtual⟩).enter formed ownerAt
    obtain ⟨after, walked, found, done, kept⟩ := further ownerAt (by simp) (by
      intro place onPath
      rcases List.mem_append.mp onPath with outer | last
      · have around := above place outer
        omega
      · exact Nat.le_of_eq (List.mem_singleton.mp last).symm) entered
    refine ⟨after, Eq.trans (walkOver_of_fresh ownerAt offPath finished) walked, ?_,
      kept.leave tracks ?_ done⟩
    · rw [found, ClassTable.climbOver, if_neg (mt known.mp finished), named]
      rfl
    · rw [found, ClassTable.climb_root]
      rfl

theorem foldlM_walkOver (further : ∀ below < node, ClimbsFrom table below)
    (clauses : List (Base × Nat)) (listed : ∀ clause ∈ clauses, clause.1 ∈ decl.bases)
    (tracks : walk.Tracks table path) :
    ∃ after, (clauses.map table.entryFor).foldlM (table.graph.walkOver path decl.name) walk =
        .ok after ∧
      after.found = (clauses.map Prod.fst).foldl (table.climbOver decl.name) walk.found ∧
      after.Tracks table path := by
  induction clauses generalizing walk with
  | nil => exact ⟨walk, rfl, rfl, tracks⟩
  | cons clause rest ih =>
      obtain ⟨first, later⟩ := List.forall_mem_cons.mp listed
      obtain ⟨middle, stepped, middleFound, middleTracks⟩ := walkOver_graph formed here above first
        tracks (further _ (ClassTable.rank_lt_place here first))
      obtain ⟨after, walked, found, kept⟩ := ih later middleTracks
      refine ⟨after, ?_, ?_, kept⟩
      · rw [List.map_cons, List.foldlM_cons, stepped]
        exact walked
      · rw [found, middleFound]
        rfl

end Clauses

theorem climbsFrom (formed : table.WellFormed) (node : Nat) : ClimbsFrom table node := by
  induction node using Nat.strong_induction_on with
  | _ node ih =>
      intro decl path walk here onPath above tracks
      obtain ⟨after, walked, found, kept⟩ := foldlM_walkOver formed here above ih decl.bases.zipIdx
        (fun _ listed => List.fst_mem_of_mem_zipIdx listed) tracks
      rw [List.zipIdx_map_fst] at found
      refine ⟨after.finish node, ?_, ?_, by simp [AncestryWalk.finish], kept.finish onPath⟩
      · rw [walkFrom_eq, basesAt_of_at? here, walked]
        rfl
      · rw [ClassTable.climb_eq_foldl, ClassTable.basesOf_of_at? formed here]
        exact found

theorem ancestry_graph (formed : table.WellFormed) : table.graph.ancestry = table.ancestry := by
  funext name
  rw [ancestry, ClassTable.ancestry, ClassTable.index?_graph]
  by_cases registered : table.contains name = true
  · obtain ⟨decl, here, rfl⟩ := ClassTable.exists_at? registered
    obtain ⟨after, walked, found, _⟩ :=
      climbsFrom formed _ here (by simp) (by simp) (.initial formed here)
    rw [if_pos registered, ClassTable.index?_of_contains registered]
    simp only [walked]
    exact congrArg Except.ok found
  · rw [if_neg registered, ClassTable.index?_of_not_contains (by simpa using registered)]

theorem isBaseOf_graph (formed : table.WellFormed) : table.graph.isBaseOf = table.isBaseOf := by
  funext ancestor derived
  rw [isBaseOf, ClassTable.isBaseOf, ancestry_graph formed]

end InheritanceGraph

namespace InheritanceGraph

def linkOf? (graph : InheritanceGraph) (edge : BaseEdge) : Option Link := do
  let derived ← graph.nodes[edge.source]?
  let base ← graph.nodes[edge.target]?
  return ⟨derived.name, base.name, edge.isVirtual⟩

def Links (graph : InheritanceGraph) (link : Link) : Prop :=
  ∃ edge ∈ graph.edges, graph.linkOf? edge = some link

def HasBase (graph : InheritanceGraph) (derived base : String) : Prop :=
  ∃ isVirtual, graph.Links ⟨derived, base, isVirtual⟩

/-- The ancestry lists the classes that one or more edges lead to, and the edges that leave the
class or one of those, all of them once. -/
structure ListsAncestry (graph : InheritanceGraph) (name : String) (ancestry : Ancestry) :
    Prop where
  root : ancestry.root = name
  distinctAncestors : ancestry.ancestors.Nodup
  ancestors : ∀ other, other ∈ ancestry.ancestors ↔ Relation.TransGen graph.HasBase name other
  proper : name ∉ ancestry.ancestors
  distinctLinks : ancestry.links.Nodup
  links : ∀ link, link ∈ ancestry.links ↔
    link.derived ∈ name :: ancestry.ancestors ∧ graph.Links link
  clauseOrder : ∀ decl ∈ graph.nodes, decl.name ∈ name :: ancestry.ancestors →
    ancestry.linksFrom decl.name = decl.bases.map (Base.linkFrom decl.name)
  inOrder : ancestry.MeetsInOrder

variable {table : ClassTable}

theorem links_graph_iff (formed : table.WellFormed) {link : Link} :
    table.graph.Links link ↔
      ∃ base ∈ table.basesOf link.derived, base.linkFrom link.derived = link := by
  have linkOf : ∀ {place decl base position}, table.at? place = some decl → base ∈ decl.bases →
      table.graph.linkOf? ⟨place, table.rank base.name, base.isVirtual, position⟩ =
        some (base.linkFrom decl.name) := by
    intro place decl base position here clause
    obtain ⟨owner, ownerAt, named⟩ := ClassTable.exists_at?
      (ClassTable.contains_of_mem_bases (List.mem_of_getElem? here) clause)
    have source : table.graph.nodes[place]? = some decl := here
    have target : table.graph.nodes[table.rank base.name]? = some owner := ownerAt
    simp [linkOf?, source, target, named, Base.linkFrom]
  constructor
  · rintro ⟨edge, listed, linked⟩
    obtain ⟨decl, here, inside⟩ := ClassTable.mem_edges_graph listed
    obtain ⟨⟨base, position⟩, clause, same⟩ := List.mem_map.mp inside
    have inBases := List.fst_mem_of_mem_zipIdx clause
    rw [← same, linkOf here inBases, Option.some.injEq] at linked
    subst linked
    refine ⟨base, ?_, rfl⟩
    change base ∈ table.basesOf decl.name
    rwa [ClassTable.basesOf_of_at? formed here]
  · rintro ⟨base, clause, same⟩
    obtain ⟨place, decl, here, named, inBases⟩ := ClassTable.exists_at?_of_mem_basesOf clause
    obtain ⟨position, clauseAt⟩ := List.mem_iff_getElem?.mp inBases
    have edge : ⟨place, table.rank base.name, base.isVirtual, position⟩ ∈
        table.edgesAt place decl :=
      List.mem_map.mpr ⟨(base, position), List.mem_zipIdx_iff_getElem?.mpr clauseAt, rfl⟩
    obtain ⟨bound, rfl⟩ := List.getElem?_eq_some_iff.mp here
    refine ⟨_, List.mem_flatten.mpr ⟨_, List.mem_mapIdx.mpr ⟨place, bound, rfl⟩, edge⟩, ?_⟩
    rw [linkOf here inBases, ← same, ← named]

theorem hasBase_graph (formed : table.WellFormed) :
    table.graph.HasBase = fun derived base => base ∈ table.inheritance.next derived := by
  funext derived base
  apply propext
  simp only [HasBase, links_graph_iff formed]
  constructor
  · rintro ⟨isVirtual, clause, listed, same⟩
    exact List.mem_map.mpr ⟨clause, listed, congrArg Link.base same⟩
  · intro below
    obtain ⟨clause, listed, rfl⟩ := List.mem_map.mp below
    exact ⟨clause.isVirtual, clause, listed, rfl⟩

theorem rank_lt_of_transGen (formed : table.WellFormed) {derived base : String}
    (way : Relation.TransGen table.graph.HasBase derived base) :
    table.rank base < table.rank derived := by
  rw [hasBase_graph formed] at way
  induction way with
  | single step => exact table.inheritance.rank_lt step
  | tail _ step ih => exact Nat.lt_trans (table.inheritance.rank_lt step) ih

theorem listsAncestry_graph (formed : table.WellFormed) {name : String} {ancestry : Ancestry}
    (climbed : table.ancestry name = .ok ancestry) : table.graph.ListsAncestry name ancestry := by
  have climbs := ClassTable.climbs_ancestry climbed
  have distinct := List.nodup_cons.mp (ClassTable.nodup_ancestry climbed)
  have reached : ∀ other, other ∈ name :: ancestry.ancestors ↔ table.Inherits name other :=
    fun _ => ClassTable.mem_ancestry_iff climbed
  constructor
  case root => exact ClassTable.root_ancestry climbed
  case distinctAncestors => exact distinct.2
  case ancestors =>
    intro other
    have back : ¬ Relation.TransGen table.graph.HasBase name name := fun way =>
      Nat.lt_irrefl _ (rank_lt_of_transGen formed way)
    have inherits := reached other
    rw [ClassTable.Inherits, Descent.Reaches, ← hasBase_graph formed,
      Relation.reflTransGen_iff_eq_or_transGen, List.mem_cons] at inherits
    by_cases same : other = name
    · simp [same, distinct.1, back]
    · simpa [same] using inherits
  case proper => exact distinct.1
  case distinctLinks => exact ClassTable.nodup_links formed climbed
  case links =>
    intro link
    rw [ClassTable.mem_links_iff climbed, reached, links_graph_iff formed]
    rfl
  case clauseOrder =>
    intro decl listed inside
    obtain ⟨place, here⟩ := List.mem_iff_getElem?.mp listed
    rw [ClassTable.linksFrom_ancestry climbed ((reached _).mp inside), ClassTable.linksAt,
      ClassTable.basesOf_of_at? formed here]
  case inOrder => exact climbs.inOrder rfl

theorem contains_of_hasBase (formed : table.WellFormed) {derived base : String}
    (step : table.graph.HasBase derived base) :
    table.graph.contains derived = true ∧ table.graph.contains base = true := by
  rw [hasBase_graph formed] at step
  obtain ⟨clause, listed, rfl⟩ := List.mem_map.mp step
  obtain ⟨place, decl, here, rfl, _⟩ := ClassTable.exists_at?_of_mem_basesOf listed
  rw [ClassTable.contains_graph]
  refine ⟨?_, ClassTable.contains_of_mem_basesOf listed⟩
  rw [ClassTable.contains_iff_mem]
  exact List.mem_map_of_mem (List.mem_of_getElem? here)

theorem isBaseOf_eq_of_contains (formed : table.WellFormed) {derived : String}
    (registered : table.graph.contains derived = true) (other : String) :
    ∃ answer, table.graph.isBaseOf other derived = .ok answer ∧
      (answer = true ↔ Relation.TransGen table.graph.HasBase derived other) := by
  rw [ClassTable.contains_graph] at registered
  obtain ⟨ancestry, climbed, _⟩ := ClassTable.ancestry_eq registered
  refine ⟨ancestry.contains other, ?_, ?_⟩
  · rw [isBaseOf, ancestry_graph formed, climbed]
    rfl
  · rw [Ancestry.contains, List.contains_iff_mem]
    exact (listsAncestry_graph formed climbed).ancestors other

theorem isBaseOf_eq_true_iff (formed : table.WellFormed) {other derived : String} :
    table.graph.isBaseOf other derived = .ok true ↔
      Relation.TransGen table.graph.HasBase derived other := by
  by_cases registered : table.graph.contains derived = true
  · obtain ⟨answer, answered, holds⟩ := isBaseOf_eq_of_contains formed registered other
    rw [answered, Except.ok.injEq, holds]
  · have refused : table.graph.isBaseOf other derived = .error (.unknownClass derived) := by
      rw [ClassTable.contains_graph] at registered
      rw [isBaseOf, ancestry_graph formed, ClassTable.ancestry, if_neg registered]
      rfl
    rw [refused]
    constructor
    · intro answered
      cases answered
    · intro way
      obtain ⟨_, step, _⟩ := Relation.TransGen.head'_iff.mp way
      exact absurd (contains_of_hasBase formed step).1 registered

/-- After any registrations every registered class has an ancestry, which lists just what the edges
of the graph lead to, and a class is a base of another one along a strict order. -/
theorem ancestry_exact {graph : InheritanceGraph} (reachable : Reachable graph) :
    (∀ name, graph.contains name = false ∧ graph.ancestry name = .error (.unknownClass name) ∨
      graph.contains name = true ∧ ∃ ancestry, graph.ancestry name = .ok ancestry ∧
        graph.ListsAncestry name ancestry) ∧
    (∀ name, graph.contains name = true → graph.isBaseOf name name = .ok false) ∧
    (∀ low middle high, graph.isBaseOf middle low = .ok true →
      graph.isBaseOf high middle = .ok true → graph.isBaseOf high low = .ok true) ∧
    (∀ low high, graph.isBaseOf high low = .ok true → graph.isBaseOf low high = .ok false) ∧
    ∃ table : ClassTable, table.Reachable ∧ table.graph = graph ∧
      table.ancestry = graph.ancestry ∧ table.isBaseOf = graph.isBaseOf := by
  obtain ⟨table, tableReachable, rfl⟩ := reachable.exists_table
  have formed := tableReachable.wellFormed
  have refuses : ∀ {low high}, table.graph.contains low = true →
      ¬ Relation.TransGen table.graph.HasBase low high →
      table.graph.isBaseOf high low = .ok false := by
    intro low high registered none
    obtain ⟨answer, answered, holds⟩ := isBaseOf_eq_of_contains formed registered high
    rw [answered, Bool.eq_false_iff.mpr (mt holds.mp none)]
  have proper : ∀ name, ¬ Relation.TransGen table.graph.HasBase name name := fun name way =>
    Nat.lt_irrefl _ (rank_lt_of_transGen formed way)
  refine ⟨?_, fun name registered => refuses registered (proper name), ?_, ?_, table,
    tableReachable, rfl, (ancestry_graph formed).symm, (isBaseOf_graph formed).symm⟩
  · intro name
    rw [ancestry_graph formed, ClassTable.contains_graph]
    by_cases registered : table.contains name = true
    · obtain ⟨ancestry, climbed, _⟩ := ClassTable.ancestry_eq registered
      exact .inr ⟨registered, ancestry, climbed, listsAncestry_graph formed climbed⟩
    · exact .inl ⟨by simpa using registered, by rw [ClassTable.ancestry, if_neg registered]⟩
  · intro low middle high first second
    rw [isBaseOf_eq_true_iff formed] at first second ⊢
    exact first.trans second
  · intro low high holds
    rw [isBaseOf_eq_true_iff formed] at holds
    obtain ⟨_, _, step⟩ := Relation.TransGen.tail'_iff.mp holds
    exact refuses (contains_of_hasBase formed step).2 fun back => proper low (holds.trans back)

theorem ancestry_exact_mixed :
    ∃ graph, graph = (outcome (registerAll ClassTable.mixedBatch) .empty).2 ∧ Reachable graph ∧
      (∃ ancestry, graph.ancestry "D" = .ok ancestry ∧
        ancestry.ancestors = ["B", "A", "C", "E"] ∧
        ancestry.links = [⟨"D", "B", false⟩, ⟨"B", "A", true⟩, ⟨"D", "C", false⟩,
          ⟨"C", "A", true⟩, ⟨"D", "E", false⟩, ⟨"E", "A", false⟩] ∧
        graph.ListsAncestry "D" ancestry) ∧
      graph.ancestry "F" = .error (.unknownClass "F") ∧
      graph.isBaseOf "A" "D" = .ok true ∧ graph.isBaseOf "D" "A" = .ok false := by
  have reachable : Reachable (outcome (registerAll ClassTable.mixedBatch) .empty).2 :=
    .registerAll _ .empty
  obtain ⟨lists, _, _, asymmetric, _⟩ := ancestry_exact reachable
  have climbed : (outcome (registerAll ClassTable.mixedBatch) .empty).2.ancestry "D" = .ok
      { root := "D"
        links := [⟨"D", "B", false⟩, ⟨"B", "A", true⟩, ⟨"D", "C", false⟩, ⟨"C", "A", true⟩,
          ⟨"D", "E", false⟩, ⟨"E", "A", false⟩]
        ancestors := ["B", "A", "C", "E"] } := by cbv
  have isBase : (outcome (registerAll ClassTable.mixedBatch) .empty).2.isBaseOf "A" "D" =
      .ok true := by
    rw [isBaseOf, climbed]
    rfl
  refine ⟨_, rfl, reachable, ⟨_, climbed, rfl, rfl, ?_⟩, by cbv, isBase, asymmetric _ _ isBase⟩
  rcases lists "D" with ⟨_, refused⟩ | ⟨_, ancestry, found, listed⟩
  · cases refused.symm.trans climbed
  · cases found.symm.trans climbed
    exact listed

end InheritanceGraph

end StaticResolution
