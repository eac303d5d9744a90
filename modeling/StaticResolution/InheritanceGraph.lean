import StaticResolution.Lookup

/-!
The store behind a table of classes, in three parts: the classes as nodes in the order of their
registration, an index from names to nodes, and an edge for every base clause. The edges of a node
are not kept in the order of its clauses, so each records the position of its clause. Ancestries and
layouts are walks along the edges, and lookups go to the nodes that a layout refers to.
-/

namespace StaticResolution

structure BaseEdge where
  source : Nat
  target : Nat
  isVirtual : Bool
  position : Nat
deriving DecidableEq

namespace BaseEdge

def entry (edge : BaseEdge) : BaseEntry :=
  { index := edge.target, isVirtual := edge.isVirtual, position := edge.position }

def inClauseOrder (edges : List BaseEdge) : List BaseEdge :=
  edges.mergeSort fun early late => decide (early.position ≤ late.position)

end BaseEdge

structure InheritanceGraph where
  nodes : List ClassDef
  index : List (String × Nat)
  edges : List BaseEdge
deriving DecidableEq

namespace InheritanceGraph

def empty : InheritanceGraph :=
  { nodes := [], index := [], edges := [] }

def size (graph : InheritanceGraph) : Nat :=
  graph.nodes.length

def index? (graph : InheritanceGraph) (name : String) : Option Nat :=
  graph.index.lookup name

def contains (graph : InheritanceGraph) (name : String) : Bool :=
  (graph.index? name).isSome

def find? (graph : InheritanceGraph) (name : String) : Option ClassDef :=
  (graph.index? name).bind fun node => graph.nodes[node]?

def edgesFrom (graph : InheritanceGraph) (node : Nat) : List BaseEdge :=
  (graph.edges.filter fun edge => edge.source == node).reverse

def basesAt (graph : InheritanceGraph) (node : Nat) : List BaseEntry :=
  (BaseEdge.inClauseOrder (graph.edgesFrom node)).map BaseEdge.entry

/-- An edge from the next node for every base clause, unless one names no class of the graph. -/
def edgesOf (graph : InheritanceGraph) (decl : ClassDef) :
    Except RegistrationError (List BaseEdge) :=
  decl.bases.zipIdx.mapM fun (base, position) =>
    match graph.index? base.name with
    | some target => .ok ⟨graph.size, target, base.isVirtual, position⟩
    | none => .error (.unknownBase decl.name base.name)

def add (graph : InheritanceGraph) (decl : ClassDef) (edges : List BaseEdge) : InheritanceGraph :=
  { nodes := graph.nodes ++ [decl]
    index := graph.index ++ [(decl.name, graph.size)]
    edges := graph.edges ++ edges }

def register (decl : ClassDef) : Registration InheritanceGraph Nat := do
  let graph ← get
  if graph.contains decl.name then throw (.duplicateClass decl.name)
  if let some fault := decl.duplicateBase? then throw fault
  match graph.edgesOf decl with
  | .error fault => throw fault
  | .ok edges =>
      set (graph.add decl edges)
      return graph.size

def registerAll (batch : List ClassDef) : Registration InheritanceGraph (List Nat) := do
  let graph ← get
  if let some fault := duplicateAmong? graph.contains [] batch then throw fault
  if let some fault := unknownBaseAmong? graph.contains batch then throw fault
  match basesFirst batch with
  | .error fault => throw fault
  | .ok sorted => sorted.mapM register

end InheritanceGraph

/-- What a walk has found so far, and the nodes that it has left for good. -/
structure AncestryWalk where
  found : Ancestry
  finished : List Nat := []
deriving DecidableEq

namespace AncestryWalk

def addLink (walk : AncestryWalk) (link : Link) : AncestryWalk :=
  { walk with found := walk.found.addLink link }

def addAncestor (walk : AncestryWalk) (name : String) : AncestryWalk :=
  { walk with found := walk.found.addAncestor name }

def finish (walk : AncestryWalk) (node : Nat) : AncestryWalk :=
  { walk with finished := walk.finished ++ [node] }

end AncestryWalk

namespace InheritanceGraph

def unvisited (graph : InheritanceGraph) (path : List Nat) : Nat :=
  ((List.range graph.size).filter fun node => node ∉ path).length

theorem unvisited_lt (graph : InheritanceGraph) {path : List Nat} {node : Nat} {decl : ClassDef}
    (here : graph.nodes[node]? = some decl) (fresh : node ∉ path) :
    graph.unvisited (path ++ [node]) < graph.unvisited path := by
  have bound : node < graph.size := (List.getElem?_eq_some_iff.mp here).1
  have fewer : (List.range graph.size).filter (fun other => other ∉ path ++ [node]) =
      ((List.range graph.size).filter fun other => other ∉ path).filter fun other =>
        other ≠ node := by
    rw [List.filter_filter]
    congr 1
    funext other
    by_cases reached : other ∈ path <;> simp [reached]
  rw [unvisited, unvisited, fewer, List.length_filter_lt_length_iff_exists]
  exact ⟨node, by simp [bound, fresh], by simp⟩

def namesOf (graph : InheritanceGraph) (nodes : List Nat) : List String :=
  nodes.filterMap fun node => (graph.nodes[node]?).map ClassDef.name

/-- Adds what can be reached from the last node of the path. Every edge of the node gives a link,
and the walk goes on where it has not been before. -/
def walkFrom (graph : InheritanceGraph) (path : List Nat) (walk : AncestryWalk) (node : Nat)
    (name : String) : Except QueryError AncestryWalk := do
  let walk ← (graph.basesAt node).foldlM
    (fun walk base =>
      match _ : graph.nodes[base.index]? with
      | none => .ok walk
      | some owner =>
          let linked := walk.addLink ⟨name, owner.name, base.isVirtual⟩
          if base.index ∈ path then
            let cycle := path.dropWhile (fun step => step ≠ base.index) ++ [base.index]
            .error (.cyclicInheritance (graph.namesOf cycle))
          else if base.index ∈ walk.finished then .ok linked
          else graph.walkFrom (path ++ [base.index]) (linked.addAncestor owner.name) base.index
            owner.name)
    walk
  return walk.finish node
termination_by graph.unvisited path
decreasing_by exact graph.unvisited_lt (by assumption) (by assumption)

def ancestry (graph : InheritanceGraph) (name : String) : Except QueryError Ancestry :=
  match graph.index? name with
  | none => .error (.unknownClass name)
  | some node => do
      let walk ← graph.walkFrom [node] { found := { root := name } } node name
      return walk.found

def isBaseOf (graph : InheritanceGraph) (ancestor derived : String) : Except QueryError Bool := do
  return (← graph.ancestry derived).contains ancestor

end InheritanceGraph

/-- What a walk has placed so far: the sub-objects, the ids of the direct bases of each as far as
its edges have been walked, and the shared sub-object of each node that has one. -/
structure LayoutBuilder where
  subobjects : List Subobject := []
  parts : List (List Nat) := []
  shared : List (Nat × Nat) := []
deriving DecidableEq

namespace LayoutBuilder

def size (builder : LayoutBuilder) : Nat :=
  builder.subobjects.length

def depthBelow? (builder : LayoutBuilder) : Option Nat → Option Nat
  | none => some 0
  | some outer => (builder.subobjects[outer]?).map fun around => around.depth + 1

def add (builder : LayoutBuilder) (part : Subobject) : LayoutBuilder :=
  { builder with
    subobjects := builder.subobjects ++ [part]
    parts := builder.parts ++ [[]] }

def link (builder : LayoutBuilder) (outer inner : Nat) : LayoutBuilder :=
  { builder with parts := builder.parts.modify outer fun inside => inside ++ [inner] }

def shared? (builder : LayoutBuilder) (base : BaseEntry) : Option Nat :=
  if base.isVirtual then builder.shared.lookup base.index else none

def share (builder : LayoutBuilder) (base : BaseEntry) (id : Nat) : LayoutBuilder :=
  if base.isVirtual then { builder with shared := builder.shared ++ [(base.index, id)] }
  else builder

def measured (builder : LayoutBuilder) : List Subobject :=
  let depths := depthsFrom (fun id => builder.parts.getD id []) builder.size
  builder.subobjects.mapIdx fun id part => { part with depth := DepthSearch.depthOf depths id }

def finish? (builder : LayoutBuilder) : Option Layout :=
  match builder.measured with
  | [] => none
  | complete :: bases => some { complete := complete, bases := bases, parts := builder.parts }

end LayoutBuilder

def Subobject.inIdOrder (parts : List Subobject) : List Subobject :=
  parts.mergeSort fun early late => decide (early.id ≤ late.id)

namespace InheritanceGraph

def place? (graph : InheritanceGraph) (builder : LayoutBuilder) (node : Nat) (isVirtual : Bool)
    (parent : Option Nat) : Option LayoutBuilder := do
  let decl ← graph.nodes[node]?
  let depth ← builder.depthBelow? parent
  return builder.add
    { id := builder.size
      className := decl.name
      classIndex := node
      isVirtual := isVirtual
      parent := parent
      depth := depth }

/-- Walks the edges of a node for one sub-object of its class. There is no result if an edge leads
nowhere, or if the walk never ends. -/
def expand? (graph : InheritanceGraph) (builder : LayoutBuilder) (outer node : Nat) :
    Option LayoutBuilder :=
  (graph.basesAt node).foldlM
    (fun builder base =>
      match builder.shared? base with
      | some inner => some (builder.link outer inner)
      | none => do
          let placed ← graph.place? builder base.index base.isVirtual (some outer)
          graph |>.expand? ((placed.share base builder.size).link outer builder.size) builder.size
            base.index)
    builder
partial_fixpoint

def layout? (graph : InheritanceGraph) (name : String) : Option (Except QueryError Layout) :=
  match graph.ancestry name, graph.index? name with
  | .error fault, _ => some (.error fault)
  | .ok _, none => some (.error (.unknownClass name))
  | .ok _, some root => do
      let start ← graph.place? {} root false none
      let built ← graph.expand? start 0 root
      return .ok (← built.finish?)

def declaring? (graph : InheritanceGraph) (member : String) :
    List Subobject → Option (List Subobject)
  | [] => some []
  | part :: rest => do
      let decl ← graph.nodes[part.classIndex]?
      let later ← graph.declaring? member rest
      return if decl.declares member then part :: later else later

def declaringWithin? (graph : InheritanceGraph) (layout : Layout) (scope : List Nat)
    (member : String) : Option (List Subobject) :=
  (graph.declaring? member (scope.filterMap layout.get?)).map Subobject.inIdOrder

def lookup? (graph : InheritanceGraph) (layout : Layout) (member : String) :
    Option (Except QueryError (Verdict MemberSite)) :=
  (graph.declaringWithin? layout (List.range layout.size) member).map
    (layout.verdictAmong member)

def lookupIn? (graph : InheritanceGraph) (layout : Layout) (qualifier member : String) :
    Option (Except QueryError (Verdict MemberSite)) :=
  match layout.ofClass qualifier with
  | [] => some (.error (.notABase layout.className qualifier))
  | start :: _ =>
      (graph.declaringWithin? layout (layout.within start.id) member).map
        (layout.choiceAmong qualifier member)

end InheritanceGraph

end StaticResolution
