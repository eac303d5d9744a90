import StaticResolution.ClassTable

/-!
The layout of an object: all sub-objects it consists of, numbered in the order of a walk that takes
the bases of each class from left to right. Number zero is the complete object, and all clauses for
a virtual base share one sub-object.
-/

namespace StaticResolution

/-- A search on its way. An id that has not been reached has no depth yet. -/
structure DepthSearch where
  depths : List (Option Nat)
  queue : List Nat
deriving DecidableEq

namespace DepthSearch

def start (count : Nat) : DepthSearch :=
  { depths := (List.replicate count none).set 0 (some 0), queue := [0] }

def depthOf (depths : List (Option Nat)) (id : Nat) : Nat :=
  (depths.getD id none).getD depths.length

def reach (search : DepthSearch) (depth id : Nat) : DepthSearch :=
  if search.depths[id]? = some none then
    { depths := search.depths.set id (some depth), queue := search.queue ++ [id] }
  else search

def reachAll (search : DepthSearch) (depth : Nat) (ids : List Nat) : DepthSearch :=
  ids.foldl (fun search id => search.reach depth id) search

/-- A bound on the steps that are left: every id is queued once. -/
def pending (search : DepthSearch) : Nat :=
  search.depths.countP Option.isNone + search.queue.length

theorem pending_reach (search : DepthSearch) (depth id : Nat) :
    (search.reach depth id).pending = search.pending := by
  unfold reach
  split
  next fresh =>
    obtain ⟨bound, unknown⟩ := List.getElem?_eq_some_iff.mp fresh
    have counted : 0 < search.depths.countP Option.isNone :=
      List.countP_pos_iff.mpr ⟨none, unknown ▸ List.getElem_mem bound, rfl⟩
    simp only [pending, List.countP_set bound, unknown, Option.isNone_none, Option.isNone_some,
      List.length_append, List.length_singleton, if_true, Bool.false_eq_true, if_false]
    omega
  next => rfl

theorem pending_reachAll (search : DepthSearch) (depth : Nat) (ids : List Nat) :
    (search.reachAll depth ids).pending = search.pending := by
  induction ids generalizing search with
  | nil => rfl
  | cons id rest ih => exact (ih (search.reach depth id)).trans (search.pending_reach depth id)

/-- Takes ids from the queue and reaches their parts, one step deeper, until none is left. -/
def run (parts : Nat → List Nat) : DepthSearch → List (Option Nat)
  | ⟨depths, []⟩ => depths
  | ⟨depths, id :: rest⟩ =>
      run parts (reachAll ⟨depths, rest⟩ (depthOf depths id + 1) (parts id))
termination_by search => search.pending
decreasing_by
  rw [pending_reachAll]
  simp [pending]

end DepthSearch

def depthsFrom (parts : Nat → List Nat) (count : Nat) : List (Option Nat) :=
  DepthSearch.run parts (.start count)

/-- A sub-object other than the complete one. The parent is the sub-object that led to it first. -/
structure Placed where
  className : String
  isVirtual : Bool
  parent : Nat
deriving DecidableEq

/-- The complete object has id zero and the others follow in the order of their placing. For each
sub-object `parts` holds the ids of its direct bases, as far as they have been walked. -/
structure Draft where
  bases : List Placed := []
  parts : List (List Nat) := [[]]
  shared : List (String × Nat) := []
deriving DecidableEq

namespace Draft

def size (draft : Draft) : Nat :=
  draft.parts.length

def link (draft : Draft) (outer inner : Nat) : Draft :=
  { draft with parts := draft.parts.modify outer fun inside => inside ++ [inner] }

def shared? (draft : Draft) (base : Base) : Option Nat :=
  if base.isVirtual then draft.shared.lookup base.name else none

def place (draft : Draft) (outer : Nat) (base : Base) : Draft :=
  let placed : Draft :=
    { bases := draft.bases ++ [⟨base.name, base.isVirtual, outer⟩]
      parts := draft.parts ++ [[]]
      shared :=
        if base.isVirtual then draft.shared ++ [(base.name, draft.size)] else draft.shared }
  placed.link outer draft.size

end Draft

namespace ClassTable

/-- Walks the bases of a class for one sub-object of it. Below a sub-object that is shared already
nothing is walked again. -/
def expand (table : ClassTable) (draft : Draft) (outer : Nat) (name : String) : Draft :=
  (table.basesOf name).attach.foldl
    (fun draft base =>
      match draft.shared? base.1 with
      | some inner => draft.link outer inner
      | none => table.expand (draft.place outer base.1) draft.size base.1.name)
    draft
termination_by table.rank name
decreasing_by exact table.rank_lt base.2

theorem expand_eq (table : ClassTable) (draft : Draft) (outer : Nat) (name : String) :
    table.expand draft outer name = (table.basesOf name).foldl
      (fun draft base =>
        match draft.shared? base with
        | some inner => draft.link outer inner
        | none => table.expand (draft.place outer base) draft.size base.name)
      draft := by
  rw [expand]
  exact List.foldl_attach (f := fun (draft : Draft) (base : Base) =>
    match draft.shared? base with
    | some inner => draft.link outer inner
    | none => table.expand (draft.place outer base) draft.size base.name)

end ClassTable

structure Subobject where
  id : Nat
  className : String
  classIndex : Nat
  isVirtual : Bool
  parent : Option Nat
  depth : Nat
deriving DecidableEq

namespace Subobject

def text (part : Subobject) : String :=
  (if part.isVirtual then "virtual " else "") ++ part.className ++ "#" ++ part.id.repr

end Subobject

/-- The lists in `parts` hold, for each sub-object, the ids of its direct bases. -/
structure Layout where
  complete : Subobject
  bases : List Subobject
  parts : List (List Nat)
deriving DecidableEq

namespace Layout

def subobjects (layout : Layout) : List Subobject :=
  layout.complete :: layout.bases

def size (layout : Layout) : Nat :=
  layout.subobjects.length

def className (layout : Layout) : String :=
  layout.complete.className

def get? (layout : Layout) (id : Nat) : Option Subobject :=
  layout.subobjects[id]?

def partsOf (layout : Layout) (id : Nat) : List Nat :=
  layout.parts.getD id []

def ofClass (layout : Layout) (name : String) : List Subobject :=
  layout.subobjects.filter fun part => part.className == name

def count (layout : Layout) (name : String) : Nat :=
  (layout.ofClass name).length

end Layout

namespace ClassTable

def finish (table : ClassTable) (name : String) (draft : Draft) : Layout :=
  let depths := depthsFrom (fun id => draft.parts.getD id []) draft.size
  { complete :=
      { id := 0
        className := name
        classIndex := table.rank name
        isVirtual := false
        parent := none
        depth := DepthSearch.depthOf depths 0 }
    bases := draft.bases.mapIdx fun position placed =>
      { id := position + 1
        className := placed.className
        classIndex := table.rank placed.className
        isVirtual := placed.isVirtual
        parent := some placed.parent
        depth := DepthSearch.depthOf depths (position + 1) }
    parts := draft.parts }

def layoutOf (table : ClassTable) (name : String) : Layout :=
  table.finish name (table.expand {} 0 name)

def layout (table : ClassTable) (name : String) : Except QueryError Layout :=
  if table.contains name then .ok (table.layoutOf name) else .error (.unknownClass name)

end ClassTable

namespace Layout

/-- A bound on the steps that ids not seen yet can cause: for each the visit of it, and those of the
parts that it puts on the stack. -/
def pending (layout : Layout) (seen : List Nat) : List Nat → Nat
  | [] => 0
  | id :: rest =>
      (if id ∈ seen then 0 else (layout.partsOf id).length + 1) + layout.pending seen rest

theorem pending_concat_le (layout : Layout) (seen : List Nat) (id : Nat) (ids : List Nat) :
    layout.pending (seen ++ [id]) ids ≤ layout.pending seen ids := by
  induction ids with
  | nil => exact Nat.le_refl _
  | cons first rest ih =>
      by_cases met : first ∈ seen
      · simp only [pending, List.mem_append, met, true_or, if_true]
        omega
      · simp only [pending, met, if_false]
        split <;> omega

theorem pending_concat_lt (layout : Layout) {seen ids : List Nat} {id : Nat} (member : id ∈ ids)
    (fresh : id ∉ seen) :
    layout.pending (seen ++ [id]) ids + (layout.partsOf id).length < layout.pending seen ids := by
  induction ids with
  | nil => simp at member
  | cons first rest ih =>
      by_cases same : first = id
      · subst same
        have bound := layout.pending_concat_le seen first rest
        simp only [pending, List.mem_append, List.mem_singleton, or_true, if_true, fresh, if_false]
        omega
      · have later : id ∈ rest := by
          rcases List.mem_cons.mp member with equal | inside
          · exact absurd equal.symm same
          · exact inside
        have smaller := ih later
        have unchanged : (first ∈ seen ++ [id]) = (first ∈ seen) := by
          simp [same]
        simp only [pending, unchanged]
        omega

/-- Takes ids from the stack, puts the parts of each new one in their place, and passes over ids
that are out of range or have been seen. -/
def walk (layout : Layout) (seen : List Nat) : List Nat → List Nat
  | [] => seen
  | id :: rest =>
      if id < layout.size then
        if id ∈ seen then layout.walk seen rest
        else layout.walk (seen ++ [id]) (layout.partsOf id ++ rest)
      else layout.walk seen rest
termination_by stack => layout.pending seen (List.range layout.size) + stack.length
decreasing_by
  all_goals simp only [List.length_cons, List.length_append]
  · omega
  · have smaller := layout.pending_concat_lt (List.mem_range.mpr (by assumption)) (by assumption)
    omega
  · omega

def within (layout : Layout) (id : Nat) : List Nat :=
  layout.walk [] [id]

def contains (layout : Layout) (outer inner : Nat) : Bool :=
  outer ≠ inner && (layout.within outer).contains inner

end Layout

structure LayoutMemo where
  entries : List (String × Layout) := []
deriving DecidableEq

/-- A query may add to the memo, also when it fails. -/
abbrev Query (α : Type) : Type :=
  ExceptT QueryError (StateM LayoutMemo) α

namespace LayoutMemo

def empty : LayoutMemo := {}

def size (memo : LayoutMemo) : Nat :=
  memo.entries.length

def get? (memo : LayoutMemo) (name : String) : Option Layout :=
  memo.entries.lookup name

def insert (memo : LayoutMemo) (name : String) (layout : Layout) : LayoutMemo :=
  { memo with entries := memo.entries ++ [(name, layout)] }

end LayoutMemo

namespace ClassTable

def recallLayout (table : ClassTable) (name : String) : Query Layout := do
  match (← get).get? name with
  | some layout => return layout
  | none =>
      let layout ← table.layout name
      modify fun memo => memo.insert name layout
      return layout

end ClassTable

end StaticResolution
