import StaticResolution.Overload
import StaticResolution.Proofs.Layout.Subobjects

/-!
Layouts depend on nothing but the names and clauses of their classes, so that a layout stays the
same while the table grows. Hence the memo of layouts cannot be observed: as long as its entries are
the layouts of the table, an action that reads it gives the result that it gives on an empty one.
-/

namespace StaticResolution

def Subobject.reindexed (place : String → Nat) (part : Subobject) : Subobject :=
  { part with classIndex := place part.className }

/-- The same layout in a table that holds its classes in other places. -/
def Layout.reindexed (layout : Layout) (place : String → Nat) : Layout :=
  { layout with
    complete := layout.complete.reindexed place
    bases := layout.bases.map (Subobject.reindexed place) }

namespace Layout

variable (layout : Layout) (place : String → Nat)

theorem subobjects_reindexed :
    (layout.reindexed place).subobjects = layout.subobjects.map (Subobject.reindexed place) := rfl

@[simp] theorem size_reindexed : (layout.reindexed place).size = layout.size := by
  rw [size, size, subobjects_reindexed, List.length_map]

theorem ofClass_reindexed (name : String) :
    (layout.reindexed place).ofClass name =
      (layout.ofClass name).map (Subobject.reindexed place) := by
  rw [ofClass, subobjects_reindexed, List.filter_map]
  rfl

@[simp] theorem count_reindexed (name : String) :
    (layout.reindexed place).count name = layout.count name := by
  rw [count, count, ofClass_reindexed, List.length_map]

theorem walk_reindexed (seen stack : List Nat) :
    (layout.reindexed place).walk seen stack = layout.walk seen stack := by
  induction seen, stack using Layout.walk.induct layout with
  | case1 seen => rw [walk, walk]
  | case2 seen id rest bound met ih =>
      rw [walk, walk, size_reindexed, if_pos bound, if_pos bound, if_pos met, if_pos met, ih]
  | case3 seen id rest bound fresh ih =>
      rw [walk, walk, size_reindexed, if_pos bound, if_pos bound, if_neg fresh, if_neg fresh, ← ih]
      rfl
  | case4 seen id rest outside ih =>
      rw [walk, walk, size_reindexed, if_neg outside, if_neg outside, ih]

@[simp] theorem within_reindexed (id : Nat) :
    (layout.reindexed place).within id = layout.within id :=
  layout.walk_reindexed place [] [id]

end Layout

namespace ClassTable

variable {table other : ClassTable} {name : String}

theorem AgreesAt.expand_eq (agrees : AgreesAt table other name) (draft : Draft) (outer : Nat) :
    other.expand draft outer name = table.expand draft outer name := by
  induction name using table.inheritance.induction generalizing draft outer with
  | step name ih =>
      rw [ClassTable.expand_eq, ClassTable.expand_eq, agrees.basesOf_eq]
      apply List.foldl_ext
      intro now base listed
      split
      · rfl
      · exact ih base.name (mem_inheritance_next listed) (agrees.below listed) _ _

theorem finish_reindexed (draft : Draft) :
    (table.finish name draft).reindexed other.rank = other.finish name draft := by
  simp only [finish, Layout.reindexed, List.mapIdx_eq_zipIdx_map, List.map_map]
  rfl

theorem AgreesAt.layoutOf_eq (agrees : AgreesAt table other name) :
    other.layoutOf name = (table.layoutOf name).reindexed other.rank := by
  rw [layoutOf, layoutOf, agrees.expand_eq, finish_reindexed]

theorem AgreesAt.layout_eq (agrees : AgreesAt table other name) :
    other.layout name = (table.layout name).map fun layout => layout.reindexed other.rank := by
  rw [layout, layout, agrees.contains_eq, agrees.layoutOf_eq]
  split <;> rfl

end ClassTable

namespace ClassTable

namespace Extends

variable {table larger : ClassTable} {name : String}

theorem agreesAt (extension : Extends table larger) (registered : table.contains name = true) :
    AgreesAt table larger name :=
  fun _ inherits => extension.find?_eq (inherits.contains registered)

theorem layoutOf_eq (extension : Extends table larger) (formed : WellFormed table)
    (registered : table.contains name = true) :
    larger.layoutOf name = table.layoutOf name := by
  have ranks : ∀ placed ∈ (table.expand {} 0 name).bases,
      larger.rank placed.className = table.rank placed.className := by
    intro placed listed
    apply extension.rank_eq
    obtain ⟨lists, _⟩ := expand_lists formed name
    have named := List.mem_map_of_mem (f := fun placed => (placed.className, placed.isVirtual))
      listed
    rw [lists.bases, List.mem_map] at named
    obtain ⟨chain, inside, same⟩ := named
    have reach := table.chains.mem_preorder_iff.mp (List.mem_of_mem_tail inside)
    have leaf : chain.leaf = placed.className := congrArg Prod.fst same
    rw [← leaf]
    exact (inherits_of_reaches reach).contains registered
  rw [layoutOf, layoutOf, (extension.agreesAt registered).expand_eq, finish, finish,
    extension.rank_eq registered]
  congr 1
  apply List.ext_getElem (by simp)
  intro position inside _
  simp only [List.getElem_mapIdx]
  rw [ranks _ (List.getElem_mem _)]

end Extends

end ClassTable

/-- The memo has at most one entry for a class, which is the layout of the class in the table. -/
structure LayoutMemo.Coherent (table : ClassTable) (memo : LayoutMemo) : Prop where
  distinct : (memo.entries.map Prod.fst).Nodup
  current : ∀ entry ∈ memo.entries, table.layout entry.1 = .ok entry.2

namespace LayoutMemo

variable {table : ClassTable} {memo : LayoutMemo}

theorem coherent_empty (table : ClassTable) : empty.Coherent table :=
  ⟨List.nodup_nil, fun _ listed => absurd listed List.not_mem_nil⟩

theorem Coherent.get?_eq (coherent : memo.Coherent table) {name : String} {layout : Layout}
    (found : memo.get? name = some layout) : table.layout name = .ok layout := by
  obtain ⟨earlier, later, split, _⟩ := List.lookup_eq_some_iff.mp found
  exact coherent.current (name, layout) (by simp [split])

theorem Coherent.insert (coherent : memo.Coherent table) {name : String} {layout : Layout}
    (missing : memo.get? name = none) (computed : table.layout name = .ok layout) :
    (memo.insert name layout).Coherent table := by
  constructor
  · have fresh : name ∉ memo.entries.map Prod.fst := by
      intro listed
      obtain ⟨entry, inside, rfl⟩ := List.mem_map.mp listed
      simpa using List.lookup_eq_none_iff.mp missing entry inside
    rw [LayoutMemo.insert, List.map_append, List.map_singleton, ← List.concat_eq_append]
    exact coherent.distinct.concat fresh
  · intro entry listed
    rcases List.mem_append.mp listed with old | new
    · exact coherent.current entry old
    · rw [List.mem_singleton.mp new]
      exact computed

theorem Coherent.of_extends {larger : ClassTable} (coherent : memo.Coherent table)
    (formed : table.WellFormed) (extension : table.Extends larger) : memo.Coherent larger := by
  refine ⟨coherent.distinct, ?_⟩
  intro entry listed
  obtain ⟨registered, computed⟩ := ClassTable.layout_eq_ok_iff.mp (coherent.current entry listed)
  rw [ClassTable.layout_eq_ok_iff, extension.layoutOf_eq formed registered]
  exact ⟨extension.contains registered, computed⟩

end LayoutMemo

/-- The action gives one result on all coherent memos, keeps their entries and stays coherent. -/
def Answers {α : Type} (table : ClassTable) (action : StateM LayoutMemo α) (result : α) : Prop :=
  ∀ memo : LayoutMemo, memo.Coherent table →
    (action.run memo).run.1 = result ∧ memo.entries <+: (action.run memo).run.2.entries ∧
      (action.run memo).run.2.Coherent table

namespace Answers

variable {α β : Type} {table : ClassTable}

theorem pure (value : α) : Answers table (pure value) value :=
  fun _ coherent => ⟨rfl, List.prefix_refl _, coherent⟩

theorem bind {action : StateM LayoutMemo α} {next : α → StateM LayoutMemo β} {value : α}
    {result : β} (first : Answers table action value) (later : Answers table (next value) result) :
    Answers table (action >>= next) result := by
  intro memo coherent
  obtain ⟨same, kept, between⟩ := first memo coherent
  obtain ⟨done, keptLater, after⟩ := later _ between
  rw [← same] at done keptLater after
  exact ⟨done, kept.trans keptLater, after⟩

theorem map {action : StateM LayoutMemo α} {value : α} (f : α → β)
    (first : Answers table action value) : Answers table (f <$> action) (f value) := by
  intro memo coherent
  obtain ⟨same, kept, after⟩ := first memo coherent
  exact ⟨congrArg f same, kept, after⟩

theorem bindQuery {query : Query α} {next : α → Query β} {value : α}
    {result : Except QueryError β} (first : Answers table query.run (.ok value))
    (later : Answers table (next value).run result) :
    Answers table (query >>= next).run result := by
  rw [ExceptT.run_bind]
  exact first.bind later

theorem bindFault {query : Query α} {next : α → Query β} {fault : QueryError}
    (first : Answers table query.run (.error fault)) :
    Answers table (query >>= next).run (.error fault) := by
  rw [ExceptT.run_bind]
  exact first.bind (pure _)

theorem ofExcept (result : Except QueryError α) :
    Answers table (liftM result : Query α).run result := by
  cases result <;> exact pure _

theorem lift {action : StateM LayoutMemo α} {value : α} (first : Answers table action value) :
    Answers table (liftM action : Query α).run (.ok value) :=
  first.map Except.ok

end Answers

def Transparent {α : Type} (table : ClassTable) (action : StateM LayoutMemo α) : Prop :=
  ∃ result, Answers table action result

namespace Transparent

variable {α β : Type} {table : ClassTable}

theorem pure (value : α) : Transparent table (pure value) :=
  ⟨value, .pure value⟩

theorem bind {action : StateM LayoutMemo α} {next : α → StateM LayoutMemo β}
    (first : Transparent table action) (later : ∀ value, Transparent table (next value)) :
    Transparent table (action >>= next) := by
  obtain ⟨value, answers⟩ := first
  obtain ⟨result, nextAnswers⟩ := later value
  exact ⟨result, answers.bind nextAnswers⟩

theorem map {action : StateM LayoutMemo α} (f : α → β) (first : Transparent table action) :
    Transparent table (f <$> action) := by
  obtain ⟨value, answers⟩ := first
  exact ⟨f value, answers.map f⟩

theorem bindQuery {query : Query α} {next : α → Query β} (first : Transparent table query.run)
    (later : ∀ value, Transparent table (next value).run) :
    Transparent table (query >>= next).run := by
  rw [ExceptT.run_bind]
  apply first.bind
  intro result
  cases result with
  | error fault => exact pure _
  | ok value => exact later value

theorem lift {action : StateM LayoutMemo α} (first : Transparent table action) :
    Transparent table (liftM action : Query α).run :=
  first.map Except.ok

end Transparent

variable {table : ClassTable}

theorem outcome_recallLayout (table : ClassTable) (name : String) (memo : LayoutMemo) :
    outcome (table.recallLayout name) memo =
      match memo.get? name with
      | some layout => (.ok layout, memo)
      | none =>
          match table.layout name with
          | .ok layout => (.ok layout, memo.insert name layout)
          | .error fault => (.error fault, memo) := by
  unfold ClassTable.recallLayout
  rw [outcome_bind_ok (outcome_get memo)]
  cases memo.get? name with
  | some layout => rfl
  | none => cases table.layout name <;> rfl

theorem answers_recallLayout (table : ClassTable) (name : String) :
    Answers table (table.recallLayout name).run (table.layout name) := by
  intro memo coherent
  change (outcome (table.recallLayout name) memo).1 = _ ∧
    memo.entries <+: (outcome (table.recallLayout name) memo).2.entries ∧
      (outcome (table.recallLayout name) memo).2.Coherent table
  rw [outcome_recallLayout]
  cases found : memo.get? name with
  | some layout => exact ⟨(coherent.get?_eq found).symm, List.prefix_refl _, coherent⟩
  | none =>
      cases computed : table.layout name with
      | ok layout => exact ⟨rfl, List.prefix_append _ _, coherent.insert found computed⟩
      | error fault => exact ⟨rfl, List.prefix_refl _, coherent⟩

theorem transparent_derivedToBase (table : ClassTable) (source target : String) :
    Transparent table (table.derivedToBase source target) := by
  unfold ClassTable.derivedToBase
  split
  · apply Transparent.bind ⟨_, answers_recallLayout table source⟩
    intro result
    cases result <;> exact .pure _
  · exact .pure _

theorem transparent_convert (table : ClassTable) (source target : String) :
    Transparent table (table.convert source target) := by
  unfold ClassTable.convert
  split
  · exact .pure _
  · exact transparent_derivedToBase table source target

section Overloads

variable {convert : String → String → StateM LayoutMemo (Option Conversion)}
  (conversions : ∀ source target, Transparent table (convert source target))

include conversions

theorem transparent_bindAll (params : List Param) (args : List Argument) :
    Transparent table (bindAll convert params args) := by
  fun_induction bindAll convert params args with
  | case1 param params argument args ih =>
      apply (conversions _ _).bind
      intro conversion
      split
      · exact .pure _
      · exact ih.bind fun _ => .pure _
  | case2 => exact .pure _

theorem transparent_viable? (call : Call) (member : Member) :
    Transparent table (viable? convert call member) := by
  unfold viable?
  split
  · exact (transparent_bindAll conversions _ _).bind fun _ => .pure _
  · exact .pure _

theorem transparent_viableAmong (call : Call) (candidates : List Member) :
    Transparent table (viableAmong convert call candidates) := by
  induction candidates with
  | nil => exact .pure _
  | cons member rest ih =>
      exact (transparent_viable? conversions call member).bind fun _ => ih.bind fun _ => .pure _

theorem transparent_resolveAmong (candidates : List Member) (call : Call) :
    Transparent table (resolveAmong convert candidates call) :=
  (transparent_viableAmong conversions call candidates).bind fun _ => .pure _

end Overloads

end StaticResolution
