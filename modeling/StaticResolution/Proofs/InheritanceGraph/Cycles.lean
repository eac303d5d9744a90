import Mathlib
import StaticResolution.Proofs.ClassTable.Refinement
import StaticResolution.Proofs.InheritanceGraph.Refinement

/-!
Cycles in a batch of classes. A batch that passes the other checks is rejected exactly if its
classes form a cycle, and the error then names one.
-/

namespace StaticResolution

def ListsBase (batch : List ClassDef) (derived base : String) : Prop :=
  ∃ decl ∈ batch, decl.name = derived ∧ base ∈ decl.bases.map Base.name

def BaseWithin (batch : List ClassDef) (derived base : String) : Prop :=
  ListsBase batch derived base ∧ base ∈ batch.map ClassDef.name

def Cyclic (batch : List ClassDef) : Prop :=
  ∃ name, Relation.TransGen (BaseWithin batch) name name

/-- Classes of the batch, each listing the next one as a base, of which only the last is a
repetition, and of the first. -/
structure IsCycle (batch : List ClassDef) (path : List String) : Prop where
  returns : path.head? = path.getLast?
  proper : 2 ≤ path.length
  distinct : path.dropLast.Nodup
  inBatch : ∀ name ∈ path.dropLast, name ∈ batch.map ClassDef.name
  descends : path.IsChain (ListsBase batch)

/-- The result is a failure exactly if there is a cycle, and tells one. -/
structure ReportsCycle {α : Type} (batch : List ClassDef) (result : Except RegistrationError α) :
    Prop where
  fails_iff : (∃ fault, result = .error fault) ↔ Cyclic batch
  fault : ∀ fault, result = .error fault →
    ∃ path, fault = .cyclicInheritance path ∧ IsCycle batch path

variable {batch : List ClassDef}

theorem ListsBase.mem_names {derived base : String} (lists : ListsBase batch derived base) :
    derived ∈ batch.map ClassDef.name := by
  obtain ⟨decl, listed, rfl, _⟩ := lists
  exact List.mem_map_of_mem listed

theorem IsCycle.cyclic {path : List String} (cycle : IsCycle batch path) : Cyclic batch := by
  obtain ⟨returns, proper, _, inBatch, descends⟩ := cycle
  match path, proper with
  | first :: second :: rest, _ =>
      have inside : ∀ name ∈ first :: second :: rest, name ∈ batch.map ClassDef.name := by
        intro name listed
        rw [← List.dropLast_append_getLast (List.cons_ne_nil first _), List.mem_append] at listed
        rcases listed with early | last
        · exact inBatch name early
        · rw [List.head?_cons, List.getLast?_eq_getLast_of_ne_nil (List.cons_ne_nil first _),
            Option.some.injEq] at returns
          rw [List.mem_singleton.mp last, ← returns]
          exact inBatch first (by simp)
      have within : (first :: second :: rest).IsChain (BaseWithin batch) :=
        descends.imp_of_mem_tail_imp fun _ base _ later lists =>
          ⟨lists, inside base (List.mem_cons_of_mem _ later)⟩
      obtain ⟨step, further⟩ := List.isChain_cons_cons.mp within
      have back := List.relationReflTransGen_of_exists_isChain_cons rest further
        (by simpa [List.getLast?_eq_getLast_of_ne_nil] using returns.symm)
      exact ⟨first, .head' step back⟩

/-- The path of the sorting up to a name: distinct classes, each a base of the one before. -/
structure Trail (batch : List ClassDef) (path : List String) (name : String) : Prop where
  distinct : path.Nodup
  descends : (path ++ [name]).IsChain (ListsBase batch)

namespace Trail

variable {path : List String} {name : String}

theorem mem_names (trail : Trail batch path name) :
    ∀ step ∈ path, step ∈ batch.map ClassDef.name := by
  intro step onPath
  obtain ⟨front, back, rfl⟩ := List.append_of_mem onPath
  have descends := trail.descends
  rw [List.append_assoc, List.cons_append] at descends
  cases split : back ++ [name] with
  | nil => simp at split
  | cons next rest =>
      rw [split] at descends
      exact (List.isChain_cons_cons.mp descends.right_of_append).1.mem_names

theorem extend (trail : Trail batch path name) (offPath : name ∉ path) {decl : ClassDef}
    (listed : decl ∈ batch) (named : decl.name = name) {base : Base} (clause : base ∈ decl.bases) :
    Trail batch (path ++ [name]) base.name := by
  constructor
  · rw [← List.concat_eq_append]
    exact trail.distinct.concat offPath
  · refine List.isChain_append.mpr ⟨trail.descends, List.isChain_singleton _, ?_⟩
    intro last isLast next isNext
    rw [List.getLast?_concat, Option.mem_some_iff] at isLast
    rw [List.head?_singleton, Option.mem_some_iff] at isNext
    subst isLast isNext
    exact ⟨decl, listed, named, List.mem_map_of_mem clause⟩

theorem isCycle (trail : Trail batch path name) (onPath : name ∈ path) :
    IsCycle batch (path.dropWhile (fun step => step ≠ name) ++ [name]) := by
  have inBatch := trail.mem_names
  obtain ⟨distinct, descends⟩ := trail
  obtain ⟨front, back, rfl, before⟩ := List.eq_append_cons_of_mem onPath
  have cut : (front ++ name :: back).dropWhile (fun step => step ≠ name) = name :: back := by
    rw [List.dropWhile_append_of_pos, List.dropWhile_cons_of_neg (by simp)]
    intro step early
    rw [decide_eq_true_eq]
    rintro rfl
    exact before early
  rw [cut]
  constructor
  case returns =>
    rw [List.getLast?_concat]
    rfl
  case proper => simp
  case distinct =>
    rw [List.dropLast_concat]
    exact distinct.of_append_right
  case inBatch =>
    rw [List.dropLast_concat]
    exact fun step late => inBatch step (List.mem_append_right _ late)
  case descends =>
    rw [List.append_assoc] at descends
    exact descends.right_of_append

end Trail

theorem exists_of_foldlM_error {α β ε : Type} {step : β → α → Except ε β} {list : List α}
    {state : β} {fault : ε} (failed : list.foldlM step state = .error fault) :
    ∃ item ∈ list, ∃ reached, step reached item = .error fault := by
  induction list generalizing state with
  | nil => cases failed
  | cons item rest ih =>
      rw [List.foldlM_cons] at failed
      cases first : step state item with
      | error other =>
          rw [first] at failed
          cases failed
          exact ⟨item, List.mem_cons_self .., state, first⟩
      | ok next =>
          rw [first] at failed
          obtain ⟨later, listed, reached, fails⟩ := ih failed
          exact ⟨later, List.mem_cons_of_mem _ listed, reached, fails⟩

theorem sortFrom_error {path : List String} {sorted : List ClassDef} {name : String}
    {fault : RegistrationError} (trail : Trail batch path name)
    (failed : sortFrom batch path sorted name = .error fault) :
    ∃ cycle, fault = .cyclicInheritance cycle ∧ IsCycle batch cycle := by
  induction path, sorted, name using sortFrom.induct batch generalizing fault with
  | case1 path sorted name present =>
      rw [sortFrom, if_pos present] at failed
      cases failed
  | case2 path sorted name absent onPath =>
      rw [sortFrom, if_neg absent, if_pos onPath] at failed
      cases failed
      exact ⟨_, rfl, trail.isCycle onPath⟩
  | case3 path sorted name absent offPath missing =>
      rw [sortFrom_of_outside offPath missing] at failed
      cases failed
  | case4 path sorted name absent offPath decl found ih =>
      have listed := List.mem_of_find?_eq_some found
      have named : decl.name = name := by simpa using List.find?_some found
      rw [sortFrom_of_find? absent offPath found] at failed
      cases walked : decl.bases.foldlM
        (fun sorted base => sortFrom batch (path ++ [name]) sorted base.name) sorted with
      | ok below =>
          rw [walked] at failed
          cases failed
      | error other =>
          rw [walked] at failed
          cases failed
          obtain ⟨base, clause, reached, fails⟩ := exists_of_foldlM_error walked
          exact ih reached base (trail.extend offPath listed named clause) fails

theorem basesFirst_error {fault : RegistrationError} (failed : basesFirst batch = .error fault) :
    ∃ cycle, fault = .cyclicInheritance cycle ∧ IsCycle batch cycle := by
  obtain ⟨decl, _, sorted, fails⟩ := exists_of_foldlM_error failed
  exact sortFrom_error ⟨List.nodup_nil, List.isChain_singleton _⟩ fails

/-- What a batch is checked for before it is sorted, where some names are known already. -/
structure PassesChecks (known : String → Bool) (batch : List ClassDef) : Prop where
  fresh : ∀ decl ∈ batch, known decl.name = false
  distinctNames : (batch.map ClassDef.name).Nodup
  distinctBases : ∀ decl ∈ batch, (decl.bases.map Base.name).Nodup
  basesKnown : ∀ decl ∈ batch, ∀ base ∈ decl.bases,
    known base.name = true ∨ base.name ∈ batch.map ClassDef.name

namespace ClassTable

variable {table : ClassTable}

theorem Checked.not_cyclic (checked : table.Checked batch) {sorted : List ClassDef}
    (sorts : basesFirst batch = .ok sorted) : ¬ Cyclic batch := by
  have ready := checked.inTurn (basesFirst_sorts sorts).1
  have perm := checked.perm sorts
  have earlier : ∀ derived base, Relation.TransGen (BaseWithin batch) derived base →
      (sorted.map ClassDef.name).idxOf base < (sorted.map ClassDef.name).idxOf derived := by
    intro derived base way
    have step : ∀ above below, BaseWithin batch above below →
        (sorted.map ClassDef.name).idxOf below < (sorted.map ClassDef.name).idxOf above := by
      rintro _ _ ⟨⟨decl, listed, rfl, lists⟩, inBatch⟩
      obtain ⟨clause, inBases, rfl⟩ := List.mem_map.mp lists
      exact ready.idxOf_lt (perm.mem_iff.mpr listed) inBases
        ((perm.map ClassDef.name).mem_iff.mpr inBatch)
    induction way with
    | single last => exact step _ _ last
    | tail _ last ih => exact Nat.lt_trans (step _ _ last) ih
  rintro ⟨name, way⟩
  exact Nat.lt_irrefl _ (earlier name name way)

theorem Checked.reportsCycle (checked : table.Checked batch) :
    ReportsCycle batch (outcome (registerAll batch) table).1 := by
  rw [outcome_registerAll_of_checked checked]
  cases sorts : basesFirst batch with
  | error fault =>
      obtain ⟨path, rfl, cycle⟩ := basesFirst_error sorts
      refine ⟨⟨fun _ => cycle.cyclic, fun _ => ⟨_, rfl⟩⟩, ?_⟩
      rintro fault ⟨⟩
      exact ⟨path, rfl, cycle⟩
  | ok sorted =>
      obtain ⟨grown, done, _⟩ := outcome_mapM_register (checked.inTurn (basesFirst_sorts sorts).1)
      simp only [done]
      refine ⟨⟨?_, fun cyclic => absurd cyclic (checked.not_cyclic sorts)⟩, ?_⟩
      · rintro ⟨fault, ⟨⟩⟩
      · rintro fault ⟨⟩

theorem checked_of_passesChecks (passes : PassesChecks table.contains batch) :
    table.Checked batch where
  fresh := passes.fresh
  distinct := passes.distinctNames
  distinctBases decl listed := decl.repeatedBase?_eq_none.mpr (passes.distinctBases decl listed)
  known := passes.basesKnown

end ClassTable

namespace InheritanceGraph

/-- A batch that passes the checks fails to register exactly if its classes list each other as bases
in a cycle, and the error tells such a cycle. The store and the table agree on it. -/
theorem registerAll_reportsCycle :
    (∀ (graph : InheritanceGraph) (batch : List ClassDef), graph.Reachable →
      PassesChecks graph.contains batch →
        ReportsCycle batch (outcome (registerAll batch) graph).1) ∧
    ∀ (table : ClassTable) (batch : List ClassDef), PassesChecks table.contains batch →
      ReportsCycle batch (outcome (ClassTable.registerAll batch) table).1 := by
  constructor
  · intro graph batch reachable passes
    obtain ⟨table, _, rfl⟩ := reachable.exists_table
    rw [ClassTable.contains_graph] at passes
    rw [mirrors_registerAll batch table]
    exact (ClassTable.checked_of_passesChecks passes).reportsCycle
  · exact fun table batch passes => (ClassTable.checked_of_passesChecks passes).reportsCycle

def enteredCycle : List ClassDef :=
  [{ name := "W", bases := [⟨"A", false⟩, ⟨"X", true⟩] },
    { name := "X", bases := [⟨"B", false⟩, ⟨"Y", false⟩] },
    { name := "Y", bases := [⟨"X", true⟩] }]

theorem registerAll_reportsCycle_entered :
    ∃ graph, graph = (outcome (registerAll ClassTable.mixedBatch) .empty).2 ∧ graph.Reachable ∧
      PassesChecks graph.contains enteredCycle ∧
      (outcome (registerAll enteredCycle) graph).1 =
        .error (.cyclicInheritance ["X", "Y", "X"]) ∧
      IsCycle enteredCycle ["X", "Y", "X"] ∧ Cyclic enteredCycle ∧
      PassesChecks ClassTable.mixed.contains enteredCycle ∧
      ∃ fault, (outcome (ClassTable.registerAll enteredCycle) ClassTable.mixed).1 =
        .error fault := by
  obtain ⟨stored, tabled⟩ := registerAll_reportsCycle
  have reachable : Reachable (outcome (registerAll ClassTable.mixedBatch) .empty).2 :=
    .registerAll _ .empty
  have passes : PassesChecks ClassTable.mixed.contains enteredCycle := by
    have known : ClassTable.mixed.contains "A" = true ∧ ClassTable.mixed.contains "B" = true :=
      ⟨by cbv, by cbv⟩
    have fresh : ClassTable.mixed.contains "W" = false ∧ ClassTable.mixed.contains "X" = false ∧
        ClassTable.mixed.contains "Y" = false := ⟨by cbv, by cbv, by cbv⟩
    constructor <;> simp [enteredCycle, known, fresh]
  have laid : (outcome (registerAll ClassTable.mixedBatch) .empty).2 = ClassTable.mixed.graph :=
    congrArg Prod.snd (mirrors_registerAll ClassTable.mixedBatch .empty)
  have same : (outcome (registerAll enteredCycle) ClassTable.mixed.graph).1 =
      (outcome (ClassTable.registerAll enteredCycle) ClassTable.mixed).1 :=
    congrArg Prod.fst (mirrors_registerAll enteredCycle ClassTable.mixed)
  have refused : (outcome (ClassTable.registerAll enteredCycle) ClassTable.mixed).1 =
      .error (.cyclicInheritance ["X", "Y", "X"]) := by cbv
  have inGraph : PassesChecks ClassTable.mixed.graph.contains enteredCycle := by
    rwa [ClassTable.contains_graph]
  rw [laid] at reachable
  have reports := stored _ _ reachable inGraph
  obtain ⟨_, ⟨⟩, cycle⟩ := reports.fault _ (same.trans refused)
  have cyclic := reports.fails_iff.mp ⟨_, same.trans refused⟩
  exact ⟨_, laid.symm, reachable, inGraph, same.trans refused, cycle, cyclic, passes,
    (tabled _ _ passes).fails_iff.mpr cyclic⟩

end InheritanceGraph

end StaticResolution
