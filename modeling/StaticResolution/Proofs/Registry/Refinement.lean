import Mathlib
import StaticResolution.Proofs.InheritanceGraph.Refinement
import StaticResolution.Proofs.Session.Run

/-!
The registry refines the program, and a registration that is rejected leaves every part of its state
as it was. For a batch this rests on the order of its classes: once the first of them is inserted,
none of the others can be rejected.
-/

namespace StaticResolution

def overloadSets (functions : List Member) : List (String × List Member) :=
  functions.foldl (fun sets function => addOverload function sets) []

theorem lookup_addOverload (function : Member) (sets : List (String × List Member))
    (name : String) :
    (addOverload function sets).lookup name =
      if name = function.name then some ((sets.lookup name).getD [] ++ [function])
      else sets.lookup name := by
  by_cases same : name = function.name
  · subst same
    rw [if_pos rfl]
    induction sets with
    | nil => simp [addOverload]
    | cons first rest ih =>
        obtain ⟨key, overloads⟩ := first
        by_cases here : key = function.name
        · simp [addOverload, here]
        · have passed : (function.name == key) = false := by simpa using Ne.symm here
          simp only [addOverload, if_neg here, List.lookup_cons, passed, ih]
  · have apart : (name == function.name) = false := by simpa using same
    rw [if_neg same]
    induction sets with
    | nil => simp [addOverload, List.lookup_cons, apart]
    | cons first rest ih =>
        obtain ⟨key, overloads⟩ := first
        by_cases here : key = function.name
        · subst here
          simp [addOverload, List.lookup_cons, apart]
        · simp only [addOverload, if_neg here, List.lookup_cons, ih]

theorem getD_lookup_overloadSets (functions : List Member) (name : String) :
    ((overloadSets functions).lookup name).getD [] =
      functions.filter fun function => function.name == name := by
  unfold overloadSets
  induction functions using List.reverseRecOn with
  | nil => rfl
  | append_singleton front last ih =>
      rw [List.foldl_append, List.foldl_cons, List.foldl_nil, lookup_addOverload,
        List.filter_append]
      by_cases same : name = last.name
      · rw [if_pos same, Option.getD_some, ih]
        simp [same]
      · have other : (last.name == name) = false := by simpa using Ne.symm same
        simp [same, other, ih]

namespace FunctionTable

def store (table : FunctionTable) : OverloadStore :=
  { sets := overloadSets table.functions
    fingerprints := table.functions.map Member.fingerprint }

variable {table : FunctionTable}

@[simp] theorem size_store (table : FunctionTable) : table.store.size = table.size :=
  List.length_map _

@[simp] theorem overloads_store (table : FunctionTable) (name : String) :
    table.store.overloads name = table.overloads name :=
  getD_lookup_overloadSets table.functions name

theorem contains_store_iff {fingerprint : Fingerprint} :
    table.store.contains fingerprint = true ↔
      ∃ function ∈ table.functions, fingerprint = function.fingerprint := by
  simp [OverloadStore.contains, store, eq_comm]

theorem store_concat (table : FunctionTable) (function : Member) :
    ({ functions := table.functions ++ [function] } : FunctionTable).store =
      { sets := addOverload function table.store.sets
        fingerprints := table.store.fingerprints ++ [function.fingerprint] } := by
  simp [store, overloadSets]

end FunctionTable

theorem OverloadStore.outcome_register_of_fresh {store : OverloadStore} {function : Member}
    (callable : function.isCallable = true)
    (fresh : store.contains function.fingerprint = false) :
    outcome (register function) store = (.ok function.fingerprint,
      { sets := addOverload function store.sets
        fingerprints := store.fingerprints ++ [function.fingerprint] }) := by
  have inserted : store.insert function.fingerprint =
      (true, { store with fingerprints := store.fingerprints ++ [function.fingerprint] }) := by
    simp [insert, fresh]
  unfold register
  simp only [callable, Bool.not_true, Bool.false_eq_true, if_false]
  rw [outcome_bind_ok (outcome_get store), inserted]
  rfl

theorem OverloadStore.mirrors_register (function : Member) :
    Mirrors FunctionTable.store (FunctionTable.register function) (register function) := by
  intro table
  by_cases callable : function.isCallable = true
  · by_cases taken : table.store.contains function.fingerprint = true
    · obtain ⟨other, listed, same⟩ := FunctionTable.contains_store_iff.mp taken
      rw [FunctionTable.outcome_register_of_taken callable listed same]
      have inserted : table.store.insert function.fingerprint = (false, table.store) := by
        rw [insert, if_pos taken]
      unfold register
      simp only [callable, Bool.not_true, Bool.false_eq_true, if_false]
      rw [outcome_bind_ok (outcome_get table.store), inserted]
      rfl
    · have free : ∀ other ∈ table.functions, function.fingerprint ≠ other.fingerprint :=
        fun other listed same => taken (FunctionTable.contains_store_iff.mpr ⟨other, listed, same⟩)
      rw [FunctionTable.outcome_register_of_free callable free, FunctionTable.store_concat,
        outcome_register_of_fresh callable (by simpa using taken)]
  · have data : function.isCallable = false := by simpa using callable
    rw [FunctionTable.outcome_register_of_not_callable data]
    unfold register
    rw [data]
    rfl

def Program.registry (program : Program) : Registry :=
  { classes := program.classes.graph, functions := program.functions.store }

theorem Program.mirrors_registerFunction (function : Member) :
    Mirrors registry (registerFunction function) (Registry.registerFunction function) := by
  refine Mirrors.onPart (OverloadStore.mirrors_register function) ?_ ?_
  · exact fun _ => rfl
  · exact fun _ _ => rfl

def Declaration.inRegistry : Declaration → Registration Registry Unit
  | newClass decl => (fun _ => ()) <$> Registry.registerClass decl
  | newClasses batch => (fun _ => ()) <$> Registry.registerClasses batch
  | newFunction function => (fun _ => ()) <$> Registry.registerFunction function

theorem Declaration.mirrors_registration (declaration : Declaration) :
    Mirrors Program.registry declaration.registration declaration.inRegistry := by
  cases declaration with
  | newClass decl =>
      refine Mirrors.map (Mirrors.onPart (InheritanceGraph.mirrors_register decl) ?_ ?_) _
      · exact fun _ => rfl
      · exact fun _ _ => rfl
  | newClasses batch =>
      refine Mirrors.map (Mirrors.onPart (InheritanceGraph.mirrors_registerAll batch) ?_ ?_) _
      · exact fun _ => rfl
      · exact fun _ _ => rfl
  | newFunction function => exact (Program.mirrors_registerFunction function).map _

/-- The registries that registrations lead to, whether they succeed or fail. -/
inductive Registry.Reachable : Registry → Prop
  | empty : Reachable .empty
  | register {registry : Registry} (declaration : Declaration) (reachable : Reachable registry) :
      Reachable (outcome declaration.inRegistry registry).2

theorem Registry.Reachable.exists_program {registry : Registry} (reachable : Reachable registry) :
    ∃ program : Program, program.registry = registry := by
  induction reachable with
  | empty => exact ⟨.empty, rfl⟩
  | register declaration _ ih =>
      obtain ⟨program, rfl⟩ := ih
      refine ⟨(outcome declaration.registration program).2, ?_⟩
      rw [declaration.mirrors_registration program]

/-- Whenever the turn of a class comes, those before it have been inserted and so will it be. -/
def InsertsAll {σ : Type} (register : ClassDef → Registration σ Nat) (state : σ)
    (sorted : List ClassDef) : Prop :=
  ∀ earlier decl later, sorted = earlier ++ decl :: later → ∃ indices reached index changed,
    outcome (earlier.mapM register) state = (.ok indices, reached) ∧
      outcome (register decl) reached = (.ok index, changed)

theorem Mirrors.insertsAll {σ τ : Type} {view : σ → τ} {register : ClassDef → Registration σ Nat}
    {image : ClassDef → Registration τ Nat}
    (mirrors : ∀ decl, Mirrors view (register decl) (image decl)) {state : σ}
    {sorted : List ClassDef} (inserts : InsertsAll register state sorted) :
    InsertsAll image (view state) sorted := by
  intro earlier decl later split
  obtain ⟨indices, reached, index, changed, before, here⟩ := inserts earlier decl later split
  refine ⟨indices, view reached, index, view changed, ?_, ?_⟩
  · rw [Mirrors.mapM mirrors earlier state, before]
  · rw [mirrors decl reached, here]

namespace ClassTable

theorem insertsAll_of_inTurn {table : ClassTable} {sorted : List ClassDef}
    (ready : InTurn (table.classes.map ClassDef.name) sorted) :
    InsertsAll register table sorted := by
  rintro earlier decl later rfl
  obtain ⟨front, turn, _⟩ := inTurn_append.mp ready
  obtain ⟨reached, done, classes⟩ := outcome_mapM_register front
  have admitted : reached.Admits decl := by
    rw [admits_iff, classes, List.map_append]
    exact turn
  exact ⟨_, reached, _, _, done, outcome_register_of_admits admitted⟩

theorem Checked.insertsAll {table : ClassTable} {batch sorted : List ClassDef}
    (checked : table.Checked batch) (sorts : basesFirst batch = .ok sorted) :
    InsertsAll register table sorted :=
  insertsAll_of_inTurn (checked.inTurn (basesFirst_sorts sorts).1)

end ClassTable

namespace InheritanceGraph

theorem insertsAll_of_checks {graph : InheritanceGraph} (reachable : Reachable graph)
    {batch sorted : List ClassDef} (noDuplicate : duplicateAmong? graph.contains [] batch = none)
    (noUnknown : unknownBaseAmong? graph.contains batch = none)
    (sorts : basesFirst batch = .ok sorted) : InsertsAll register graph sorted := by
  obtain ⟨table, _, rfl⟩ := reachable.exists_table
  rw [ClassTable.contains_graph] at noDuplicate noUnknown
  have checked : table.Checked batch := ClassTable.checked_iff.mpr ⟨noDuplicate, noUnknown⟩
  exact Mirrors.insertsAll mirrors_register (checked.insertsAll sorts)

end InheritanceGraph

namespace Registry

/-- A registration that fails changes neither a session, its layouts included, nor the stores behind
its program. A batch fails before its first insertion or not at all. -/
theorem rejection_unchanged :
    (∀ (session : Session) (declaration : Declaration) (fault : RegistrationError),
      (session.register declaration.registration).1 = .error fault →
        (session.register declaration.registration).2 = session) ∧
    (∀ registry : Registry, registry.Reachable →
      ∀ declaration : Declaration, KeepsOnFailure declaration.inRegistry registry) ∧
    (∀ graph : InheritanceGraph, graph.Reachable →
      (∀ decl, KeepsOnFailure (InheritanceGraph.register decl) graph) ∧
        ∀ batch, KeepsOnFailure (InheritanceGraph.registerAll batch) graph) ∧
    (∀ (table : ClassTable) (batch sorted : List ClassDef),
      table.duplicate? [] batch = none → table.unknownBase? batch = none →
        basesFirst batch = .ok sorted → InsertsAll ClassTable.register table sorted) ∧
    ∀ (graph : InheritanceGraph) (batch sorted : List ClassDef), graph.Reachable →
      duplicateAmong? graph.contains [] batch = none →
        unknownBaseAmong? graph.contains batch = none →
          basesFirst batch = .ok sorted → InsertsAll InheritanceGraph.register graph sorted := by
  refine ⟨?_, ?_, ?_, ?_, ?_⟩
  · intro session declaration fault failed
    have kept := declaration.atomic_registration session.program fault failed
    change { session with program := (outcome declaration.registration session.program).2 } = _
    rw [kept]
  · intro registry reachable declaration
    obtain ⟨program, rfl⟩ := reachable.exists_program
    exact declaration.mirrors_registration.keepsOnFailure declaration.atomic_registration program
  · intro graph reachable
    obtain ⟨table, _, rfl⟩ := reachable.exists_table
    constructor
    · intro decl
      exact (InheritanceGraph.mirrors_register decl).keepsOnFailure
        (ClassTable.atomic_register decl) table
    · intro batch
      exact (InheritanceGraph.mirrors_registerAll batch).keepsOnFailure
        (ClassTable.atomic_registerAll batch) table
  · intro table batch sorted noDuplicate noUnknown sorts
    exact (ClassTable.checked_iff.mpr ⟨noDuplicate, noUnknown⟩).insertsAll sorts
  · exact fun graph batch sorted reachable noDuplicate noUnknown sorts =>
      InheritanceGraph.insertsAll_of_checks reachable noDuplicate noUnknown sorts

theorem rejection_unchanged_cyclic :
    ∃ (session : Session) (registry : Registry) (cyclic : Declaration),
      session = (Session.ofRules none).run [.register (.newClasses ClassTable.mixedBatch),
        .ask (.layout "D")] ∧
      registry = (outcome (Declaration.newClasses ClassTable.mixedBatch).inRegistry .empty).2 ∧
      cyclic = .newClasses
        [{ name := "X", bases := [⟨"Y", false⟩] }, { name := "Y", bases := [⟨"X", true⟩] }] ∧
      session.layouts.size = 1 ∧
      (session.register cyclic.registration).1 = .error (.cyclicInheritance ["X", "Y", "X"]) ∧
      (session.register cyclic.registration).2 = session ∧
      registry.Reachable ∧
      (outcome cyclic.inRegistry registry).1 = .error (.cyclicInheritance ["X", "Y", "X"]) ∧
      (outcome cyclic.inRegistry registry).2 = registry ∧
      (∃ graph, graph = (outcome (InheritanceGraph.registerAll ClassTable.mixedBatch) .empty).2 ∧
        (outcome (InheritanceGraph.register { name := "A" }) graph).2 = graph ∧
        (outcome (InheritanceGraph.registerAll [{ name := "A" }]) graph).2 = graph) ∧
      ∃ sorted, basesFirst ClassTable.mixedBatch = .ok sorted ∧
        InsertsAll ClassTable.register .empty sorted ∧
        InsertsAll InheritanceGraph.register .empty sorted := by
  obtain ⟨sessions, registries, stores, tables, graphs⟩ := rejection_unchanged
  have reachable : Reachable
      (outcome (Declaration.newClasses ClassTable.mixedBatch).inRegistry .empty).2 :=
    .register _ .empty
  have refused : (((Session.ofRules none).run [.register (.newClasses ClassTable.mixedBatch),
      .ask (.layout "D")]).register (Declaration.newClasses
        [{ name := "X", bases := [⟨"Y", false⟩] },
          { name := "Y", bases := [⟨"X", true⟩] }]).registration).1 =
      .error (.cyclicInheritance ["X", "Y", "X"]) := by cbv
  obtain ⟨sorted, sorts⟩ : ∃ sorted, basesFirst ClassTable.mixedBatch = .ok sorted :=
    ⟨_, by cbv⟩
  have storedRefused : (outcome (Declaration.newClasses
      [{ name := "X", bases := [⟨"Y", false⟩] },
        { name := "Y", bases := [⟨"X", true⟩] }]).inRegistry
        (outcome (Declaration.newClasses ClassTable.mixedBatch).inRegistry .empty).2).1 =
      .error (.cyclicInheritance ["X", "Y", "X"]) := by cbv
  refine ⟨_, _, _, rfl, rfl, rfl, by cbv, refused, sessions _ _ _ refused, reachable,
    storedRefused, registries _ reachable _ _ storedRefused, ⟨_, rfl, ?_, ?_⟩, sorted, sorts,
    tables _ _ _ (by cbv) (by cbv) sorts, graphs _ _ _ .empty (by cbv) (by cbv) sorts⟩
  · exact (stores _ (.registerAll _ .empty)).1 _ (.duplicateClass "A") (by cbv)
  · exact (stores _ (.registerAll _ .empty)).2 _ (.duplicateClass "A") (by cbv)

end Registry

end StaticResolution
