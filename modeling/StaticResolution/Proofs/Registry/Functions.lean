import Mathlib.Algebra.GroupWithZero.Nat
import StaticResolution.Proofs.Registry.Refinement

/-!
The functions of a registry after any registrations. The overloads of the names and the set of
fingerprints are two stores, and both of them tell the functions that were registered successfully,
among them any two overloads of one name that differ in a single form.
-/

namespace StaticResolution

section OverloadSets

variable {function : Member} {sets : List (String × List Member)}

theorem names_addOverload (function : Member) (sets : List (String × List Member)) :
    (addOverload function sets).map Prod.fst =
      if function.name ∈ sets.map Prod.fst then sets.map Prod.fst
      else sets.map Prod.fst ++ [function.name] := by
  induction sets with
  | nil => rfl
  | cons first rest ih =>
      obtain ⟨name, overloads⟩ := first
      by_cases here : name = function.name
      · simp [addOverload, here]
      · have other : function.name ≠ name := Ne.symm here
        by_cases later : function.name ∈ rest.map Prod.fst
        · simp only [addOverload, if_neg here, List.map_cons, ih, List.mem_cons, later, or_true,
            if_true]
        · simp only [addOverload, if_neg here, List.map_cons, ih, List.mem_cons, other, later,
            or_self, if_false, List.cons_append]

theorem nodup_names_addOverload (distinct : (sets.map Prod.fst).Nodup) :
    ((addOverload function sets).map Prod.fst).Nodup := by
  rw [names_addOverload]
  split
  next => exact distinct
  next fresh =>
    rw [← List.concat_eq_append]
    exact distinct.concat fresh

theorem sum_length_addOverload (function : Member) (sets : List (String × List Member)) :
    ((addOverload function sets).map fun set => set.2.length).sum =
      (sets.map fun set => set.2.length).sum + 1 := by
  induction sets with
  | nil => rfl
  | cons first rest ih =>
      obtain ⟨name, overloads⟩ := first
      unfold addOverload
      split
      · simp only [List.map_cons, List.sum_cons, List.length_append, List.length_singleton]
        omega
      · simp only [List.map_cons, List.sum_cons, ih]
        omega

theorem nodup_names_overloadSets (functions : List Member) :
    ((overloadSets functions).map Prod.fst).Nodup := by
  apply List.foldlRecOn (motive := fun sets : List (String × List Member) =>
    (sets.map Prod.fst).Nodup)
  · exact List.nodup_nil
  · exact fun _ distinct _ _ => nodup_names_addOverload distinct

theorem sum_length_overloadSets (functions : List Member) :
    ((overloadSets functions).map fun set => set.2.length).sum = functions.length := by
  unfold overloadSets
  induction functions using List.reverseRecOn with
  | nil => rfl
  | append_singleton front last ih =>
      rw [List.foldl_append, List.foldl_cons, List.foldl_nil, sum_length_addOverload, ih,
        List.length_append, List.length_singleton]

theorem lookup_of_mem_of_nodup {key : String} {overloads : List Member}
    (distinct : (sets.map Prod.fst).Nodup) (listed : (key, overloads) ∈ sets) :
    sets.lookup key = some overloads := by
  induction sets with
  | nil => exact absurd listed List.not_mem_nil
  | cons first rest ih =>
      obtain ⟨fresh, later⟩ := List.nodup_cons.mp distinct
      rcases List.mem_cons.mp listed with rfl | inside
      · simp
      · have passed : (key == first.1) = false := by
          apply beq_false_of_ne
          rintro rfl
          exact fresh (List.mem_map.mpr ⟨_, inside, rfl⟩)
        rw [List.lookup_cons, passed, ih later inside]

end OverloadSets

/-- The functions can be called, and no two of them have the same fingerprint. -/
structure FunctionTable.WellFormed (table : FunctionTable) : Prop where
  callable : ∀ function ∈ table.functions, function.isCallable = true
  distinct : (table.functions.map Member.fingerprint).Nodup

/-- The overload sets and the fingerprints of the store are those of the functions. -/
structure OverloadStore.Tells (store : OverloadStore) (functions : List Member) : Prop where
  overloads : ∀ name, store.overloads name = functions.filter fun function => function.name == name
  distinctNames : (store.sets.map Prod.fst).Nodup
  sets : ∀ set ∈ store.sets, set.2 = store.overloads set.1
  total : (store.sets.map fun set => set.2.length).sum = functions.length
  contains : ∀ fingerprint, store.contains fingerprint = true ↔
    ∃ function ∈ functions, function.fingerprint = fingerprint
  size : store.size = functions.length

namespace FunctionTable

variable {table : FunctionTable}

theorem WellFormed.concat (formed : table.WellFormed) {function : Member}
    (callable : function.isCallable = true)
    (free : ∀ other ∈ table.functions, function.fingerprint ≠ other.fingerprint) :
    WellFormed ⟨table.functions ++ [function]⟩ := by
  constructor
  · intro other listed
    rcases List.mem_append.mp listed with old | new
    · exact formed.callable other old
    · rwa [List.mem_singleton.mp new]
  · rw [List.map_append, List.map_singleton, ← List.concat_eq_append]
    apply formed.distinct.concat
    intro listed
    obtain ⟨other, inside, same⟩ := List.mem_map.mp listed
    exact free other inside same.symm

theorem tells_store (table : FunctionTable) : table.store.Tells table.functions where
  overloads := table.overloads_store
  distinctNames := nodup_names_overloadSets table.functions
  sets := by
    rintro ⟨name, overloads⟩ listed
    have found := lookup_of_mem_of_nodup (nodup_names_overloadSets table.functions) listed
    change _ = ((overloadSets table.functions).lookup name).getD []
    rw [found, Option.getD_some]
  total := sum_length_overloadSets table.functions
  contains := by
    intro fingerprint
    rw [contains_store_iff]
    simp only [eq_comm]
  size := table.size_store

end FunctionTable

def Declaration.added (registry : Registry) : Declaration → List Member
  | newFunction function =>
      match (outcome (Registry.registerFunction function) registry).1 with
      | .ok _ => [function]
      | .error _ => []
  | newClass _ => []
  | newClasses _ => []

namespace Registry

def perform (registry : Registry) (declaration : Declaration) : Registry :=
  (outcome declaration.inRegistry registry).2

def run (registry : Registry) (declarations : List Declaration) : Registry :=
  declarations.foldl perform registry

def registered (registry : Registry) : List Declaration → List Member
  | [] => []
  | declaration :: rest =>
      declaration.added registry ++ (registry.perform declaration).registered rest

end Registry

theorem Declaration.registration_cases (declaration : Declaration) (program : Program) :
    ((outcome declaration.registration program).2.functions = program.functions ∧
      declaration.added program.registry = []) ∨
    ∃ function, declaration.added program.registry = [function] ∧ function.isCallable = true ∧
      (∀ other ∈ program.functions.functions, function.fingerprint ≠ other.fingerprint) ∧
      (outcome declaration.registration program).2.functions =
        ⟨program.functions.functions ++ [function]⟩ := by
  cases declaration with
  | newClass decl =>
      left
      rw [registration, outcome_map, Program.registerClass, outcome_onPart]
      exact ⟨rfl, rfl⟩
  | newClasses batch =>
      left
      rw [registration, outcome_map, Program.registerClasses, outcome_onPart]
      exact ⟨rfl, rfl⟩
  | newFunction function =>
      rw [registration, outcome_map, added, Program.mirrors_registerFunction function program,
        Program.registerFunction, outcome_onPart]
      rcases program.functions.outcome_register_cases function with
        ⟨callable, free, done⟩ | ⟨_, refused⟩
      · rw [done]
        exact .inr ⟨function, rfl, callable, free, rfl⟩
      · rw [refused]
        exact .inl ⟨rfl, rfl⟩

namespace Registry

theorem exists_program_run (declarations : List Declaration) {program : Program}
    (formed : program.functions.WellFormed) :
    ∃ reached : Program, reached.registry = program.registry.run declarations ∧
      reached.functions.functions =
        program.functions.functions ++ program.registry.registered declarations ∧
      reached.functions.WellFormed := by
  induction declarations generalizing program with
  | nil => exact ⟨program, rfl, (List.append_nil _).symm, formed⟩
  | cons declaration rest ih =>
      have moved : program.registry.perform declaration =
          (outcome declaration.registration program).2.registry := by
        rw [perform, declaration.mirrors_registration program]
      let changed := (outcome declaration.registration program).2
      have step : changed.functions.functions =
          program.functions.functions ++ declaration.added program.registry ∧
            changed.functions.WellFormed := by
        rcases declaration.registration_cases program with
          ⟨kept, none⟩ | ⟨function, added, callable, free, grown⟩
        · rw [none, List.append_nil]
          exact ⟨congrArg _ kept, kept ▸ formed⟩
        · rw [added]
          exact ⟨congrArg _ grown, grown ▸ formed.concat callable free⟩
      obtain ⟨reached, same, functions, reachedFormed⟩ := ih step.2
      refine ⟨reached, ?_, ?_, reachedFormed⟩
      · rw [same, ← moved]
        rfl
      · rw [functions, step.1, registered, moved, List.append_assoc]

/-- After any registrations both stores tell the functions whose registration succeeded, so do the
functions of the program, and a new function is admitted unless one of them has its fingerprint.
A second copy has it, explicit or not. -/
theorem run_functions (declarations : List Declaration) :
    let registry := empty.run declarations
    let functions := empty.registered declarations
    registry.functions.Tells functions ∧
    (∀ function ∈ functions, function.isCallable = true) ∧
    (functions.map Member.fingerprint).Nodup ∧
    (∀ function, (outcome (registerFunction function) registry).1 = .ok function.fingerprint ↔
      function.isCallable = true ∧ registry.functions.contains function.fingerprint = false) ∧
    (∀ function ∈ functions, ∀ isExplicit,
      outcome (registerFunction { function with isExplicit := isExplicit }) registry =
        (.error (.duplicateFunction function.signature), registry)) ∧
    ∃ program : Program, program.registry = registry ∧ program.functions.functions = functions := by
  have start : Program.empty.functions.WellFormed :=
    ⟨fun _ listed => absurd listed List.not_mem_nil, List.nodup_nil⟩
  obtain ⟨program, same, functions, formed⟩ := exists_program_run declarations start
  change program.registry = empty.run declarations at same
  change program.functions.functions = empty.registered declarations at functions
  simp only [← same, ← functions]
  have tells : program.registry.functions.Tells program.functions.functions :=
    program.functions.tells_store
  refine ⟨tells, formed.callable, formed.distinct, ?_, ?_, program, rfl, rfl⟩
  · intro function
    rw [Program.mirrors_registerFunction function program, Program.registerFunction,
      outcome_onPart, FunctionTable.register_eq_ok_iff]
    apply and_congr_right'
    rw [← Bool.not_eq_true, tells.contains]
    push Not
    simp only [ne_comm]
  · intro function listed isExplicit
    let copy : Member := { function with isExplicit := isExplicit }
    have callable : copy.isCallable = true := formed.callable function listed
    have same : copy.fingerprint = function.fingerprint := rfl
    rw [Program.mirrors_registerFunction copy program, Program.registerFunction, outcome_onPart,
      FunctionTable.outcome_register_of_taken callable listed same]
    rfl

def mixedCalls : List Declaration :=
  [.newFunction (.function "f" [⟨"int", false, .byValue⟩]), .newClass { name := "A" },
    .newFunction (.constructor "f" [⟨"int", false, .byValue⟩]),
    .newFunction { Member.function "f" [⟨"int", false, .byValue⟩] with isExplicit := true },
    .newFunction (.function "g" []), .newFunction (.data "f"),
    .newFunction (.function "f" [⟨"int", false, .lvalueRef⟩])]

theorem run_functions_mixedCalls :
    ∃ registry, registry = empty.run mixedCalls ∧
      registry.functions.overloads "f" =
        [.function "f" [⟨"int", false, .byValue⟩], .constructor "f" [⟨"int", false, .byValue⟩],
          .function "f" [⟨"int", false, .lvalueRef⟩]] ∧
      registry.functions.size = 4 ∧
      registry.functions.contains (Member.function "g" []).fingerprint = true ∧
      outcome (registerFunction { Member.function "g" [] with isExplicit := true }) registry =
        (.error (.duplicateFunction "g()"), registry) := by
  obtain ⟨tells, _, _, _, copies, _⟩ := run_functions mixedCalls
  have functions : empty.registered mixedCalls =
      [.function "f" [⟨"int", false, .byValue⟩], .constructor "f" [⟨"int", false, .byValue⟩],
        .function "g" [], .function "f" [⟨"int", false, .lvalueRef⟩]] := by
    decide +kernel
  rw [functions] at tells copies
  refine ⟨_, rfl, ?_, tells.size, (tells.contains _).mpr ⟨.function "g" [], by simp, rfl⟩, ?_⟩
  · rw [tells.overloads]
    decide
  · exact copies (.function "g" []) (by simp) true

end Registry

/-- A member function that is `const` where the other one is not, or a member with one parameter of
the same type in another form. -/
inductive Member.FormChange (member : Member) : Member → Prop
  | isConst (function : member.kind = .function) (owned : member.owner.isSome) :
      FormChange member { member with isConst := !member.isConst }
  | param {front back : List Param} {old : Param} {isConst : Bool} {passing : Passing}
      (listed : member.params = front ++ old :: back)
      (differ : (old.isConst, old.passing) ≠ (isConst, passing)) :
      FormChange member { member with
        params := front ++ { old with isConst := isConst, passing := passing } :: back }

namespace Member.FormChange

variable {first second : Member}

theorem name_eq (change : first.FormChange second) : second.name = first.name := by
  cases change <;> rfl

theorem isCallable_eq (change : first.FormChange second) :
    second.isCallable = first.isCallable := by
  cases change <;> rfl

theorem fingerprint_ne (change : first.FormChange second) (callable : first.isCallable = true) :
    first.fingerprint ≠ second.fingerprint := by
  rw [fingerprint_of_callable callable,
    fingerprint_of_callable (change.isCallable_eq.trans callable), Ne, Fingerprint.mk.injEq]
  intro same
  cases change with
  | isConst function owned =>
      exact seed_isConst_ne function owned (Fingerprint.foldFrom_inj.mp same)
  | param listed differ =>
      rw [listed, List.map_append, List.map_append, List.map_cons, List.map_cons] at same
      exact Param.fingerprint_ne_of_form differ (Fingerprint.foldFrom_change_inj.mp same)

end Member.FormChange

namespace OverloadStore

theorem overloads_addOverload (store : OverloadStore) (function : Member)
    (fingerprints : List Fingerprint) :
    ({ sets := addOverload function store.sets, fingerprints := fingerprints } :
      OverloadStore).overloads function.name = store.overloads function.name ++ [function] := by
  simp [overloads, lookup_addOverload]

end OverloadStore

namespace Registry

variable {registry : Registry}

theorem outcome_registerFunction_of_fresh {function : Member}
    (callable : function.isCallable = true)
    (fresh : registry.functions.contains function.fingerprint = false) :
    ∃ grown, outcome (registerFunction function) registry =
        (.ok function.fingerprint, { registry with functions := grown }) ∧
      grown.overloads function.name = registry.functions.overloads function.name ++ [function] ∧
      ∀ fingerprint, grown.contains fingerprint = true ↔
        registry.functions.contains fingerprint = true ∨ fingerprint = function.fingerprint := by
  refine ⟨_, ?_, registry.functions.overloads_addOverload function
    (registry.functions.fingerprints ++ [function.fingerprint]), ?_⟩
  · rw [registerFunction, outcome_onPart, OverloadStore.outcome_register_of_fresh callable fresh]
  · simp [OverloadStore.contains]

theorem outcome_registerFunction_both {first second : Member}
    (callable : first.isCallable = true) (secondCallable : second.isCallable = true)
    (named : second.name = first.name) (differ : first.fingerprint ≠ second.fingerprint)
    (fresh : registry.functions.contains first.fingerprint = false)
    (secondFresh : registry.functions.contains second.fingerprint = false) :
    ∃ grown, outcome ([first, second].mapM registerFunction) registry =
        (.ok [first.fingerprint, second.fingerprint], { registry with functions := grown }) ∧
      grown.overloads first.name = registry.functions.overloads first.name ++ [first, second] := by
  obtain ⟨middle, taken, overloads, contains⟩ := outcome_registerFunction_of_fresh callable fresh
  have stillFresh : middle.contains second.fingerprint = false := by
    rw [Bool.eq_false_iff, Ne, contains, secondFresh]
    simpa using differ.symm
  obtain ⟨grown, secondTaken, secondOverloads, _⟩ :=
    @outcome_registerFunction_of_fresh { registry with functions := middle } second secondCallable
      stillFresh
  refine ⟨grown, ?_, ?_⟩
  · rw [List.mapM_cons, outcome_bind_ok taken, outcome_bind, List.mapM_cons,
      outcome_bind_ok secondTaken]
    rfl
  · rw [named] at secondOverloads
    rw [secondOverloads, overloads, List.append_assoc]
    rfl

/-- The fold of the parameters loses nothing of its seed, and a change in one place always shows in
it. So two callables that differ in one form have different fingerprints, and a registry that has
neither of them takes both as overloads of one name. -/
theorem overloads_of_two_forms :
    (∀ params, Function.Injective fun seed => Fingerprint.foldParams seed params) ∧
    (∀ seed position first second, DifferAt position first second →
      Fingerprint.foldParams seed first ≠ Fingerprint.foldParams seed second) ∧
    ∀ first second : Member, first.isCallable = true → first.FormChange second →
      first.fingerprint ≠ second.fingerprint ∧
      ∀ registry : Registry, registry.functions.contains first.fingerprint = false →
        registry.functions.contains second.fingerprint = false →
        ∃ grown, outcome ([first, second].mapM registerFunction) registry =
            (.ok [first.fingerprint, second.fingerprint], { registry with functions := grown }) ∧
          grown.overloads first.name =
            registry.functions.overloads first.name ++ [first, second] := by
  refine ⟨Fingerprint.foldParams_injective, ?_, ?_⟩
  · intro seed position first second differ
    exact Fingerprint.foldParams_ne_of_differAt differ
  · intro first second callable change
    have apart := change.fingerprint_ne callable
    refine ⟨apart, fun registry fresh secondFresh => ?_⟩
    exact outcome_registerFunction_both callable (change.isCallable_eq.trans callable)
      change.name_eq apart fresh secondFresh

def wide (last : Passing) : Member :=
  .function "f" (List.replicate 16 ⟨"int", false, .byValue⟩ ++ [⟨"A", true, last⟩])

theorem overloads_of_two_forms_wide :
    DifferAt 16 ((wide .lvalueRef).params.map Param.fingerprint)
      ((wide .rvalueRef).params.map Param.fingerprint) ∧
    (∀ seed, Fingerprint.foldParams seed ((wide .lvalueRef).params.map Param.fingerprint) ≠
      Fingerprint.foldParams seed ((wide .rvalueRef).params.map Param.fingerprint)) ∧
    (wide .lvalueRef).isCallable = true ∧ (wide .lvalueRef).FormChange (wide .rvalueRef) ∧
    ∃ registry, registry = (outcome (registerFunction (.function "f" [])) .empty).2 ∧
      ∃ grown, outcome ([wide .lvalueRef, wide .rvalueRef].mapM registerFunction) registry =
          (.ok [(wide .lvalueRef).fingerprint, (wide .rvalueRef).fingerprint],
            { registry with functions := grown }) ∧
        grown.overloads "f" = [.function "f" [], wide .lvalueRef, wide .rvalueRef] := by
  obtain ⟨_, places, forms⟩ := overloads_of_two_forms
  have differ : DifferAt 16 ((wide .lvalueRef).params.map Param.fingerprint)
      ((wide .rvalueRef).params.map Param.fingerprint) :=
    @DifferAt.of_split _ (List.replicate 16 (Param.fingerprint ⟨"int", false, .byValue⟩)) []
      (Param.fingerprint ⟨"A", true, .lvalueRef⟩) (Param.fingerprint ⟨"A", true, .rvalueRef⟩)
      (by decide +kernel)
  have change : (wide .lvalueRef).FormChange (wide .rvalueRef) :=
    @Member.FormChange.param _ _ [] ⟨"A", true, .lvalueRef⟩ true .rvalueRef rfl (by decide)
  obtain ⟨_, taken⟩ := forms _ _ (by decide) change
  obtain ⟨grown, done, overloads⟩ := taken
    (outcome (registerFunction (.function "f" [])) .empty).2 (by decide +kernel)
    (by decide +kernel)
  exact ⟨differ, fun seed => places seed 16 _ _ differ, by decide, change, _, rfl, grown, done,
    overloads⟩

/-- A data member does not have parameters by design. The fingerprint of one that is given some
leaves them out, and a registry takes no data member. -/
theorem data_forms_coincide :
    ∃ first second : Member,
      first = { Member.data "x" with params := [⟨"int", false, .lvalueRef⟩] } ∧
      second = { Member.data "x" with params := [⟨"int", false, .rvalueRef⟩] } ∧
      first.FormChange second ∧ first.fingerprint = second.fingerprint ∧
      (outcome ([first, second].mapM registerFunction) .empty).1 = .error (.notCallable "x") :=
  ⟨_, _, rfl, rfl, @Member.FormChange.param _ [] [] ⟨"int", false, .lvalueRef⟩ false .rvalueRef rfl
    (by decide), rfl, rfl⟩

end Registry

end StaticResolution
