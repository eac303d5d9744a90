import Mathlib.Tactic.Push
import StaticResolution.Proofs.Fingerprint
import StaticResolution.Proofs.Outcome
import StaticResolution.Registry

/-!
What registration does to a table of functions: it adds a callable of a new fingerprint at the end,
and nothing else. Fingerprints tell functions apart that differ in one place, but a function and the
one of exchanged owner and name have one fingerprint.
-/

namespace StaticResolution

namespace FunctionTable

variable {table : FunctionTable} {function : Member}

theorem outcome_register_of_free (callable : function.isCallable = true)
    (free : ∀ other ∈ table.functions, function.fingerprint ≠ other.fingerprint) :
    outcome (register function) table =
      (.ok function.fingerprint, { functions := table.functions ++ [function] }) := by
  have absent : table.contains function.fingerprint = false := by
    simpa [contains] using fun other listed => (free other listed).symm
  unfold register
  rw [outcome_bind_ok (outcome_get table)]
  simp only [callable, absent, Bool.not_true, Bool.false_eq_true, if_false]
  rfl

theorem outcome_register_of_taken (callable : function.isCallable = true) {other : Member}
    (listed : other ∈ table.functions) (same : function.fingerprint = other.fingerprint) :
    outcome (register function) table =
      (.error (.duplicateFunction function.signature), table) := by
  have present : table.contains function.fingerprint = true :=
    List.any_eq_true.mpr ⟨other, listed, beq_iff_eq.mpr same.symm⟩
  unfold register
  rw [outcome_bind_ok (outcome_get table)]
  simp only [callable, present, Bool.not_true, Bool.false_eq_true, if_false, if_true]
  rfl

theorem outcome_register_of_not_callable (data : function.isCallable = false) :
    outcome (register function) table =
      (.error (.notCallable function.qualifiedName), table) := by
  unfold register
  rw [outcome_bind_ok (outcome_get table), data]
  rfl

theorem outcome_register_cases (table : FunctionTable) (function : Member) :
    (function.isCallable = true ∧
      (∀ other ∈ table.functions, function.fingerprint ≠ other.fingerprint) ∧
        outcome (register function) table =
          (.ok function.fingerprint, { functions := table.functions ++ [function] })) ∨
    ∃ fault, outcome (register function) table = (.error fault, table) := by
  by_cases callable : function.isCallable = true
  · by_cases taken : ∃ other ∈ table.functions, function.fingerprint = other.fingerprint
    · obtain ⟨other, listed, same⟩ := taken
      exact .inr ⟨_, outcome_register_of_taken callable listed same⟩
    · push Not at taken
      exact .inl ⟨callable, taken, outcome_register_of_free callable taken⟩
  · exact .inr ⟨_, outcome_register_of_not_callable (by simpa using callable)⟩

theorem register_eq_ok_iff :
    (outcome (register function) table).1 = .ok function.fingerprint ↔
      function.isCallable = true ∧
        ∀ other ∈ table.functions, function.fingerprint ≠ other.fingerprint := by
  constructor
  · intro succeeded
    rcases outcome_register_cases table function with ⟨callable, free, _⟩ | ⟨_, refused⟩
    · exact ⟨callable, free⟩
    · rw [refused] at succeeded
      cases succeeded
  · rintro ⟨callable, free⟩
    rw [outcome_register_of_free callable free]

theorem atomic_register (function : Member) : Atomic (register function) := by
  intro table fault failed
  rcases outcome_register_cases table function with ⟨_, _, done⟩ | ⟨_, refused⟩
  · rw [done] at failed
    cases failed
  · rw [refused]

end FunctionTable

namespace Member

/-- Whether two callables are overloads of one signature. -/
structure SameIdentity (first second : Member) : Prop where
  kind : first.kind = second.kind
  home : first.home = second.home
  name : first.kind = .function → first.name = second.name
  params : first.params = second.params
  isConst : first.kind = .function → first.home.isSome → first.isConst = second.isConst

def names (member : Member) : List String :=
  member.home.toList ++ (if member.kind = .function then [member.name] else []) ++
    member.params.map Param.typeName

/-- A callable that differs in its owner, in its name, in being `const` or in one parameter. -/
inductive Change (member : Member) : Member → Prop
  | owner {old new : String} (owned : member.owner = some old) (differ : old ≠ new) :
      Change member (member.ownedBy new)
  | name {new : String} (function : member.kind = .function) (differ : member.name ≠ new) :
      Change member { member with name := new }
  | isConst (function : member.kind = .function) (owned : member.owner.isSome) :
      Change member { member with isConst := !member.isConst }
  | param {front back : List Param} {old new : Param}
      (listed : member.params = front ++ old :: back) (change : old.Change new) :
      Change member { member with params := front ++ new :: back }

def DiffersInOnePlace (first second : Member) : Prop :=
  ∃ changed, first.Change changed ∧ changed.SameIdentity second

variable {first second : Member}

namespace SameIdentity

theorem isCallable (same : first.SameIdentity second) : first.isCallable = second.isCallable := by
  simp only [Member.isCallable, same.kind]

theorem names (same : first.SameIdentity second) : first.names = second.names := by
  simp only [Member.names, same.home, same.params, same.kind]
  split
  next function => rw [same.name (same.kind.trans function)]
  next => rfl

theorem seed (same : first.SameIdentity second) (callable : first.isCallable = true) :
    first.seed = second.seed := by
  unfold Member.seed
  rw [← same.kind, ← same.home]
  cases kind : first.kind with
  | data => simp [Member.isCallable, kind] at callable
  | function =>
      cases owned : first.home with
      | none => simp [same.name kind]
      | some owner => simp [same.name kind, same.isConst kind (by simp [owned])]
  | constructor => rfl

theorem fingerprint (same : first.SameIdentity second) (callable : first.isCallable = true) :
    first.fingerprint = second.fingerprint := by
  rw [fingerprint_of_callable callable, fingerprint_of_callable (same.isCallable ▸ callable),
    same.params, same.seed callable]

end SameIdentity

namespace Change

theorem isCallable (change : first.Change second) : first.isCallable = second.isCallable := by
  cases change <;> rfl

theorem fingerprint_ne (change : first.Change second) (callable : first.isCallable = true)
    (apart : Digest.Separates (first.names ++ second.names)) :
    first.fingerprint ≠ second.fingerprint := by
  rw [fingerprint_of_callable callable, fingerprint_of_callable (change.isCallable ▸ callable), Ne,
    Fingerprint.mk.injEq]
  intro same
  cases change with
  | @owner old new owned differ =>
      have hashes := (seed_ownedBy_inj callable owned).mp (Fingerprint.foldFrom_inj.mp same)
      exact differ (apart old (by simp [names, home_of_owned owned])
        new (by simp [names]) hashes)
  | @name new function differ =>
      have hashes := (seed_rename_inj function).mp (Fingerprint.foldFrom_inj.mp same)
      exact differ (apart _ (by simp [names, function]) new (by simp [names, function]) hashes)
  | isConst function owned =>
      exact seed_isConst_ne function owned (Fingerprint.foldFrom_inj.mp same)
  | @param front back old new listed change =>
      rw [listed, List.map_append, List.map_append, List.map_cons, List.map_cons] at same
      have inside : [old.typeName, new.typeName] ⊆
          first.names ++ { first with params := front ++ new :: back }.names := by
        simp [names, listed]
      exact change.fingerprint_ne (apart.subset inside) (Fingerprint.foldFrom_change_inj.mp same)

end Change

theorem DiffersInOnePlace.fingerprint_ne (differs : first.DiffersInOnePlace second)
    (callable : first.isCallable = true)
    (apart : Digest.Separates (first.names ++ second.names)) :
    first.fingerprint ≠ second.fingerprint := by
  obtain ⟨changed, change, same⟩ := differs
  rw [← same.names] at apart
  rw [← same.fingerprint (change.isCallable ▸ callable)]
  exact change.fingerprint_ne callable apart

end Member

namespace Program

variable {program : Program} {function : Member}

theorem outcome_registerFunction_of_free (callable : function.isCallable = true)
    (free : ∀ other ∈ program.functions.functions, function.fingerprint ≠ other.fingerprint) :
    outcome (registerFunction function) program =
      (.ok function.fingerprint,
        { program with functions := ⟨program.functions.functions ++ [function]⟩ }) := by
  rw [registerFunction, outcome_onPart, FunctionTable.outcome_register_of_free callable free]

theorem outcome_registerFunction_of_taken (callable : function.isCallable = true) {other : Member}
    (listed : other ∈ program.functions.functions)
    (same : function.fingerprint = other.fingerprint) :
    outcome (registerFunction function) program =
      (.error (.duplicateFunction function.signature), program) := by
  rw [registerFunction, outcome_onPart,
    FunctionTable.outcome_register_of_taken callable listed same]

/-- With the names hashed apart, only a registered function of the same identity or one that differs
in several places can stand in the way of another. -/
theorem registerFunction_succeeds_iff (callable : function.isCallable = true)
    (apart : Digest.Separates
      (function.names ++ program.functions.functions.flatMap Member.names)) :
    (outcome (registerFunction function) program =
        (.ok function.fingerprint,
          { program with functions := ⟨program.functions.functions ++ [function]⟩ }) ↔
      ∀ other ∈ program.functions.functions, ¬ function.SameIdentity other ∧
        (function.DiffersInOnePlace other ∨ function.fingerprint ≠ other.fingerprint)) ∧
    ((∃ other ∈ program.functions.functions, function.fingerprint = other.fingerprint) →
      outcome (registerFunction function) program =
        (.error (.duplicateFunction function.signature), program)) := by
  refine ⟨⟨?_, ?_⟩, ?_⟩
  · intro done other listed
    have differ : function.fingerprint ≠ other.fingerprint := by
      intro same
      rw [outcome_registerFunction_of_taken callable listed same] at done
      cases done
    exact ⟨fun identical => differ (identical.fingerprint callable), .inr differ⟩
  · intro fresh
    apply outcome_registerFunction_of_free callable
    intro other listed
    rcases (fresh other listed).2 with near | differ
    · have inside : function.names ++ other.names ⊆
          function.names ++ program.functions.functions.flatMap Member.names :=
        List.append_subset.mpr ⟨List.subset_append_left _ _, fun name inside =>
          List.mem_append_right _ (List.mem_flatMap.mpr ⟨other, listed, inside⟩)⟩
      exact near.fingerprint_ne callable (apart.subset inside)
    · exact differ
  · rintro ⟨other, listed, same⟩
    exact outcome_registerFunction_of_taken callable listed same

def overload (typeName : String) : Member :=
  (Member.function "f" [⟨typeName, false, .byValue⟩]).ownedBy "A"

def overloaded : Program :=
  (outcome ([overload "int", .function "g" []].mapM registerFunction) .empty).2

theorem functions_overloaded :
    overloaded.functions.functions = [overload "int", .function "g" []] := by
  decide +kernel

theorem registerFunction_succeeds_overload :
    (overload "long").isCallable = true ∧
      Digest.Separates ((overload "long").names ++
        overloaded.functions.functions.flatMap Member.names) ∧
      outcome (registerFunction (overload "long")) overloaded =
        (.ok (overload "long").fingerprint,
          { overloaded with
            functions := ⟨overloaded.functions.functions ++ [overload "long"]⟩ }) := by
  have apart : Digest.Separates ((overload "long").names ++
      overloaded.functions.functions.flatMap Member.names) := by
    rw [functions_overloaded]
    decide +kernel
  refine ⟨rfl, apart, (registerFunction_succeeds_iff rfl apart).1.mpr ?_⟩
  intro other listed
  simp only [functions_overloaded, List.mem_cons, List.not_mem_nil, or_false] at listed
  rcases listed with rfl | rfl
  · have change : (overload "long").Change (overload "int") :=
      @Member.Change.param _ [] [] _ _ rfl (.typeName (by decide))
    exact ⟨fun same => absurd same.params (by decide),
      .inl ⟨_, change, rfl, rfl, fun _ => rfl, rfl, fun _ _ => rfl⟩⟩
  · exact ⟨fun same => absurd same.params (by decide), .inr (by decide +kernel)⟩

end Program

theorem Member.fingerprint_exchanged {member : Member} {owner : String}
    (function : member.kind = .function) (owned : member.owner = some owner) :
    { member with name := owner, owner := some member.name }.fingerprint = member.fingerprint := by
  simp only [fingerprint, function, owned, Fingerprint.ofMethod, Fingerprint.ofTypeName]
  ac_rfl

namespace Program

def graphOfNode : Member :=
  (Member.function "Graph" []).ownedBy "Node"

def nodeOfGraph : Member :=
  (Member.function "Node" []).ownedBy "Graph"

def withGraphOfNode : Program :=
  (outcome (registerFunction graphOfNode) .empty).2

theorem registerFunction_exchanged :
    nodeOfGraph.isCallable = true ∧
      (∀ other ∈ withGraphOfNode.functions.functions, ¬ nodeOfGraph.SameIdentity other) ∧
      Digest.Separates (nodeOfGraph.names ++
        withGraphOfNode.functions.functions.flatMap Member.names) ∧
      outcome (registerFunction nodeOfGraph) withGraphOfNode =
        (.error (.duplicateFunction nodeOfGraph.signature), withGraphOfNode) := by
  have functions : withGraphOfNode.functions.functions = [graphOfNode] := by decide +kernel
  refine ⟨rfl, ?_, ?_, ?_⟩
  · intro other listed same
    rw [functions] at listed
    obtain rfl := List.mem_singleton.mp listed
    exact absurd (same.name rfl) (by decide)
  · rw [functions]
    decide +kernel
  · have taken : nodeOfGraph.fingerprint = graphOfNode.fingerprint :=
      @Member.fingerprint_exchanged graphOfNode "Node" rfl rfl
    exact outcome_registerFunction_of_taken rfl (by simp [functions]) taken

end Program

end StaticResolution
