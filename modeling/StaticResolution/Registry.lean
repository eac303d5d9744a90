import StaticResolution.InheritanceGraph

/-!
Programs: their classes and their functions, no two of which have the same fingerprint. A registry
is the store behind a program, with the overloads of each name and the set of all fingerprints.
-/

namespace StaticResolution

structure FunctionTable where
  functions : List Member
deriving DecidableEq

namespace FunctionTable

def empty : FunctionTable :=
  { functions := [] }

def size (table : FunctionTable) : Nat :=
  table.functions.length

def overloads (table : FunctionTable) (name : String) : List Member :=
  table.functions.filter fun function => function.name == name

def contains (table : FunctionTable) (fingerprint : Fingerprint) : Bool :=
  table.functions.any fun function => function.fingerprint == fingerprint

def register (function : Member) : Registration FunctionTable Fingerprint := do
  let table ← get
  if !function.isCallable then throw (.notCallable function.qualifiedName)
  if table.contains function.fingerprint then throw (.duplicateFunction function.signature)
  set { table with functions := table.functions ++ [function] }
  return function.fingerprint

end FunctionTable

structure Program where
  classes : ClassTable
  functions : FunctionTable

namespace Program

def empty : Program :=
  { classes := .empty, functions := .empty }

def registerClass (decl : ClassDef) : Registration Program Nat :=
  (ClassTable.register decl).onPart classes fun program changed =>
    { program with classes := changed }

def registerClasses (batch : List ClassDef) : Registration Program (List Nat) :=
  (ClassTable.registerAll batch).onPart classes fun program changed =>
    { program with classes := changed }

def registerFunction (function : Member) : Registration Program Fingerprint :=
  (FunctionTable.register function).onPart functions fun program changed =>
    { program with functions := changed }

end Program

structure OverloadStore where
  sets : List (String × List Member)
  fingerprints : List Fingerprint
deriving DecidableEq

def addOverload (function : Member) : List (String × List Member) → List (String × List Member)
  | [] => [(function.name, [function])]
  | (name, overloads) :: rest =>
      if name = function.name then (name, overloads ++ [function]) :: rest
      else (name, overloads) :: addOverload function rest

namespace OverloadStore

def empty : OverloadStore :=
  { sets := [], fingerprints := [] }

def size (store : OverloadStore) : Nat :=
  store.fingerprints.length

def overloads (store : OverloadStore) (name : String) : List Member :=
  (store.sets.lookup name).getD []

def contains (store : OverloadStore) (fingerprint : Fingerprint) : Bool :=
  store.fingerprints.contains fingerprint

/-- The store with the fingerprint, and whether that is new to it. -/
def insert (store : OverloadStore) (fingerprint : Fingerprint) : Bool × OverloadStore :=
  if store.contains fingerprint then (false, store)
  else (true, { store with fingerprints := store.fingerprints ++ [fingerprint] })

def register (function : Member) : Registration OverloadStore Fingerprint := do
  if !function.isCallable then throw (.notCallable function.qualifiedName)
  let (fresh, inserted) := (← get).insert function.fingerprint
  set inserted
  if !fresh then throw (.duplicateFunction function.signature)
  modify fun store => { store with sets := addOverload function store.sets }
  return function.fingerprint

end OverloadStore

structure Registry where
  classes : InheritanceGraph
  functions : OverloadStore
deriving DecidableEq

namespace Registry

def empty : Registry :=
  { classes := .empty, functions := .empty }

def registerClass (decl : ClassDef) : Registration Registry Nat :=
  (InheritanceGraph.register decl).onPart classes fun registry changed =>
    { registry with classes := changed }

def registerClasses (batch : List ClassDef) : Registration Registry (List Nat) :=
  (InheritanceGraph.registerAll batch).onPart classes fun registry changed =>
    { registry with classes := changed }

def registerFunction (function : Member) : Registration Registry Fingerprint :=
  (OverloadStore.register function).onPart functions fun registry changed =>
    { registry with functions := changed }

end Registry

end StaticResolution
