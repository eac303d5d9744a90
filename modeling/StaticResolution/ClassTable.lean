import StaticResolution.Declarations
import StaticResolution.Outcome

/-!
The table of registered classes, in the order of their registration. A class enters the table only
after all of its bases, so that walks along bases end. The classes of a batch may name each other in
any order, and are sorted before the first of them enters.
-/

namespace StaticResolution

/-- Each base of a class names a class further to the front. -/
def BasesPrecede (classes : List ClassDef) : Prop :=
  ∀ earlier decl later, classes = earlier ++ decl :: later →
    ∀ base ∈ decl.bases, ∃ owner ∈ earlier, owner.name = base.name

theorem basesPrecede_nil : BasesPrecede [] := by
  intro earlier decl later split
  simp at split

theorem BasesPrecede.concat {classes : List ClassDef} (precede : BasesPrecede classes)
    {decl : ClassDef}
    (known : ∀ base ∈ decl.bases, ∃ owner ∈ classes, owner.name = base.name) :
    BasesPrecede (classes ++ [decl]) := by
  intro earlier found later split
  rcases List.eq_nil_or_concat later with empty | ⟨front, last, equal⟩
  · subst empty
    obtain ⟨same, only⟩ := List.append_inj' split rfl
    simp only [List.cons.injEq, and_true] at only
    subst same only
    exact known
  · rw [List.concat_eq_append] at equal
    subst equal
    rw [← List.cons_append, ← List.append_assoc] at split
    exact precede earlier found front (List.append_inj' split rfl).1

def ClassDef.duplicateBase? (decl : ClassDef) : Option RegistrationError :=
  decl.repeatedBase?.map fun base => .duplicateBase decl.name base

structure ClassTable where
  classes : List ClassDef
  precede : BasesPrecede classes

structure BaseEntry where
  index : Nat
  isVirtual : Bool
  position : Nat
deriving DecidableEq

namespace ClassTable

def empty : ClassTable :=
  { classes := [], precede := basesPrecede_nil }

def size (table : ClassTable) : Nat :=
  table.classes.length

def contains (table : ClassTable) (name : String) : Bool :=
  table.classes.any fun decl => decl.name == name

def index? (table : ClassTable) (name : String) : Option Nat :=
  table.classes.findIdx? fun decl => decl.name == name

def find? (table : ClassTable) (name : String) : Option ClassDef :=
  table.classes.find? fun decl => decl.name == name

def at? (table : ClassTable) (index : Nat) : Option ClassDef :=
  table.classes[index]?

def basesOf (table : ClassTable) (name : String) : List Base :=
  match table.find? name with
  | some decl => decl.bases
  | none => []

def rank (table : ClassTable) (name : String) : Nat :=
  table.classes.findIdx fun decl => decl.name == name

def basesAt (table : ClassTable) (index : Nat) : List BaseEntry :=
  match table.at? index with
  | some decl =>
      decl.bases.mapIdx fun position base =>
        { index := table.rank base.name, isVirtual := base.isVirtual, position := position }
  | none => []

theorem rank_lt (table : ClassTable) {name : String} {base : Base}
    (listed : base ∈ table.basesOf name) : table.rank base.name < table.rank name := by
  unfold basesOf find? at listed
  split at listed
  next decl found =>
    obtain ⟨_, earlier, later, split, absent⟩ := List.find?_eq_some_iff_append.mp found
    obtain ⟨owner, member, named⟩ := table.precede earlier decl later split base listed
    have before : table.rank base.name < earlier.length := by
      rw [rank, split, List.findIdx_append]
      have inside : earlier.findIdx (fun decl => decl.name == base.name) < earlier.length :=
        List.findIdx_lt_length_of_exists ⟨owner, member, by simpa using named⟩
      rw [if_pos inside]
      exact inside
    have after : earlier.length ≤ table.rank name := by
      rw [rank, split, List.findIdx_append]
      have outside : ¬ earlier.findIdx (fun decl => decl.name == name) < earlier.length := by
        rw [List.findIdx_lt_length]
        rintro ⟨other, place, same⟩
        simpa [same] using absent other place
      rw [if_neg outside]
      exact Nat.le_add_left _ _
    exact Nat.lt_of_lt_of_le before after
  next => simp at listed

theorem exists_of_contains (table : ClassTable) {name : String}
    (present : table.contains name = true) : ∃ owner ∈ table.classes, owner.name = name := by
  simpa [contains] using present

def add (table : ClassTable) (decl : ClassDef)
    (known : ∀ base ∈ decl.bases, table.contains base.name = true) : ClassTable :=
  { classes := table.classes ++ [decl]
    precede :=
      table.precede.concat fun base listed => table.exists_of_contains (known base listed) }

/-- Appends a class of a new name, with bases that are registered and listed once each, and returns
its index. -/
def register (decl : ClassDef) : Registration ClassTable Nat := do
  let table ← get
  if table.contains decl.name then throw (.duplicateClass decl.name)
  if let some fault := decl.duplicateBase? then throw fault
  match missing : decl.bases.find? fun base => !table.contains base.name with
  | some base => throw (.unknownBase decl.name base.name)
  | none =>
      set (table.add decl (by simpa using missing))
      return table.size

end ClassTable

/-- The first class, if any, of a known or repeated name, or that lists a base twice. -/
def duplicateAmong? (known : String → Bool) (earlier : List String) :
    List ClassDef → Option RegistrationError
  | [] => none
  | decl :: rest =>
      if known decl.name ∨ decl.name ∈ earlier then some (.duplicateClass decl.name)
      else
        match decl.duplicateBase? with
        | some fault => some fault
        | none => duplicateAmong? known (earlier ++ [decl.name]) rest

def unknownBaseAmong? (known : String → Bool) (batch : List ClassDef) : Option RegistrationError :=
  batch.findSome? fun decl =>
    let missing := decl.bases.find? fun base =>
      !known base.name && !batch.any fun other => other.name == base.name
    missing.map fun base => .unknownBase decl.name base.name

namespace ClassTable

def duplicate? (table : ClassTable) (earlier : List String) (batch : List ClassDef) :
    Option RegistrationError :=
  duplicateAmong? table.contains earlier batch

def unknownBase? (table : ClassTable) (batch : List ClassDef) : Option RegistrationError :=
  unknownBaseAmong? table.contains batch

end ClassTable

def unreached (batch : List ClassDef) (path : List String) : Nat :=
  batch.countP fun decl => decl.name ∉ path

theorem unreached_lt {batch : List ClassDef} {path : List String} {name : String}
    {decl : ClassDef} (fresh : name ∉ path)
    (found : batch.find? (fun decl => decl.name == name) = some decl) :
    unreached batch (path ++ [name]) < unreached batch path := by
  have member : decl ∈ batch := List.mem_of_find?_eq_some found
  have named : decl.name = name := by simpa using List.find?_some found
  unfold unreached
  have fewer : batch.countP (fun decl => decide (decl.name ∉ path ++ [name]))
      = (batch.filter fun decl => decl.name ∉ path).countP fun decl => decl.name ≠ name := by
    rw [List.countP_filter]
    congr 1
    funext other
    by_cases reached : other.name ∈ path <;> simp [reached]
  rw [fewer, List.countP_eq_length_filter (l := batch)]
  apply Nat.lt_of_le_of_ne (List.countP_le_length)
  intro all
  rw [List.countP_eq_length] at all
  have differs := all decl (by simp [member, named, fresh])
  simp [named] at differs

/-- Appends to `sorted` the class of a name after the bases of it that the batch holds. Coming back
to a name on the `path` from which the walk started is a cycle. -/
def sortFrom (batch : List ClassDef) (path : List String) (sorted : List ClassDef)
    (name : String) : Except RegistrationError (List ClassDef) :=
  if sorted.any fun decl => decl.name == name then .ok sorted
  else if name ∈ path then
    .error (.cyclicInheritance (path.dropWhile (fun step => step ≠ name) ++ [name]))
  else
    match _ : batch.find? fun decl => decl.name == name with
    | none => .ok sorted
    | some decl => do
        let sorted ← decl.bases.foldlM
          (fun sorted base => sortFrom batch (path ++ [name]) sorted base.name) sorted
        return sorted ++ [decl]
termination_by unreached batch path
decreasing_by exact unreached_lt (by assumption) (by assumption)

def basesFirst (batch : List ClassDef) : Except RegistrationError (List ClassDef) :=
  batch.foldlM (fun sorted decl => sortFrom batch [] sorted decl.name) []

namespace ClassTable

def registerAll (batch : List ClassDef) : Registration ClassTable (List Nat) := do
  let table ← get
  if let some fault := table.duplicate? [] batch then throw fault
  if let some fault := table.unknownBase? batch then throw fault
  match basesFirst batch with
  | .error fault => throw fault
  | .ok sorted => sorted.mapM register

end ClassTable

structure Link where
  derived : String
  base : String
  isVirtual : Bool
deriving DecidableEq

/-- Links in the order of a walk that takes the bases of each class from left to right, and
ancestors in the order in which the walk meets them first. -/
structure Ancestry where
  root : String
  links : List Link := []
  ancestors : List String := []
deriving DecidableEq

namespace Ancestry

def contains (ancestry : Ancestry) (name : String) : Bool :=
  ancestry.ancestors.contains name

def linksTo (ancestry : Ancestry) (base : String) : List Link :=
  ancestry.links.filter fun link => link.base == base

def addLink (ancestry : Ancestry) (link : Link) : Ancestry :=
  { ancestry with links := ancestry.links ++ [link] }

def addAncestor (ancestry : Ancestry) (name : String) : Ancestry :=
  { ancestry with ancestors := ancestry.ancestors ++ [name] }

end Ancestry

namespace ClassTable

/-- Adds what can be reached from a class by its base clauses. The bases of an ancestor that has
been met before are not walked again. -/
def climb (table : ClassTable) (met : Ancestry) (name : String) : Ancestry :=
  (table.basesOf name).attach.foldl
    (fun met base =>
      let linked := met.addLink ⟨name, base.1.name, base.1.isVirtual⟩
      if met.contains base.1.name then linked
      else table.climb (linked.addAncestor base.1.name) base.1.name)
    met
termination_by table.rank name
decreasing_by exact table.rank_lt base.2

theorem climb_eq (table : ClassTable) (met : Ancestry) (name : String) :
    table.climb met name = (table.basesOf name).foldl
      (fun met base =>
        let linked := met.addLink ⟨name, base.name, base.isVirtual⟩
        if met.contains base.name then linked
        else table.climb (linked.addAncestor base.name) base.name)
      met := by
  rw [climb]
  exact List.foldl_attach (f := fun met (base : Base) =>
    let linked := met.addLink ⟨name, base.name, base.isVirtual⟩
    if met.contains base.name then linked
    else table.climb (linked.addAncestor base.name) base.name)

def ancestry (table : ClassTable) (name : String) : Except QueryError Ancestry :=
  if table.contains name then .ok (table.climb { root := name } name)
  else .error (.unknownClass name)

def isBaseOf (table : ClassTable) (ancestor derived : String) : Except QueryError Bool := do
  return (← table.ancestry derived).contains ancestor

end ClassTable

end StaticResolution
