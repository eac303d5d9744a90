import StaticResolution.Fingerprint

/-!
Declarations: classes with their bases and members, and the parameters of callables. A free function
is a member without an owner.
-/

namespace StaticResolution

inductive Passing where
  | byValue
  | lvalueRef
  | rvalueRef
deriving DecidableEq

namespace Passing

def suffix : Passing → String
  | byValue => ""
  | lvalueRef => "&"
  | rvalueRef => "&&"

def signatureBits : Passing → UInt64
  | byValue => 0
  | lvalueRef => 0x10
  | rvalueRef => 0x20

end Passing

structure Param where
  typeName : String
  isConst : Bool
  passing : Passing
deriving DecidableEq

namespace Param

def text (param : Param) : String :=
  (if param.isConst then "const " else "") ++ param.typeName ++ param.passing.suffix

/-- The fingerprint of the type, with bits of its own for `const` and for each kind of reference. -/
def fingerprint (param : Param) : Fingerprint :=
  ⟨(Fingerprint.ofTypeName param.typeName).bits ^^^ param.isConst.toUInt64
    ^^^ param.passing.signatureBits⟩

end Param

inductive MemberKind where
  | data
  | function
  | constructor
deriving DecidableEq

structure Member where
  name : String
  owner : Option String
  kind : MemberKind
  params : List Param
  isExplicit : Bool := false
  isConst : Bool := false
deriving DecidableEq

namespace Member

def data (name : String) : Member :=
  { name := name, owner := none, kind := .data, params := [] }

def function (name : String) (params : List Param) : Member :=
  { name := name, owner := none, kind := .function, params := params }

/-- A constructor belongs to the class that it is named after. -/
def constructor (className : String) (params : List Param) : Member :=
  { name := className, owner := some className, kind := .constructor, params := params }

def ownedBy (member : Member) (className : String) : Member :=
  { member with owner := some className }

def isConstructor (member : Member) : Bool :=
  member.kind = .constructor

def isCallable (member : Member) : Bool :=
  member.kind ≠ .data

def arity (member : Member) : Nat :=
  member.params.length

/-- The identity of a member. Only functions with an owner keep their constness apart, and the name
of a constructor counts only where it has no owner. -/
def fingerprint (member : Member) : Fingerprint :=
  let params := member.params.map Param.fingerprint
  match member.kind, member.owner with
  | .data, none => .ofTypeName member.name
  | .data, some owner => .ofField (.ofTypeName owner) member.name
  | .function, none => .ofFunction member.name params
  | .function, some owner => .ofMethod (.ofTypeName owner) member.name params member.isConst
  | .constructor, none => .ofConstructor (.ofTypeName member.name) params
  | .constructor, some owner => .ofConstructor (.ofTypeName owner) params

def qualifiedName (member : Member) : String :=
  match member.owner with
  | none => member.name
  | some owner => owner ++ "::" ++ member.name

def signature (member : Member) : String :=
  member.qualifiedName ++ "(" ++ ", ".intercalate (member.params.map Param.text) ++ ")"

def text (member : Member) : String :=
  match member.kind with
  | .data => member.qualifiedName
  | .function | .constructor =>
      (if member.isExplicit then "explicit " else "") ++ member.signature
        ++ (if member.isConst then " const" else "")

end Member

structure Base where
  name : String
  isVirtual : Bool := false
deriving DecidableEq

namespace Base

def fingerprint (base : Base) : Fingerprint :=
  .ofTypeName base.name

def text (base : Base) : String :=
  (if base.isVirtual then "virtual " else "") ++ "public " ++ base.name

end Base

structure ClassDef where
  name : String
  bases : List Base := []
  members : List Member := []
deriving DecidableEq

def firstRepeated (seen : List String) : List String → Option String
  | [] => none
  | name :: rest => if name ∈ seen then some name else firstRepeated (seen ++ [name]) rest

namespace ClassDef

def withBase (decl : ClassDef) (name : String) : ClassDef :=
  { decl with bases := decl.bases ++ [{ name := name }] }

def withVirtualBase (decl : ClassDef) (name : String) : ClassDef :=
  { decl with bases := decl.bases ++ [{ name := name, isVirtual := true }] }

def withMember (decl : ClassDef) (member : Member) : ClassDef :=
  { decl with members := decl.members ++ [member.ownedBy decl.name] }

def withField (decl : ClassDef) (name : String) : ClassDef :=
  decl.withMember (.data name)

def withMethod (decl : ClassDef) (name : String) (params : List Param) : ClassDef :=
  decl.withMember (.function name params)

def withConstructor (decl : ClassDef) (params : List Param) : ClassDef :=
  decl.withMember (.constructor decl.name params)

def withExplicitConstructor (decl : ClassDef) (params : List Param) : ClassDef :=
  decl.withMember { Member.constructor decl.name params with isExplicit := true }

def fingerprint (decl : ClassDef) : Fingerprint :=
  .ofTypeName decl.name

/-- Constructors cannot be found by their name. -/
def findMembers (decl : ClassDef) (name : String) : List Member :=
  decl.members.filter fun member => !member.isConstructor && member.name == name

def declares (decl : ClassDef) (name : String) : Bool :=
  !(decl.findMembers name).isEmpty

def constructors (decl : ClassDef) : List Member :=
  decl.members.filter Member.isConstructor

def isRoot (decl : ClassDef) : Bool :=
  decl.bases.isEmpty

def repeatedBase? (decl : ClassDef) : Option String :=
  firstRepeated [] (decl.bases.map Base.name)

def text (decl : ClassDef) : String :=
  "class " ++ decl.name
    ++ (if decl.isRoot then "" else " : " ++ ", ".intercalate (decl.bases.map Base.text))

end ClassDef

end StaticResolution
