import StaticResolution.Conversion

/-!
Overload resolution: what it costs to bind the arguments of a call, and the choice of the cheapest
candidate. The conversions are asked for through a function, which may have effects: a class table
answers from a memo of layouts and adds to it.
-/

namespace StaticResolution

inductive ValueCategory where
  | lvalue
  | xvalue
  | prvalue
deriving DecidableEq

namespace ValueCategory

def isRvalue : ValueCategory → Bool
  | lvalue => false
  | xvalue => true
  | prvalue => true

def text : ValueCategory → String
  | lvalue => "lvalue"
  | xvalue => "xvalue"
  | prvalue => "prvalue"

end ValueCategory

structure Argument where
  typeName : String
  category : ValueCategory
deriving DecidableEq

namespace Argument

def text (argument : Argument) : String :=
  argument.category.text ++ " " ++ argument.typeName

end Argument

structure Call where
  callee : String
  args : List Argument
  direct : Bool := true
deriving DecidableEq

namespace Call

def arity (call : Call) : Nat :=
  call.args.length

def text (call : Call) : String :=
  call.callee ++ "(" ++ ", ".intercalate (call.args.map Argument.text) ++ ")"

end Call

structure Binding where
  rank : UInt32
  conversion : Conversion
  cost : UInt32
deriving DecidableEq

namespace Binding

def ofRank (conversion : Conversion) (rank : UInt32) : Binding :=
  { rank := rank, conversion := conversion, cost := rank + conversion.cost }

/-- A reference to an rvalue takes no lvalue. A reference to an lvalue takes one that binds
directly, and anything else only if it is a reference to `const`, through a temporary. -/
def rank? (param : Param) (category : ValueCategory) (conversion : Conversion) : Option UInt32 :=
  match param.passing with
  | .byValue => some 2
  | .rvalueRef => if category.isRvalue then some 0 else none
  | .lvalueRef =>
      if !category.isRvalue && conversion.bindsDirectly then some 0
      else if param.isConst then some 1
      else none

def of? (param : Param) (category : ValueCategory) (conversion : Conversion) : Option Binding :=
  (rank? param category conversion).map (ofRank conversion)

end Binding

variable {m : Type → Type} [Monad m]

def bindAll (convert : String → String → m (Option Conversion)) :
    List Param → List Argument → m (Option (List Binding))
  | param :: params, argument :: args => do
      let conversion ← convert argument.typeName param.typeName
      match conversion.bind (Binding.of? param argument.category) with
      | none => return none
      | some binding => return (← bindAll convert params args).map fun rest => binding :: rest
  | _, _ => return some []

structure Viable where
  member : Member
  fingerprint : Fingerprint
  bindings : List Binding
  cost : UInt32
deriving DecidableEq

namespace Viable

def text (viable : Viable) : String :=
  viable.member.text

def ofBindings (member : Member) (bindings : List Binding) : Viable :=
  { member := member
    fingerprint := member.fingerprint
    bindings := bindings
    cost := bindings.foldl (fun total binding => total + binding.cost) 0 }

end Viable

def cheapest (viable : List Viable) : List Viable :=
  match (viable.map Viable.cost).min? with
  | none => []
  | some least => viable.filter fun candidate => candidate.cost = least

/-- Several cheapest candidates are ambiguous, and are listed in the order of their texts. -/
def selectCheapest (viable : List Viable) : Verdict Viable :=
  match cheapest viable with
  | [] => .noMatch
  | [best] => .unique best
  | best => .ambiguous (best.mergeSort fun left right => decide (left.text ≤ right.text))

/-- Whether the form of a call fits a candidate. Only a direct call uses explicit candidates. -/
def Call.admits (call : Call) (member : Member) : Bool :=
  member.isCallable && (call.direct || !member.isExplicit) && member.arity == call.arity

def viable? (convert : String → String → m (Option Conversion)) (call : Call)
    (member : Member) : m (Option Viable) := do
  if call.admits member then
    return (← bindAll convert member.params call.args).map fun bindings =>
      Viable.ofBindings member bindings
  else return none

def viableAmong (convert : String → String → m (Option Conversion)) (call : Call) :
    List Member → m (List Viable)
  | [] => return []
  | member :: rest => do
      let first ← viable? convert call member
      return first.toList ++ (← viableAmong convert call rest)

def resolveAmong (convert : String → String → m (Option Conversion))
    (candidates : List Member) (call : Call) : m (Verdict Viable) := do
  return selectCheapest (← viableAmong convert call candidates)

end StaticResolution
